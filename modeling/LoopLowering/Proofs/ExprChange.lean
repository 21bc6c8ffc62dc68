import LoopLowering.Proofs.ReadBack
import LoopLowering.Stmt

/- Changing the expressions of statements. An `ExprChange` changes expressions and leaves
   calls calls, so it can be carried out in every place of a statement
   (`Stmt.mapExprs`), also where only a call may stand. Changes that are carried out
   one after the other are one change (`Stmt.mapExprsAll_comp`).

   Three changes are of interest: to what is written, to what is read, and to what is
   left without parentheses. -/
namespace LoopLowering

/-- A change of expressions that leaves calls calls. -/
structure ExprChange where
  expr : Expr → Expr
  call : Call → Call
  toExpr_call : ∀ c, (call c).toExpr = expr c.toExpr

namespace ExprChange

theorem ext {f g : ExprChange} (h : ∀ e, f.expr e = g.expr e) : f = g := by
  obtain ⟨fe, fc, hf⟩ := f
  obtain ⟨ge, gc, hg⟩ := g
  obtain rfl : fe = ge := funext h
  have hcall : fc = gc := by
    funext c
    have hexpr : (fc c).toExpr = (gc c).toExpr := (hf c).trans (hg c).symm
    exact Option.some.inj (congrArg Expr.call? hexpr)
  subst hcall
  rfl

def comp (f g : ExprChange) : ExprChange where
  expr := f.expr ∘ g.expr
  call := f.call ∘ g.call
  toExpr_call c := by
    rw [Function.comp_apply, f.toExpr_call, g.toExpr_call]
    rfl

def written : ExprChange where
  expr := Expr.written 0
  call c := ⟨.parenIf (!c.callee.takesSuffix) (c.callee.written 0), Expr.writtenAll c.arguments⟩
  toExpr_call c := by
    rw [Call.toExpr, Call.toExpr, Expr.written]

/-- The expressions with their integers and dotted paths as they are read. -/
def spelled : ExprChange where
  expr := Expr.spelled
  call c := ⟨c.callee.spelled, Expr.spelledAll c.arguments⟩
  toExpr_call c := by
    rw [Call.toExpr, Call.toExpr, Expr.spelled]

def erased : ExprChange where
  expr := Expr.erase
  call c := ⟨c.callee.erase, Expr.eraseAll c.arguments⟩
  toExpr_call c := by
    rw [Call.toExpr, Call.toExpr, Expr.erase]

/-- But for parentheses, what is written is what is read. -/
theorem erased_comp_written : erased.comp written = erased.comp spelled :=
  ext fun e => e.erase_written 0

end ExprChange

mutual

def Stmt.mapExprs (f : ExprChange) : Stmt → Stmt
  | .expr e => .expr (f.expr e)
  | .local d => .local ⟨d.names, d.values.map f.expr⟩
  | .assign ts vs => .assign (ts.map f.expr) (vs.map f.expr)
  | .loop l => .loop (l.mapExprs f)
  | .do b => .do (b.mapExprs f)
  | .if c t none => .if (f.expr c) (t.mapExprs f) none
  | .if c t (some e) => .if (f.expr c) (t.mapExprs f) (some (e.mapExprs f))
  | .break => .break
  | .return vs => .return (vs.map f.expr)

def Block.mapExprs (f : ExprChange) : Block → Block
  | ⟨d, ss⟩ => ⟨d, Stmt.mapExprsAll f ss⟩

def Loop.mapExprs (f : ExprChange) : Loop → Loop
  | .while c b => .while (f.expr c) (b.mapExprs f)
  | .repeat b c => .repeat (b.mapExprs f) (f.expr c)
  | .forIn x s b => .forIn x (f.call s) (b.mapExprs f)
  | .numericFor x i l s b => .numericFor x (f.expr i) (f.expr l) (s.map f.expr) (b.mapExprs f)

def Stmt.mapExprsAll (f : ExprChange) : List Stmt → List Stmt
  | [] => []
  | s :: ss => s.mapExprs f :: Stmt.mapExprsAll f ss

end

mutual

theorem Stmt.mapExprs_comp (f g : ExprChange) :
    (s : Stmt) → s.mapExprs (f.comp g) = (s.mapExprs g).mapExprs f
  | .expr e => by simp only [Stmt.mapExprs, ExprChange.comp, Function.comp_apply]
  | .local d => by simp only [Stmt.mapExprs, ExprChange.comp, List.map_map]
  | .assign ts vs => by simp only [Stmt.mapExprs, ExprChange.comp, List.map_map]
  | .loop l => by simp only [Stmt.mapExprs, l.mapExprs_comp f g]
  | .do b => by simp only [Stmt.mapExprs, b.mapExprs_comp f g]
  | .if c t none => by
    simp only [Stmt.mapExprs, t.mapExprs_comp f g]
    rfl
  | .if c t (some e) => by
    simp only [Stmt.mapExprs, t.mapExprs_comp f g, e.mapExprs_comp f g]
    rfl
  | .break => by simp only [Stmt.mapExprs]
  | .return vs => by simp only [Stmt.mapExprs, ExprChange.comp, List.map_map]

theorem Block.mapExprs_comp (f g : ExprChange) :
    (b : Block) → b.mapExprs (f.comp g) = (b.mapExprs g).mapExprs f
  | ⟨d, ss⟩ => by simp only [Block.mapExprs, Stmt.mapExprsAll_comp f g ss]

theorem Loop.mapExprs_comp (f g : ExprChange) :
    (l : Loop) → l.mapExprs (f.comp g) = (l.mapExprs g).mapExprs f
  | .while c b => by
    simp only [Loop.mapExprs, b.mapExprs_comp f g]
    rfl
  | .repeat b c => by
    simp only [Loop.mapExprs, b.mapExprs_comp f g]
    rfl
  | .forIn x s b => by
    simp only [Loop.mapExprs, b.mapExprs_comp f g]
    rfl
  | .numericFor x i l s b => by
    simp only [Loop.mapExprs, b.mapExprs_comp f g, Option.map_map]
    rfl

theorem Stmt.mapExprsAll_comp (f g : ExprChange) : (ss : List Stmt) →
    Stmt.mapExprsAll (f.comp g) ss = Stmt.mapExprsAll f (Stmt.mapExprsAll g ss)
  | [] => rfl
  | s :: ss => by simp only [Stmt.mapExprsAll, s.mapExprs_comp f g, Stmt.mapExprsAll_comp f g ss]

end

theorem Stmt.erased_written (ss : List Stmt) :
    Stmt.mapExprsAll .erased (Stmt.mapExprsAll .written ss) =
      Stmt.mapExprsAll .erased (Stmt.mapExprsAll .spelled ss) := by
  rw [← Stmt.mapExprsAll_comp, ← Stmt.mapExprsAll_comp, ExprChange.erased_comp_written]

end LoopLowering
