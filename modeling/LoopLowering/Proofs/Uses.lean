import LoopLowering.Run.Expr
import LoopLowering.Stmt

/- The names that a program uses. A name is used where it is looked up or assigned,
   as it stands or as the dotted name of a chain of members. A declaration does not
   use the names it declares, nor a loop its variable. -/
namespace LoopLowering

mutual

def Expr.lookups : Expr → List Name
  | .nil | .bool _ | .int _ | .str _ => []
  | .ident x => [x]
  | .member t x =>
    match (Expr.member t x).qualifiedName? with
    | some path => [path]
    | none => t.lookups
  | .index t k => t.lookups ++ k.lookups
  | .call c as => c.lookups ++ Expr.lookupsAll as
  | .binary _ l r => l.lookups ++ r.lookups
  | .unary _ e => e.lookups
  | .paren e => e.lookups
  | .table es => Expr.lookupsAll es

def Expr.lookupsAll : List Expr → List Name
  | [] => []
  | e :: es => e.lookups ++ Expr.lookupsAll es

end

/-- The names that an assignment to the target uses: those that find the element of a table, or the
variable that is written. -/
def Expr.targetUses : Expr → List Name
  | .index t k => t.lookups ++ k.lookups
  | target => target.qualifiedName?.toList

theorem Expr.mem_targetUses {target : Expr} {x : Name} (h : target.qualifiedName? = some x) :
    x ∈ target.targetUses := by
  cases target with
  | ident y => exact List.mem_singleton.mpr (Option.some.inj h).symm
  | member t y =>
    show x ∈ (Expr.member t y).qualifiedName?.toList
    rw [h]
    exact List.mem_cons_self
  | index t k => cases h
  | nil | bool _ | int _ | str _ | call _ _ | binary _ _ _ | unary _ _ | paren _ | table _ => cases h

mutual

def Stmt.uses : Stmt → List Name
  | .expr e => e.lookups
  | .local d => Expr.lookupsAll d.values
  | .assign ts vs => Expr.lookupsAll vs ++ ts.flatMap Expr.targetUses
  | .loop l => l.uses
  | .do b => b.uses
  | .if c t none => c.lookups ++ t.uses
  | .if c t (some e) => c.lookups ++ (t.uses ++ e.uses)
  | .break => []
  | .return vs => Expr.lookupsAll vs

def Block.uses : Block → List Name
  | ⟨_, ss⟩ => Stmt.usesAll ss

def Loop.uses : Loop → List Name
  | .while c ⟨_, ss⟩ => c.lookups ++ Stmt.usesAll ss
  | .repeat ⟨_, ss⟩ c => c.lookups ++ Stmt.usesAll ss
  | .forIn _ source ⟨_, ss⟩ => source.toExpr.lookups ++ Stmt.usesAll ss
  | .numericFor _ i l s ⟨_, ss⟩ =>
    i.lookups ++ (l.lookups ++ (Expr.lookupsAll s.toList ++ Stmt.usesAll ss))

def Stmt.usesAll : List Stmt → List Name
  | [] => []
  | s :: ss => s.uses ++ Stmt.usesAll ss

end

end LoopLowering
