import LoopLowering.Loop
import LoopLowering.Node

/- Visiting a tree. A traversal visits the parts of a tree in the order of the text,
   each before what it contains, and may be told not to enter parts of some kinds.
   The names of a tree are those that the full traversal visits. -/
namespace LoopLowering

inductive VisitKind where
  | block
  | stmt
  | expr
  | call
  | name
  | loop (kind : LoopKind)
  deriving DecidableEq, Repr

def VisitKind.text : VisitKind → String
  | .block => "block"
  | .stmt => "stmt"
  | .expr => "expr"
  | .call => "call"
  | .name => "ident"
  | .loop .while => "while"
  | .loop .repeat => "repeat"
  | .loop .forIn => "for_in"
  | .loop .numericFor => "numeric_for"

/-- One visit: the number of statements of a block, the tag of a statement or an expression, the
number of arguments of a call, the text of a name, or the kind of a loop. -/
inductive Visit where
  | block (length : Nat)
  | stmt (tag : String)
  | expr (tag : String)
  | call (arguments : Nat)
  | name (x : Name)
  | loop (kind : LoopKind)
  deriving DecidableEq, Repr

namespace Visit

def kind : Visit → VisitKind
  | .block _ => .block
  | .stmt _ => .stmt
  | .expr _ => .expr
  | .call _ => .call
  | .name _ => .name
  | .loop k => .loop k

def describe (v : Visit) : String :=
  match v with
  | .block n => v.kind.text ++ " " ++ toString n
  | .stmt tag => v.kind.text ++ " " ++ tag
  | .expr tag => v.kind.text ++ " " ++ tag
  | .call n => v.kind.text ++ " " ++ toString n
  | .name x => v.kind.text ++ " " ++ x
  | .loop _ => v.kind.text

/-- The name that is visited, if the part is a name. -/
def name? : Visit → Option Name
  | .name x => some x
  | _ => none

/-- A visit and those inside the part, unless parts of its kind are skipped. -/
def entering (skip : VisitKind → Bool) (v : Visit) (inside : List Visit) : List Visit :=
  v :: if skip v.kind then [] else inside

end Visit

open Visit (entering)

mutual

/-- The visits of an expression. -/
def Expr.visits (skip : VisitKind → Bool) : Expr → List Visit
  | .nil => [.expr "Nil"]
  | .bool _ => [.expr "Bool"]
  | .int _ => [.expr "Int"]
  | .str _ => [.expr "Str"]
  | .ident x => entering skip (.expr "Ident") [.name x]
  | .member t x => entering skip (.expr "Member") (t.visits skip ++ [.name x])
  | .index t k => entering skip (.expr "Index") (t.visits skip ++ k.visits skip)
  | .call c as =>
    entering skip (.expr "Call")
      (entering skip (.call as.length) (c.visits skip ++ Expr.visitsAll skip as))
  | .binary _ l r => entering skip (.expr "Binary") (l.visits skip ++ r.visits skip)
  | .unary _ e => entering skip (.expr "Unary") (e.visits skip)
  | .paren e => entering skip (.expr "Paren") (e.visits skip)
  | .table es => entering skip (.expr "Table") (Expr.visitsAll skip es)

/-- The visits of expressions one after the other. -/
def Expr.visitsAll (skip : VisitKind → Bool) : List Expr → List Visit
  | [] => []
  | e :: es => e.visits skip ++ Expr.visitsAll skip es

end

/-- The visits of a call. -/
def Call.visits (skip : VisitKind → Bool) (i : Call) : List Visit :=
  entering skip (.call i.arguments.length)
    (i.callee.visits skip ++ Expr.visitsAll skip i.arguments)

mutual

/-- The visits of a statement. -/
def Stmt.visits (skip : VisitKind → Bool) : Stmt → List Visit
  | .expr e => entering skip (.stmt "Expr") (e.visits skip)
  | .local d =>
    entering skip (.stmt "Local") (d.names.map .name ++ Expr.visitsAll skip d.values)
  | .assign ts vs =>
    entering skip (.stmt "Assign") (Expr.visitsAll skip ts ++ Expr.visitsAll skip vs)
  | .loop l => entering skip (.stmt "Loop") (l.visits skip)
  | .do b => entering skip (.stmt "Do") (b.visits skip)
  | .if c t none => entering skip (.stmt "If") (c.visits skip ++ t.visits skip)
  | .if c t (some e) =>
    entering skip (.stmt "If") (c.visits skip ++ t.visits skip ++ e.visits skip)
  | .break => [.stmt "Break"]
  | .return vs => entering skip (.stmt "Return") (Expr.visitsAll skip vs)

/-- The visits of a block. -/
def Block.visits (skip : VisitKind → Bool) : Block → List Visit
  | ⟨_, ss⟩ => entering skip (.block ss.length) (Stmt.visitsAll skip ss)

/-- The visits of a loop. The condition of a `repeat` comes after its body. -/
def Loop.visits (skip : VisitKind → Bool) : Loop → List Visit
  | .while c b => entering skip (.loop .while) (c.visits skip ++ b.visits skip)
  | .repeat b c => entering skip (.loop .repeat) (b.visits skip ++ c.visits skip)
  | .forIn x s b =>
    entering skip (.loop .forIn) (.name x :: s.visits skip ++ b.visits skip)
  | .numericFor x i l none b =>
    entering skip (.loop .numericFor)
      (.name x :: i.visits skip ++ l.visits skip ++ b.visits skip)
  | .numericFor x i l (some s) b =>
    entering skip (.loop .numericFor)
      (.name x :: i.visits skip ++ l.visits skip ++ s.visits skip ++ b.visits skip)

/-- The visits of statements one after the other. -/
def Stmt.visitsAll (skip : VisitKind → Bool) : List Stmt → List Visit
  | [] => []
  | s :: ss => s.visits skip ++ Stmt.visitsAll skip ss

end

namespace Node

/-- The visits of a node. -/
def visits (skip : VisitKind → Bool) : Node → List Visit
  | .chunk b => b.visits skip
  | .block b => b.visits skip
  | .stmt s => s.visits skip
  | .expr e => e.visits skip
  | .loop l => l.visits skip
  | .call i => i.visits skip
  | .name x => [.name x]

/-- The names of a node, in the order of the traversal, each as often as it occurs. -/
def names (n : Node) : List Name :=
  (n.visits fun _ => false).filterMap Visit.name?

end Node

end LoopLowering
