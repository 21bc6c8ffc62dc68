import LoopLowering.Run.Exec
import LoopLowering.Run.Operator
import LoopLowering.Expr

/- Evaluating expressions. Operands are evaluated from left to right. A chain of
   members on a name is one dotted name and is looked up as such; no other
   expression has members. -/
namespace LoopLowering

/-- The dotted name that a name or a chain of members on a name spells. -/
def Expr.qualifiedName? : Expr → Option Name
  | .ident x => some x
  | .member t x => t.qualifiedName?.map fun path => path ++ "." ++ x
  | _ => none

/-- The value at a key of a table: nil for a key that is no integer. -/
def indexValue (h : Heap) : Value → Value → Except RunError Value
  | .table t, .int i => .ok ((h.table t).get i)
  | .table _, _ => .ok .nil
  | v, _ => .error (.notIndexable v.type)

/-- The iterator over a value: a new one over a table or a text, and an iterator itself. -/
def iterate : Value → Exec Value
  | .table t => Exec.newIterator (.elements t 0)
  | .str s => Exec.newIterator (.chars s.toList)
  | .iter id => pure (.iter id)
  | v => throw (.notIterable v.type)

/-- Calls a value. Printing joins the texts of the arguments with tabs; iterating takes the first
argument and skips the others. -/
def callValue (callee : Value) (arguments : List Value) : Exec Value :=
  match callee with
  | .builtin .print => do
    Exec.print ("\t".intercalate (arguments.map Value.text))
    pure .nil
  | .builtin .each => iterate (arguments.head?.getD .nil)
  | v => throw (.notCallable v.type)

mutual

def Expr.eval : Expr → Exec Value
  | .nil => pure .nil
  | .bool b => pure (.bool b)
  | .int n => pure (.int n)
  | .str s => pure (.str s)
  | .ident x => Exec.lookup x
  | .member t x =>
    match (Expr.member t x).qualifiedName? with
    | some path => Exec.lookup path
    | none => do
      let v ← t.eval
      throw (.notIndexable v.type)
  | .index t k => do
    let v ← t.eval
    let i ← k.eval
    Exec.ofExcept (indexValue (← get).heap v i)
  | .call c as => do
    let f ← c.eval
    let vs ← Expr.evalAll as
    callValue f vs
  | .binary op l r => do
    let a ← l.eval
    if op.decidedBy a then pure a
    else do
      let b ← r.eval
      Exec.ofExcept (op.apply a b)
  | .unary op e => do
    let v ← e.eval
    Exec.ofExcept (op.apply (← get).heap v)
  | .paren e => e.eval
  | .table es => do
    let vs ← Expr.evalAll es
    Exec.newTable vs

/-- The values of expressions, from left to right. -/
def Expr.evalAll : List Expr → Exec (List Value)
  | [] => pure []
  | e :: es => do
    let v ← e.eval
    let vs ← Expr.evalAll es
    pure (v :: vs)

end

def Call.eval (i : Call) : Exec Value :=
  i.toExpr.eval

end LoopLowering
