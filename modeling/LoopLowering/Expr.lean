import LoopLowering.Name
import LoopLowering.Operator

/- Expressions of the target language. `Expr` is the expression tree. Equality of
   trees is decidable (`Expr.beq_iff`): it compares shape and leaves, and
   parentheses count as nodes of their own. -/
namespace LoopLowering

/-- An expression. Integers have 64 bits; `ident` may hold a dotted path; `paren` is a pair of
parentheses that the program writes out. -/
inductive Expr where
  | nil
  | bool (value : Bool)
  | int (value : Int64)
  | str (value : String)
  | ident (name : Name)
  | member (target : Expr) (name : Name)
  | index (target key : Expr)
  | call (callee : Expr) (arguments : List Expr)
  | binary (op : BinaryOp) (left right : Expr)
  | unary (op : UnaryOp) (operand : Expr)
  | paren (inner : Expr)
  | table (items : List Expr)
  deriving Repr, Inhabited

/-- A call: what is called, and with which arguments. -/
structure Call where
  callee : Expr
  arguments : List Expr
  deriving Repr

namespace Expr

/-- The literal `true`. -/
def alwaysTrue : Expr := .bool true

def isAlwaysTrue : Expr → Bool
  | .bool b => b
  | _ => false

/-- The negation `not (e)`, always with parentheses around the operand. -/
def negation (e : Expr) : Expr :=
  .unary .not (.paren e)

def call? : Expr → Option Call
  | .call callee arguments => some ⟨callee, arguments⟩
  | _ => none

end Expr

def Call.toExpr (c : Call) : Expr :=
  .call c.callee c.arguments

@[simp] theorem Expr.call?_toExpr (c : Call) : c.toExpr.call? = some c := rfl

/-! Equality. -/

mutual

/-- Whether two expressions are the same tree. -/
def Expr.beq : Expr → Expr → Bool
  | .nil, .nil => true
  | .bool a, .bool b => a == b
  | .int a, .int b => a == b
  | .str a, .str b => a == b
  | .ident a, .ident b => a == b
  | .member t n, .member t' n' => t.beq t' && n == n'
  | .index t k, .index t' k' => t.beq t' && k.beq k'
  | .call c as, .call c' as' => c.beq c' && Expr.beqAll as as'
  | .binary op l r, .binary op' l' r' => op == op' && l.beq l' && r.beq r'
  | .unary op e, .unary op' e' => op == op' && e.beq e'
  | .paren e, .paren e' => e.beq e'
  | .table es, .table es' => Expr.beqAll es es'
  | _, _ => false

def Expr.beqAll : List Expr → List Expr → Bool
  | [], [] => true
  | e :: es, e' :: es' => e.beq e' && Expr.beqAll es es'
  | _, _ => false

end

mutual

theorem Expr.beq_iff : (a b : Expr) → (a.beq b = true ↔ a = b)
  | .nil, b => by cases b <;> simp [Expr.beq]
  | .bool _, b => by cases b <;> simp [Expr.beq]
  | .int _, b => by cases b <;> simp [Expr.beq]
  | .str _, b => by cases b <;> simp [Expr.beq]
  | .ident _, b => by cases b <;> simp [Expr.beq]
  | .member t _, b => by cases b <;> simp [Expr.beq, Expr.beq_iff t]
  | .index t k, b => by cases b <;> simp [Expr.beq, Expr.beq_iff t, Expr.beq_iff k]
  | .call c as, b => by cases b <;> simp [Expr.beq, Expr.beq_iff c, Expr.beqAll_iff as]
  | .binary _ l r, b => by
    cases b <;> simp [Expr.beq, Expr.beq_iff l, Expr.beq_iff r, and_assoc]
  | .unary _ e, b => by cases b <;> simp [Expr.beq, Expr.beq_iff e]
  | .paren e, b => by cases b <;> simp [Expr.beq, Expr.beq_iff e]
  | .table es, b => by cases b <;> simp [Expr.beq, Expr.beqAll_iff es]

theorem Expr.beqAll_iff : (as bs : List Expr) → (Expr.beqAll as bs = true ↔ as = bs)
  | [], bs => by cases bs <;> simp [Expr.beqAll]
  | a :: as, bs => by cases bs <;> simp [Expr.beqAll, Expr.beq_iff a, Expr.beqAll_iff as]

end

instance : DecidableEq Expr :=
  fun a b => decidable_of_iff (a.beq b = true) (Expr.beq_iff a b)

deriving instance DecidableEq for Call

end LoopLowering
