/- Operators of the target language. Sixteen binary and three unary operators with
   their spelling. A binary operator has a precedence level, and two of them group
   to the right. A unary operator binds tighter than every binary operator but
   exponentiation. -/
namespace LoopLowering

/-- A binary operator, loosest first. -/
inductive BinaryOp where
  | or | and
  | lt | le | gt | ge | eq | ne
  | concat
  | add | sub
  | mul | div | floorDiv | mod
  | pow
  deriving DecidableEq, Repr

namespace BinaryOp

/-- Every binary operator, loosest first. -/
def all : List BinaryOp :=
  [.or, .and, .lt, .le, .gt, .ge, .eq, .ne, .concat, .add, .sub, .mul, .div, .floorDiv, .mod, .pow]

def symbol : BinaryOp → String
  | .or => "or"
  | .and => "and"
  | .lt => "<"
  | .le => "<="
  | .gt => ">"
  | .ge => ">="
  | .eq => "=="
  | .ne => "~="
  | .concat => ".."
  | .add => "+"
  | .sub => "-"
  | .mul => "*"
  | .div => "/"
  | .floorDiv => "//"
  | .mod => "%"
  | .pow => "^"

/-- The precedence level: an operator of a higher level binds tighter. -/
def precedence : BinaryOp → Nat
  | .or => 1
  | .and => 2
  | .lt | .le | .gt | .ge | .eq | .ne => 3
  | .concat => 4
  | .add | .sub => 5
  | .mul | .div | .floorDiv | .mod => 6
  | .pow => 8

/-- Whether a chain of the operator groups to the right. -/
def isRightAssoc : BinaryOp → Bool
  | .concat | .pow => true
  | _ => false

/-- The least level that an operator standing as the left operand needs to go without
parentheses: the operator's own level, or the next one when it groups to the right. -/
def leftLevel (op : BinaryOp) : Nat :=
  if op.isRightAssoc then op.precedence + 1 else op.precedence

/-- The least level that an operator standing as the right operand needs to go without
parentheses. -/
def rightLevel (op : BinaryOp) : Nat :=
  if op.isRightAssoc then op.precedence else op.precedence + 1

theorem mem_all (op : BinaryOp) : op ∈ all := by
  cases op <;> decide

end BinaryOp

inductive UnaryOp where
  | not | neg | len
  deriving DecidableEq, Repr

namespace UnaryOp

def all : List UnaryOp :=
  [.not, .neg, .len]

def symbol : UnaryOp → String
  | .not => "not"
  | .neg => "-"
  | .len => "#"

/-- The level of every unary operator: above multiplication and below exponentiation. -/
def precedence : Nat := 7

theorem mem_all (op : UnaryOp) : op ∈ all := by
  cases op <;> decide

end UnaryOp

end LoopLowering
