import LoopLowering.Run.Heap
import LoopLowering.Word

/- What operators compute. Arithmetic is on integers and exact: a result outside 64
   bits is an overflow, never a wrapped value. Integers and texts are ordered, each
   among themselves; a text is ordered by its characters. Two values of any types
   can be tested for equality. -/
namespace LoopLowering

/-- The exact result of an operation on integers, or an overflow. -/
def checked (n : Int) : Except RunError Int64 :=
  match toWord? n with
  | some w => .ok w
  | none => .error .integerOverflow

/-- The quotient rounded down: the quotient rounded toward zero, and one less when it is not exact and
the operands differ in sign. Each step is checked. -/
def floorDivide (a b : Int64) : Except RunError Int64 :=
  if b = 0 then .error .divisionByZero
  else do
    let q ← checked (a.toInt.tdiv b.toInt)
    if a.toInt.tmod b.toInt ≠ 0 ∧ decide (a < 0) ≠ decide (b < 0) then checked (q.toInt - 1)
    else pure q

/-- The remainder `a - q * b` for the quotient `q` rounded down. Each step is checked, so the product
may overflow although the remainder itself is small. -/
def remainder (a b : Int64) : Except RunError Int64 := do
  let q ← floorDivide a b
  let p ← checked (q.toInt * b.toInt)
  checked (a.toInt - p.toInt)

/-- The relation of two ordered values, if they are of a type that has an order: the first result is
whether the left one is less, the second whether it is greater. -/
def order? : Value → Value → Option (Bool × Bool)
  | .int a, .int b => some (decide (a < b), decide (b < a))
  | .str a, .str b => some (decide (a < b), decide (b < a))
  | _, _ => none

/-- The text that a value contributes to a concatenation, if it may stand in one. -/
def concatText? : Value → Option String
  | .str s => some s
  | .int n => some (Value.int n).text
  | _ => none

namespace BinaryOp

/-- The error of an operator between values of types that it is not for. -/
def mismatch (op : BinaryOp) (a b : Value) : RunError :=
  .binaryTypeMismatch op a.type b.type

def compare (op : BinaryOp) (a b : Value) (holds : Bool → Bool → Bool) : Except RunError Value :=
  match order? a b with
  | some (less, greater) => .ok (.bool (holds less greater))
  | none => .error (op.mismatch a b)

def arithmetic (op : BinaryOp) (a b : Value) (compute : Int64 → Int64 → Except RunError Int64) :
    Except RunError Value :=
  match a, b with
  | .int m, .int n => .int <$> compute m n
  | _, _ => .error (op.mismatch a b)

/-- Whether the left operand alone gives the result: a false one of `and`, a true one of `or`. -/
def decidedBy (op : BinaryOp) (a : Value) : Bool :=
  match op with
  | .and => !a.truthy
  | .or => a.truthy
  | _ => false

/-- The result of an operator on two values. Division and exponentiation have no result in the
integers. -/
def apply (op : BinaryOp) (a b : Value) : Except RunError Value :=
  match op with
  | .and => .ok (if a.truthy then b else a)
  | .or => .ok (if a.truthy then a else b)
  | .eq => .ok (.bool (decide (a = b)))
  | .ne => .ok (.bool (decide (a ≠ b)))
  | .lt => op.compare a b fun less _ => less
  | .le => op.compare a b fun _ greater => !greater
  | .gt => op.compare a b fun _ greater => greater
  | .ge => op.compare a b fun less _ => !less
  | .concat =>
    match concatText? a, concatText? b with
    | some s, some t => .ok (.str (s ++ t))
    | _, _ => .error (op.mismatch a b)
  | .add => op.arithmetic a b fun m n => checked (m.toInt + n.toInt)
  | .sub => op.arithmetic a b fun m n => checked (m.toInt - n.toInt)
  | .mul => op.arithmetic a b fun m n => checked (m.toInt * n.toInt)
  | .floorDiv => op.arithmetic a b floorDivide
  | .mod => op.arithmetic a b remainder
  | .div | .pow => .error (.unsupportedOperator op)

end BinaryOp

/-- The result of an operator on one value. The length of a text counts its bytes. -/
def UnaryOp.apply (h : Heap) : UnaryOp → Value → Except RunError Value
  | .not, v => .ok (.bool (!v.truthy))
  | .neg, .int n => .int <$> checked (-n.toInt)
  | .len, .str s => .int <$> checked s.utf8ByteSize
  | .len, .table t => .int <$> checked (h.table t).size
  | op, v => .error (.unaryTypeMismatch op v.type)

end LoopLowering
