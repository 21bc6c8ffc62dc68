import LoopLowering.Run.Value
import LoopLowering.Operator

/- Errors of a running program. -/
namespace LoopLowering

/-- The bounds of a numeric `for`. -/
inductive Bound where
  | initial
  | limit
  | step
  deriving DecidableEq, Repr

def Bound.describe : Bound → String
  | .initial => "initial value"
  | .limit => "limit"
  | .step => "step"

/-- Why a program stops. -/
inductive RunError where
  | undefinedVariable (name : Name)
  | notCallable (found : ValueType)
  | notIterable (found : ValueType)
  | notIndexable (found : ValueType)
  | binaryTypeMismatch (op : BinaryOp) (left right : ValueType)
  | unaryTypeMismatch (op : UnaryOp) (operand : ValueType)
  | unsupportedOperator (op : BinaryOp)
  | integerOverflow
  | divisionByZero
  | nonNumericBound (bound : Bound) (found : ValueType)
  | zeroStep
  | invalidAssignmentTarget
  | indexOutOfBounds (index : Int64)
  | breakOutsideLoop
  | iterationLimit (limit : Nat)
  deriving DecidableEq, Repr

def RunError.message : RunError → String
  | .undefinedVariable x => "undefined variable `" ++ x ++ "`"
  | .notCallable t => "attempt to call a " ++ t.name ++ " value"
  | .notIterable t => "attempt to iterate over a " ++ t.name ++ " value"
  | .notIndexable t => "attempt to index a " ++ t.name ++ " value"
  | .binaryTypeMismatch op l r =>
    "attempt to perform `" ++ op.symbol ++ "` on " ++ l.name ++ " and " ++ r.name
  | .unaryTypeMismatch op t =>
    "attempt to perform `" ++ op.symbol ++ "` on a " ++ t.name ++ " value"
  | .unsupportedOperator op => "operator `" ++ op.symbol ++ "` is not supported on integers"
  | .integerOverflow => "integer overflow"
  | .divisionByZero => "attempt to perform 'n//0' or 'n%0'"
  | .nonNumericBound b t => "'for' " ++ b.describe ++ " must be a number, got " ++ t.name
  | .zeroStep => "'for' step is zero"
  | .invalidAssignmentTarget => "cannot assign to this expression"
  | .indexOutOfBounds i => "table index " ++ toString i.toInt ++ " is out of bounds"
  | .breakOutsideLoop => "break outside a loop"
  | .iterationLimit n => "loop exceeded " ++ toString n ++ " iterations"

end LoopLowering
