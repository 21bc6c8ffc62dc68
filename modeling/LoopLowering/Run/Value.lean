import LoopLowering.Name

/- Values of a running program. Tables and iterators are shared: a value holds the
   number of the table or iterator in the heap, and two of them are equal when they
   are the same one. -/
namespace LoopLowering

/-- The number of a table in the heap. -/
abbrev TableId := Nat

/-- The number of an iterator in the heap. -/
abbrev IterId := Nat

/-- A function that the language provides. -/
inductive Builtin where
  | print
  | each
  deriving DecidableEq, Repr

def Builtin.name : Builtin → String
  | .print => "print"
  | .each => "each"

inductive Value where
  | nil
  | bool (value : Bool)
  | int (value : Int64)
  | str (value : String)
  | table (id : TableId)
  | builtin (function : Builtin)
  | iter (id : IterId)
  deriving DecidableEq, Repr, Inhabited

/-- The types of value that programs can tell apart. -/
inductive ValueType where
  | nil
  | boolean
  | number
  | string
  | table
  | function
  deriving DecidableEq, Repr

def ValueType.name : ValueType → String
  | .nil => "nil"
  | .boolean => "boolean"
  | .number => "number"
  | .string => "string"
  | .table => "table"
  | .function => "function"

namespace Value

def type : Value → ValueType
  | .nil => .nil
  | .bool _ => .boolean
  | .int _ => .number
  | .str _ => .string
  | .table _ => .table
  | .builtin _ | .iter _ => .function

/-- Whether a condition with this value holds: all values do but nil and false. -/
def truthy : Value → Bool
  | .nil => false
  | .bool b => b
  | _ => true

/-- The text of a value when it is printed. -/
def text : Value → String
  | .nil => "nil"
  | .bool b => toString b
  | .int n => toString n.toInt
  | .str s => s
  | .table _ => "table"
  | .builtin f => "builtin: " ++ f.name
  | .iter _ => "function: iterator"

end Value

end LoopLowering
