import LoopLowering.Data.Encode

/- Trees from data. Reads the trees that `Data.Encode` writes, and more. A variant
   without contents may also be a record whose only field has null for contents. A
   record may have further fields, which are skipped, and may leave out the fields
   `step` and `else_block`. The fields that are there are read in alphabetical
   order and the first fault wins; only then is a missing field a fault, and last
   comes the check of the loop node itself (`Loop.validate`), so a loop node is
   read with the delimiters of its kind.

   Calls, declarations, assignments, conditionals, blocks and loop nodes may also
   be given by position, as a list of the contents of all their fields. These are
   read in the order of the list and the first fault wins, an element that is not
   there included; only then is a further element a fault. The fields of the
   variants `Member`, `Index`, `Binary` and `Unary` are always given by name. -/
namespace LoopLowering

open Data (read? readAt require requireLength unlessNull)

def BinaryOp.ofData (d : Data) : Except DecodeError BinaryOp := do
  let tag ← d.toTag
  require (BinaryOp.all.find? (·.tag == tag))

def UnaryOp.ofData (d : Data) : Except DecodeError UnaryOp := do
  let tag ← d.toTag
  require (UnaryOp.all.find? (·.tag == tag))

def Delimiters.ofData (d : Data) : Except DecodeError Delimiters := do
  let tag ← d.toTag
  require ([Delimiters.doEnd, .bare].find? (·.tag == tag))

mutual

def Expr.ofData (d : Data) : Except DecodeError Expr :=
  match d with
  | .str tag => if tag = "Nil" then .ok .nil else .error .shape
  | .record [(tag, v)] =>
    match tag with
    | "Nil" => match v with
      | .null => .ok .nil
      | _ => .error .shape
    | "Bool" => return .bool (← v.toBool)
    | "Int" => return .int (← v.toWord)
    | "Str" => return .str (← v.toText)
    | "Ident" => return .ident (← v.toText)
    | "Member" =>
      match v with
      | .record fields => do
        let name ← read? fields "name" fun x _ => x.toText
        let target ← read? fields "target" fun x _ => Expr.ofData x
        return .member (← require target) (← require name)
      | _ => .error .shape
    | "Index" =>
      match v with
      | .record fields => do
        let key ← read? fields "key" fun x _ => Expr.ofData x
        let target ← read? fields "target" fun x _ => Expr.ofData x
        return .index (← require target) (← require key)
      | _ => .error .shape
    | "Call" => return (← Call.ofData v).toExpr
    | "Binary" =>
      match v with
      | .record fields => do
        let left ← read? fields "left" fun x _ => Expr.ofData x
        let op ← read? fields "op" fun x _ => BinaryOp.ofData x
        let right ← read? fields "right" fun x _ => Expr.ofData x
        return .binary (← require op) (← require left) (← require right)
      | _ => .error .shape
    | "Unary" =>
      match v with
      | .record fields => do
        let op ← read? fields "op" fun x _ => UnaryOp.ofData x
        let operand ← read? fields "operand" fun x _ => Expr.ofData x
        return .unary (← require op) (← require operand)
      | _ => .error .shape
    | "Paren" => return .paren (← Expr.ofData v)
    | "Table" => return .table (← Expr.listOfData v)
    | _ => .error .shape
  | _ => .error .shape
termination_by sizeOf d
decreasing_by
  all_goals simp_wf
  all_goals try have := Data.sizeOf_lt_of_mem ‹_›
  all_goals try have := List.sizeOf_lt_of_mem ‹_›
  all_goals omega

def Call.ofData (d : Data) : Except DecodeError Call :=
  match d with
  | .record fields => do
    let arguments ← read? fields "arguments" fun x _ => Expr.listOfData x
    let callee ← read? fields "callee" fun x _ => Expr.ofData x
    return ⟨← require callee, ← require arguments⟩
  | .list items => do
    let callee ← readAt items 0 fun x _ => Expr.ofData x
    let arguments ← readAt items 1 fun x _ => Expr.listOfData x
    requireLength items 2
    return ⟨callee, arguments⟩
  | _ => .error .shape
termination_by sizeOf d
decreasing_by
  all_goals simp_wf
  all_goals try have := Data.sizeOf_lt_of_mem ‹_›
  all_goals try have := List.sizeOf_lt_of_mem ‹_›
  all_goals omega

def Expr.listOfData (d : Data) : Except DecodeError (List Expr) :=
  match d with
  | .list items => Expr.allOfData items
  | _ => .error .shape
termination_by sizeOf d

def Expr.allOfData (items : List Data) : Except DecodeError (List Expr) :=
  match items with
  | [] => .ok []
  | x :: xs => return (← Expr.ofData x) :: (← Expr.allOfData xs)
termination_by sizeOf items

end

def Declaration.ofData : Data → Except DecodeError Declaration
  | .record fields => do
    let names ← read? fields "names" fun x _ => x.toTexts
    let values ← read? fields "values" fun x _ => Expr.listOfData x
    return ⟨← require names, ← require values⟩
  | .list items => do
    let names ← readAt items 0 fun x _ => x.toTexts
    let values ← readAt items 1 fun x _ => Expr.listOfData x
    requireLength items 2
    return ⟨names, values⟩
  | _ => .error .shape

/-- The checked loop node, with its error as a reason that decoding fails. -/
def Loop.checked (l : Loop) : Except DecodeError Loop :=
  l.validate.mapError .loop

mutual

def Stmt.ofData (d : Data) : Except DecodeError Stmt :=
  match d with
  | .str tag => if tag = "Break" then .ok .break else .error .shape
  | .record [(tag, v)] =>
    match tag with
    | "Break" => match v with
      | .null => .ok .break
      | _ => .error .shape
    | "Expr" => return .expr (← Expr.ofData v)
    | "Local" => return .local (← Declaration.ofData v)
    | "Assign" =>
      match v with
      | .record fields => do
        let targets ← read? fields "targets" fun x _ => Expr.listOfData x
        let values ← read? fields "values" fun x _ => Expr.listOfData x
        return .assign (← require targets) (← require values)
      | .list items => do
        let targets ← readAt items 0 fun x _ => Expr.listOfData x
        let values ← readAt items 1 fun x _ => Expr.listOfData x
        requireLength items 2
        return .assign targets values
      | _ => .error .shape
    | "Loop" => return .loop (← Loop.ofData v)
    | "Do" => return .do (← Block.ofData v)
    | "If" =>
      match v with
      | .record fields => do
        let condition ← read? fields "condition" fun x _ => Expr.ofData x
        let elseBlock ← read? fields "else_block" fun x _ => unlessNull x (Block.ofData x)
        let thenBlock ← read? fields "then_block" fun x _ => Block.ofData x
        return .if (← require condition) (← require thenBlock) elseBlock.join
      | .list items => do
        let condition ← readAt items 0 fun x _ => Expr.ofData x
        let thenBlock ← readAt items 1 fun x _ => Block.ofData x
        let elseBlock ← readAt items 2 fun x _ => unlessNull x (Block.ofData x)
        requireLength items 3
        return .if condition thenBlock elseBlock
      | _ => .error .shape
    | "Return" => return .return (← Expr.listOfData v)
    | _ => .error .shape
  | _ => .error .shape
termination_by sizeOf d
decreasing_by
  all_goals simp_wf
  all_goals try have := Data.sizeOf_lt_of_mem ‹_›
  all_goals try have := List.sizeOf_lt_of_mem ‹_›
  all_goals omega

def Block.ofData (d : Data) : Except DecodeError Block :=
  match d with
  | .record fields => do
    let delimiters ← read? fields "delimiters" fun x _ => Delimiters.ofData x
    let statements ← read? fields "statements" fun x _ => Stmt.listOfData x
    return ⟨← require delimiters, ← require statements⟩
  | .list items => do
    let delimiters ← readAt items 0 fun x _ => Delimiters.ofData x
    let statements ← readAt items 1 fun x _ => Stmt.listOfData x
    requireLength items 2
    return ⟨delimiters, statements⟩
  | _ => .error .shape
termination_by sizeOf d
decreasing_by
  all_goals simp_wf
  all_goals try have := Data.sizeOf_lt_of_mem ‹_›
  all_goals try have := List.sizeOf_lt_of_mem ‹_›
  all_goals omega

/-- Reads a loop node and checks it. -/
def Loop.ofData (d : Data) : Except DecodeError Loop :=
  match d with
  | .record [(tag, .record fields)] =>
    match tag with
    | "While" => do
      let body ← read? fields "body" fun x _ => Block.ofData x
      let condition ← read? fields "condition" fun x _ => Expr.ofData x
      Loop.checked (.while (← require condition) (← require body))
    | "Repeat" => do
      let body ← read? fields "body" fun x _ => Block.ofData x
      let condition ← read? fields "condition" fun x _ => Expr.ofData x
      Loop.checked (.repeat (← require body) (← require condition))
    | "ForIn" => do
      let body ← read? fields "body" fun x _ => Block.ofData x
      let source ← read? fields "source" fun x _ => Call.ofData x
      let var ← read? fields "variable" fun x _ => x.toText
      Loop.checked (.forIn (← require var) (← require source) (← require body))
    | "NumericFor" => do
      let body ← read? fields "body" fun x _ => Block.ofData x
      let limit ← read? fields "limit" fun x _ => Expr.ofData x
      let start ← read? fields "start" fun x _ => Expr.ofData x
      let step ← read? fields "step" fun x _ => unlessNull x (Expr.ofData x)
      let var ← read? fields "variable" fun x _ => x.toText
      Loop.checked
        (.numericFor (← require var) (← require start) (← require limit) step.join (← require body))
    | _ => .error .shape
  | .record [(tag, .list items)] =>
    match tag with
    | "While" => do
      let condition ← readAt items 0 fun x _ => Expr.ofData x
      let body ← readAt items 1 fun x _ => Block.ofData x
      requireLength items 2
      Loop.checked (.while condition body)
    | "Repeat" => do
      let body ← readAt items 0 fun x _ => Block.ofData x
      let condition ← readAt items 1 fun x _ => Expr.ofData x
      requireLength items 2
      Loop.checked (.repeat body condition)
    | "ForIn" => do
      let var ← readAt items 0 fun x _ => x.toText
      let source ← readAt items 1 fun x _ => Call.ofData x
      let body ← readAt items 2 fun x _ => Block.ofData x
      requireLength items 3
      Loop.checked (.forIn var source body)
    | "NumericFor" => do
      let var ← readAt items 0 fun x _ => x.toText
      let start ← readAt items 1 fun x _ => Expr.ofData x
      let limit ← readAt items 2 fun x _ => Expr.ofData x
      let step ← readAt items 3 fun x _ => unlessNull x (Expr.ofData x)
      let body ← readAt items 4 fun x _ => Block.ofData x
      requireLength items 5
      Loop.checked (.numericFor var start limit step body)
    | _ => .error .shape
  | _ => .error .shape
termination_by sizeOf d
decreasing_by
  all_goals simp_wf
  all_goals try have := Data.sizeOf_lt_of_mem ‹_›
  all_goals try have := List.sizeOf_lt_of_mem ‹_›
  all_goals omega

def Stmt.listOfData (d : Data) : Except DecodeError (List Stmt) :=
  match d with
  | .list items => Stmt.allOfData items
  | _ => .error .shape
termination_by sizeOf d

def Stmt.allOfData (items : List Data) : Except DecodeError (List Stmt) :=
  match items with
  | [] => .ok []
  | x :: xs => return (← Stmt.ofData x) :: (← Stmt.allOfData xs)
termination_by sizeOf items

end

end LoopLowering
