import LoopLowering.Data

/- Trees as data. Each tree is written as data. A variant without contents is its
   tag; any other is a record with one field, named by its tag. The fields of a
   record stand in alphabetical order and are all written. -/
namespace LoopLowering

def BinaryOp.tag : BinaryOp → String
  | .or => "Or"
  | .and => "And"
  | .lt => "Lt"
  | .le => "LtEq"
  | .gt => "Gt"
  | .ge => "GtEq"
  | .eq => "Eq"
  | .ne => "NotEq"
  | .concat => "Concat"
  | .add => "Add"
  | .sub => "Sub"
  | .mul => "Mul"
  | .div => "Div"
  | .floorDiv => "FloorDiv"
  | .mod => "Mod"
  | .pow => "Pow"

def UnaryOp.tag : UnaryOp → String
  | .not => "Not"
  | .neg => "Neg"
  | .len => "Len"

def Delimiters.tag : Delimiters → String
  | .doEnd => "DoEnd"
  | .bare => "Bare"

mutual

def Expr.toData : Expr → Data
  | .nil => .str "Nil"
  | .bool b => .variant "Bool" (.bool b)
  | .int n => .variant "Int" (.int n.toInt)
  | .str s => .variant "Str" (.str s)
  | .ident x => .variant "Ident" (.str x)
  | .member t x => .variant "Member" (.record [("name", .str x), ("target", t.toData)])
  | .index t k => .variant "Index" (.record [("key", k.toData), ("target", t.toData)])
  | .call c as =>
    .variant "Call" (.record [("arguments", .list (Expr.toDataAll as)), ("callee", c.toData)])
  | .binary op l r =>
    .variant "Binary" (.record [("left", l.toData), ("op", .str op.tag), ("right", r.toData)])
  | .unary op e => .variant "Unary" (.record [("op", .str op.tag), ("operand", e.toData)])
  | .paren e => .variant "Paren" e.toData
  | .table es => .variant "Table" (.list (Expr.toDataAll es))

def Expr.toDataAll : List Expr → List Data
  | [] => []
  | e :: es => e.toData :: Expr.toDataAll es

end

def Call.toData (i : Call) : Data :=
  .record [("arguments", .list (Expr.toDataAll i.arguments)), ("callee", i.callee.toData)]

def Declaration.toData (d : Declaration) : Data :=
  .record [("names", .list (d.names.map .str)), ("values", .list (Expr.toDataAll d.values))]

mutual

def Stmt.toData : Stmt → Data
  | .expr e => .variant "Expr" e.toData
  | .local d => .variant "Local" d.toData
  | .assign ts vs =>
    .variant "Assign"
      (.record [("targets", .list (Expr.toDataAll ts)), ("values", .list (Expr.toDataAll vs))])
  | .loop l => .variant "Loop" l.toData
  | .do b => .variant "Do" b.toData
  | .if c t none =>
    .variant "If" (.record [("condition", c.toData), ("else_block", .null), ("then_block", t.toData)])
  | .if c t (some e) =>
    .variant "If"
      (.record [("condition", c.toData), ("else_block", e.toData), ("then_block", t.toData)])
  | .break => .str "Break"
  | .return vs => .variant "Return" (.list (Expr.toDataAll vs))

def Block.toData : Block → Data
  | ⟨d, ss⟩ => .record [("delimiters", .str d.tag), ("statements", .list (Stmt.toDataAll ss))]

def Loop.toData : Loop → Data
  | .while c b => .variant "While" (.record [("body", b.toData), ("condition", c.toData)])
  | .repeat b c => .variant "Repeat" (.record [("body", b.toData), ("condition", c.toData)])
  | .forIn x s b =>
    .variant "ForIn" (.record [("body", b.toData), ("source", s.toData), ("variable", .str x)])
  | .numericFor x i l s b =>
    .variant "NumericFor"
      (.record [("body", b.toData), ("limit", l.toData), ("start", i.toData),
        ("step", s.elim .null Expr.toData), ("variable", .str x)])

def Stmt.toDataAll : List Stmt → List Data
  | [] => []
  | s :: ss => s.toData :: Stmt.toDataAll ss

end

end LoopLowering
