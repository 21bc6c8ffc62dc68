import LoopLowering.Data.Encode

/- The shapes of a tree. A tree can be described by more data than it is written
   as. `Expr.Shape`, `Stmt.Shape`, `Block.Shape` and `Loop.Shape` say which data
   describe a tree, without reading them.

   * A variant without contents is its tag, or a record with null for contents.
   * The fields of a record stand in any order, among further fields that count for
     nothing. A field that is not there counts as null, and null describes only an
     optional part that is left out.
   * Calls, declarations, assignments, conditionals, blocks and loop nodes are given
     by name or by position.

   The shapes say nothing about the rule for loop nodes, and any delimiters may stand
   around the body of a loop. What a tree is written as describes it
   (`Stmt.shape_toData`). -/
namespace LoopLowering

namespace Data

/-- The data of a variant without contents. -/
def IsTag (tag : String) (d : Data) : Prop :=
  d = .str tag ∨ d = .variant tag .null

/-- The contents of the fields with the given names; null stands for a field that is not there. -/
def named (fields : List (String × Data)) (names : List String) : List Data :=
  names.map fun name => (fields.lookup name).getD .null

/-- The contents of the fields with the given names, given by name or by position. -/
def Holds (names : List String) (d : Data) (contents : List Data) : Prop :=
  (∃ fields, d = .record fields ∧ named fields names = contents) ∨ d = .list contents

theorem isTag_str (tag : String) : IsTag tag (.str tag) := .inl rfl

theorem holds_record {names : List String} {fields : List (String × Data)} {contents : List Data}
    (h : named fields names = contents) : Holds names (.record fields) contents :=
  .inl ⟨fields, rfl, h⟩

end Data

open Data (IsTag named Holds)

/-! ## Expressions -/

mutual

/-- The data describe the expression. -/
def Expr.Shape : Expr → Data → Prop
  | .nil, d => IsTag "Nil" d
  | .bool b, d => d = .variant "Bool" (.bool b)
  | .int n, d => d = .variant "Int" (.int n.toInt)
  | .str s, d => d = .variant "Str" (.str s)
  | .ident x, d => d = .variant "Ident" (.str x)
  | .member t x, d => ∃ fields dt,
    d = .variant "Member" (.record fields) ∧ named fields ["target", "name"] = [dt, .str x] ∧
      t.Shape dt
  | .index t k, d => ∃ fields dt dk,
    d = .variant "Index" (.record fields) ∧ named fields ["target", "key"] = [dt, dk] ∧
      t.Shape dt ∧ k.Shape dk
  | .call c as, d => ∃ v dc das,
    d = .variant "Call" v ∧ Holds ["callee", "arguments"] v [dc, .list das] ∧
      c.Shape dc ∧ Expr.ShapeAll as das
  | .binary op l r, d => ∃ fields dop dl dr,
    d = .variant "Binary" (.record fields) ∧ named fields ["op", "left", "right"] = [dop, dl, dr] ∧
      IsTag op.tag dop ∧ l.Shape dl ∧ r.Shape dr
  | .unary op e, d => ∃ fields dop de,
    d = .variant "Unary" (.record fields) ∧ named fields ["op", "operand"] = [dop, de] ∧
      IsTag op.tag dop ∧ e.Shape de
  | .paren e, d => ∃ v, d = .variant "Paren" v ∧ e.Shape v
  | .table es, d => ∃ ds, d = .variant "Table" (.list ds) ∧ Expr.ShapeAll es ds

def Expr.ShapeAll : List Expr → List Data → Prop
  | [], ds => ds = []
  | e :: es, ds => ∃ d rest, ds = d :: rest ∧ e.Shape d ∧ Expr.ShapeAll es rest

end

def Call.Shape (i : Call) (d : Data) : Prop :=
  ∃ dc das, Holds ["callee", "arguments"] d [dc, .list das] ∧
    i.callee.Shape dc ∧ Expr.ShapeAll i.arguments das

/-- The data describe the expression, or are null where there is none. -/
def Expr.ShapeOpt : Option Expr → Data → Prop
  | none, d => d = .null
  | some e, d => e.Shape d

/-! ## Statements -/

def Declaration.Shape (decl : Declaration) (d : Data) : Prop :=
  ∃ dvs, Holds ["names", "values"] d [.list (decl.names.map .str), .list dvs] ∧
    Expr.ShapeAll decl.values dvs

mutual

def Stmt.Shape : Stmt → Data → Prop
  | .expr e, d => ∃ v, d = .variant "Expr" v ∧ e.Shape v
  | .local decl, d => ∃ v, d = .variant "Local" v ∧ decl.Shape v
  | .assign ts vs, d => ∃ v dts dvs,
    d = .variant "Assign" v ∧ Holds ["targets", "values"] v [.list dts, .list dvs] ∧
      Expr.ShapeAll ts dts ∧ Expr.ShapeAll vs dvs
  | .loop l, d => ∃ v, d = .variant "Loop" v ∧ l.Shape v
  | .do b, d => ∃ v, d = .variant "Do" v ∧ b.Shape v
  | .if c t none, d => ∃ v dc dt,
    d = .variant "If" v ∧ Holds ["condition", "then_block", "else_block"] v [dc, dt, .null] ∧
      c.Shape dc ∧ t.Shape dt
  | .if c t (some e), d => ∃ v dc dt de,
    d = .variant "If" v ∧ Holds ["condition", "then_block", "else_block"] v [dc, dt, de] ∧
      c.Shape dc ∧ t.Shape dt ∧ e.Shape de
  | .break, d => IsTag "Break" d
  | .return vs, d => ∃ ds, d = .variant "Return" (.list ds) ∧ Expr.ShapeAll vs ds

def Block.Shape : Block → Data → Prop
  | ⟨delimiters, ss⟩, d => ∃ dd dss,
    Holds ["delimiters", "statements"] d [dd, .list dss] ∧ IsTag delimiters.tag dd ∧
      Stmt.ShapeAll ss dss

def Loop.Shape : Loop → Data → Prop
  | .while c b, d => ∃ v dc db,
    d = .variant "While" v ∧ Holds ["condition", "body"] v [dc, db] ∧ c.Shape dc ∧ b.Shape db
  | .repeat b c, d => ∃ v db dc,
    d = .variant "Repeat" v ∧ Holds ["body", "condition"] v [db, dc] ∧ b.Shape db ∧ c.Shape dc
  | .forIn x s b, d => ∃ v ds db,
    d = .variant "ForIn" v ∧ Holds ["variable", "source", "body"] v [.str x, ds, db] ∧
      s.Shape ds ∧ b.Shape db
  | .numericFor x i l s b, d => ∃ v di dl ds db,
    d = .variant "NumericFor" v ∧
      Holds ["variable", "start", "limit", "step", "body"] v [.str x, di, dl, ds, db] ∧
      i.Shape di ∧ l.Shape dl ∧ Expr.ShapeOpt s ds ∧ b.Shape db

def Stmt.ShapeAll : List Stmt → List Data → Prop
  | [], ds => ds = []
  | s :: ss, ds => ∃ d rest, ds = d :: rest ∧ s.Shape d ∧ Stmt.ShapeAll ss rest

end

/-! ## What a tree is written as -/

mutual

theorem Expr.shape_toData : (e : Expr) → e.Shape e.toData
  | .nil => Data.isTag_str _
  | .bool _ | .int _ | .str _ | .ident _ => rfl
  | .member t _ => ⟨_, _, rfl, rfl, t.shape_toData⟩
  | .index t k => ⟨_, _, _, rfl, rfl, t.shape_toData, k.shape_toData⟩
  | .call c as =>
    ⟨_, _, _, rfl, Data.holds_record rfl, c.shape_toData, Expr.shapeAll_toDataAll as⟩
  | .binary op l r =>
    ⟨_, _, _, _, rfl, rfl, Data.isTag_str op.tag, l.shape_toData, r.shape_toData⟩
  | .unary op e => ⟨_, _, _, rfl, rfl, Data.isTag_str op.tag, e.shape_toData⟩
  | .paren e => ⟨_, rfl, e.shape_toData⟩
  | .table es => ⟨_, rfl, Expr.shapeAll_toDataAll es⟩

theorem Expr.shapeAll_toDataAll : (es : List Expr) → Expr.ShapeAll es (Expr.toDataAll es)
  | [] => rfl
  | e :: es => ⟨_, _, rfl, e.shape_toData, Expr.shapeAll_toDataAll es⟩

end

theorem Call.shape_toData (i : Call) : i.Shape i.toData :=
  ⟨_, _, Data.holds_record rfl, i.callee.shape_toData, Expr.shapeAll_toDataAll i.arguments⟩

theorem Expr.shapeOpt_elim (s : Option Expr) : Expr.ShapeOpt s (s.elim .null Expr.toData) := by
  cases s with
  | none => rfl
  | some e => exact e.shape_toData

theorem Declaration.shape_toData (decl : Declaration) : decl.Shape decl.toData :=
  ⟨_, Data.holds_record rfl, Expr.shapeAll_toDataAll decl.values⟩

mutual

theorem Stmt.shape_toData : (s : Stmt) → s.Shape s.toData
  | .expr e => ⟨_, rfl, e.shape_toData⟩
  | .local decl => ⟨_, rfl, decl.shape_toData⟩
  | .assign ts vs =>
    ⟨_, _, _, rfl, Data.holds_record rfl, Expr.shapeAll_toDataAll ts, Expr.shapeAll_toDataAll vs⟩
  | .loop l => ⟨_, rfl, l.shape_toData⟩
  | .do b => ⟨_, rfl, b.shape_toData⟩
  | .if c t none => ⟨_, _, _, rfl, Data.holds_record rfl, c.shape_toData, t.shape_toData⟩
  | .if c t (some e) =>
    ⟨_, _, _, _, rfl, Data.holds_record rfl, c.shape_toData, t.shape_toData, e.shape_toData⟩
  | .break => Data.isTag_str _
  | .return vs => ⟨_, rfl, Expr.shapeAll_toDataAll vs⟩

theorem Block.shape_toData : (b : Block) → b.Shape b.toData
  | ⟨d, ss⟩ => ⟨_, _, Data.holds_record rfl, Data.isTag_str d.tag, Stmt.shapeAll_toDataAll ss⟩

theorem Loop.shape_toData : (l : Loop) → l.Shape l.toData
  | .while c b => ⟨_, _, _, rfl, Data.holds_record rfl, c.shape_toData, b.shape_toData⟩
  | .repeat b c => ⟨_, _, _, rfl, Data.holds_record rfl, b.shape_toData, c.shape_toData⟩
  | .forIn _ s b => ⟨_, _, _, rfl, Data.holds_record rfl, s.shape_toData, b.shape_toData⟩
  | .numericFor _ i l s b =>
    ⟨_, _, _, _, _, rfl, Data.holds_record rfl, i.shape_toData, l.shape_toData,
      Expr.shapeOpt_elim s, b.shape_toData⟩

theorem Stmt.shapeAll_toDataAll : (ss : List Stmt) → Stmt.ShapeAll ss (Stmt.toDataAll ss)
  | [] => rfl
  | s :: ss => ⟨_, _, rfl, s.shape_toData, Stmt.shapeAll_toDataAll ss⟩

end

end LoopLowering
