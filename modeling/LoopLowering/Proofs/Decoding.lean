import LoopLowering.Proofs.Described

/- Decoding trees. Decoding checks the loop nodes of a tree at every depth and puts
   the delimiters of its kind around the body of each; it does nothing else to a
   tree. A `Codec` collects what is known of one kind of tree, so that both results
   are derived once for all kinds.

   * A tree is read back from what it is written as exactly when it is well-formed
     (`Codec.decode_encode_iff`).
   * Data that describe a tree are accepted exactly when its loop nodes obey the
     rule, and else the error describes one that does not (`Codec.validated`). -/
namespace LoopLowering

/-- How trees of one kind are written as data and read from data. -/
structure Codec (α : Type) where
  encode : α → Data
  decode : Data → Except DecodeError α
  Shape : α → Data → Prop
  loops : α → List Loop
  redelimited : α → α
  shape_encode (t : α) : Shape t (encode t)
  reads {t : α} {d : Data} : Shape t d → ReadsTo (loops t) (redelimited t) (decode d)
  loops_redelimited (t : α) : loops (redelimited t) = (loops t).map Loop.redelimited
  redelimited_eq_self {t : α} : WellFormed (loops t) → redelimited t = t

def Expr.codec : Codec Expr where
  encode := Expr.toData
  decode := Expr.ofData
  Shape := Expr.Shape
  loops _ := []
  redelimited := id
  shape_encode := Expr.shape_toData
  reads h := .pure (Expr.ofData_of_shape _ h)
  loops_redelimited _ := rfl
  redelimited_eq_self _ := rfl

def Stmt.codec : Codec Stmt where
  encode := Stmt.toData
  decode := Stmt.ofData
  Shape := Stmt.Shape
  loops := Stmt.loops
  redelimited := Stmt.redelimited
  shape_encode := Stmt.shape_toData
  reads h := Stmt.reads _ h
  loops_redelimited := Stmt.loops_redelimited
  redelimited_eq_self h := Stmt.redelimited_eq_self _ h

def Block.codec : Codec Block where
  encode := Block.toData
  decode := Block.ofData
  Shape := Block.Shape
  loops := Block.loops
  redelimited := Block.redelimited
  shape_encode := Block.shape_toData
  reads h := Block.reads _ h
  loops_redelimited := Block.loops_redelimited
  redelimited_eq_self h := Block.redelimited_eq_self _ h

def Loop.codec : Codec Loop where
  encode := Loop.toData
  decode := Loop.ofData
  Shape := Loop.Shape
  loops := Loop.loops
  redelimited := Loop.redelimited
  shape_encode := Loop.shape_toData
  reads h := Loop.reads _ h
  loops_redelimited := Loop.loops_redelimited
  redelimited_eq_self h := Loop.redelimited_eq_self _ h

/-! ## Round trips -/

namespace Codec

variable {α : Type} (c : Codec α) {t u : α} {d : Data}

theorem eq_of_decode (h : c.Shape t d) (hu : c.decode d = .ok u) :
    u = c.redelimited t ∧ WellFormed (c.loops u) := by
  have hr := c.reads h
  rw [hu] at hr
  cases hr with
  | ok hobeys =>
    refine ⟨rfl, ?_⟩
    rw [c.loops_redelimited]
    exact wellFormed_redelimited hobeys

theorem decode_of_obeys (h : c.Shape t d) (hobeys : ∀ l ∈ c.loops t, l.Obeys) :
    c.decode d = .ok (c.redelimited t) := by
  have hr := c.reads h
  generalize c.decode d = x at hr
  cases hr with
  | ok _ => rfl
  | fault hl he => exact absurd (hobeys _ hl) he.not_obeys

theorem decode_encode_iff (t : α) : c.decode (c.encode t) = .ok t ↔ WellFormed (c.loops t) := by
  constructor
  · intro h
    exact (c.eq_of_decode (c.shape_encode t) h).2
  · intro hwell
    have h := c.decode_of_obeys (c.shape_encode t) fun l hl => (hwell l hl).1
    rwa [c.redelimited_eq_self hwell] at h

end Codec

/-- **Trees are read back from their data.** An expression always is. A statement, a block or a loop
node is read back from what it is written as exactly when it is well-formed. -/
theorem data_read_back :
    (∀ e : Expr, Expr.ofData e.toData = .ok e) ∧
    (∀ s : Stmt, Stmt.ofData s.toData = .ok s ↔ WellFormed s.loops) ∧
    (∀ b : Block, Block.ofData b.toData = .ok b ↔ WellFormed b.loops) ∧
    ∀ l : Loop, Loop.ofData l.toData = .ok l ↔ WellFormed l.loops := by
  refine ⟨fun e => ?_, Stmt.codec.decode_encode_iff, Block.codec.decode_encode_iff,
    Loop.codec.decode_encode_iff⟩
  exact e.ofData_of_shape e.shape_toData

/-! ## Validation -/

/-- Data that describe the tree `t` are decoded as they should be.

* They are accepted exactly when every loop node of `t` obeys the rule.
* What they are decoded as is `t` with the delimiters of its kind around the body of every loop. It
  is well-formed: a `for … in` loop in it has its collection, whatever is done to the body later. It
  is decoded again from what it is written as.
* If they are refused, the error describes a loop node of `t` that breaks the rule. -/
structure Validated {α : Type} (decode : Data → Except DecodeError α) (encode : α → Data)
    (loops : α → List Loop) (redelimited : α → α) (d : Data) (t : α) : Prop where
  accepted_iff : (∃ u, decode d = .ok u) ↔ ∀ l ∈ loops t, l.Obeys
  result {u : α} : decode d = .ok u → u = redelimited t
  wellFormed {u : α} : decode d = .ok u → WellFormed (loops u)
  iterable {u : α} : decode d = .ok u → ∀ l ∈ loops u, l.kind = .forIn →
    ∃ e, ∀ f, (l.mapBody f).iterable? = some e
  again {u : α} : decode d = .ok u → decode (encode u) = .ok u
  fault {err : DecodeError} : decode d = .error err →
    ∃ l ∈ loops t, ∃ e, l.Violates e ∧ err = .loop e ∧
      e ≠ .invalidCondition ∧ e ≠ .missingPart .repeatCondition

theorem Loop.Violates.ne {l : Loop} {e : BuildError} (h : l.Violates e) :
    e ≠ .invalidCondition ∧ e ≠ .missingPart .repeatCondition := by
  cases h <;> exact ⟨nofun, nofun⟩

theorem Codec.validated {α : Type} (c : Codec α) {t : α} {d : Data} (h : c.Shape t d) :
    Validated c.decode c.encode c.loops c.redelimited d t where
  accepted_iff := by
    constructor
    · rintro ⟨u, hu⟩ l hl
      obtain ⟨rfl, hwell⟩ := c.eq_of_decode h hu
      rw [c.loops_redelimited] at hwell
      exact l.obeys_redelimited.mp (hwell _ (List.mem_map_of_mem hl)).1
    · exact fun hobeys => ⟨_, c.decode_of_obeys h hobeys⟩
  result hu := (c.eq_of_decode h hu).1
  wellFormed hu := (c.eq_of_decode h hu).2
  iterable hu l hl hk := ((c.eq_of_decode h hu).2 l hl).1.iterable hk
  again hu := (c.decode_encode_iff _).mpr (c.eq_of_decode h hu).2
  fault herr := by
    have hr := c.reads h
    rw [herr] at hr
    cases hr with
    | fault hl he => exact ⟨_, hl, _, he, rfl, he.ne⟩

/-- **Decoding validates and redelimits loop nodes at every depth.** Data that describe an
expression, a statement, a block or a loop node are decoded as they should be, and no other data are
accepted. -/
theorem decoding_validates :
    (∀ (e : Expr) (d : Data), e.Shape d →
      Validated Expr.ofData Expr.toData (fun _ => []) id d e) ∧
    (∀ (s : Stmt) (d : Data), s.Shape d →
      Validated Stmt.ofData Stmt.toData Stmt.loops Stmt.redelimited d s) ∧
    (∀ (b : Block) (d : Data), b.Shape d →
      Validated Block.ofData Block.toData Block.loops Block.redelimited d b) ∧
    (∀ (l : Loop) (d : Data), l.Shape d →
      Validated Loop.ofData Loop.toData Loop.loops Loop.redelimited d l) ∧
    ∀ d : Data,
      (∀ u, Expr.ofData d = .ok u → ∃ e : Expr, e.Shape d) ∧
      (∀ u, Stmt.ofData d = .ok u → ∃ s : Stmt, s.Shape d) ∧
      (∀ u, Block.ofData d = .ok u → ∃ b : Block, b.Shape d) ∧
      ∀ u, Loop.ofData d = .ok u → ∃ l : Loop, l.Shape d := by
  refine ⟨fun e d h => Expr.codec.validated h, fun s d h => Stmt.codec.validated h,
    fun b d h => Block.codec.validated h, fun l d h => Loop.codec.validated h, fun d => ?_⟩
  exact ⟨fun u hu => ⟨u, Expr.shape_of_ofData d u hu⟩, Stmt.described d, Block.described d,
    Loop.described d⟩

/-- A `for … in` loop in the body of a `while` loop, which stands between the wrong delimiters. -/
def nestedLoop (x : String) : Loop :=
  .while (.bool true) ⟨.bare, [.loop (.forIn x ⟨.ident "pairs", [.nil]⟩ ⟨.doEnd, []⟩)]⟩

/-- Data that describe `nestedLoop`, by position and by name, with a field that counts for
nothing. -/
def nestedLoopData (x : String) : Data :=
  .variant "While" (.list [.variant "Bool" (.bool true),
    .record [("statements", .list [.variant "Loop" (.variant "ForIn"
        (.record [("source", .list [.variant "Ident" (.str "pairs"), .list [.variant "Nil" .null]]),
          ("comment", .int 7), ("variable", .str x), ("body", .list [.str "DoEnd", .list []])]))]),
      ("delimiters", .variant "Bare" .null)]])

theorem nestedLoop_shape (x : String) :
    (nestedLoop x).Shape (nestedLoopData x) := by
  have hsource : Call.Shape ⟨.ident "pairs", [.nil]⟩
      (.list [.variant "Ident" (.str "pairs"), .list [.variant "Nil" .null]]) :=
    ⟨_, _, .inr rfl, rfl, _, _, rfl, .inr rfl, rfl⟩
  have hbody : Block.Shape ⟨.doEnd, []⟩ (.list [.str "DoEnd", .list []]) :=
    ⟨_, _, .inr rfl, .inl rfl, rfl⟩
  refine ⟨_, _, _, rfl, .inr rfl, rfl, _, _, Data.holds_record rfl, .inr rfl, _, _, rfl, ?_, rfl⟩
  exact ⟨_, rfl, _, _, _, rfl, Data.holds_record rfl, hsource, hbody⟩

theorem decoding_validates_nestedLoop :
    (∃ u, Loop.ofData (nestedLoopData "x") = .ok u ∧ u = (nestedLoop "x").redelimited ∧
      WellFormed u.loops ∧ Loop.ofData u.toData = .ok u) ∧
    (¬∃ u, Loop.ofData (nestedLoopData "") = .ok u) ∧
    (∃ u, Stmt.ofData (.variant "Loop" (nestedLoopData "x")) = .ok u) ∧
    (∃ u, Block.ofData (.list [.str "DoEnd", .list []]) = .ok u) ∧
    ∃ u, Expr.ofData (.variant "Nil" .null) = .ok u := by
  obtain ⟨hexpr, hstmt, hblock, hloop, _⟩ := decoding_validates
  have haccepted := hloop _ _ (nestedLoop_shape "x")
  have hrefused := hloop _ _ (nestedLoop_shape "")
  obtain ⟨u, hu⟩ := haccepted.accepted_iff.mpr (by decide)
  refine ⟨⟨u, hu, haccepted.result hu, haccepted.wellFormed hu, haccepted.again hu⟩, ?_, ?_, ?_, ?_⟩
  · exact fun h => absurd (hrefused.accepted_iff.mp h) (by decide)
  · exact (hstmt (.loop (nestedLoop "x")) _ ⟨_, rfl, nestedLoop_shape "x"⟩).accepted_iff.mpr
      (by decide)
  · exact (hblock ⟨.doEnd, []⟩ _ ⟨_, _, .inr rfl, .inl rfl, rfl⟩).accepted_iff.mpr (by decide)
  · exact (hexpr .nil _ (.inr rfl)).accepted_iff.mpr (by decide)

end LoopLowering
