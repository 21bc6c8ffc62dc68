import LoopLowering.Data.Decode
import LoopLowering.Proofs.LoopNodes
import LoopLowering.Proofs.Shapes

/- Reading data that describe a tree. `ReadsTo nodes a x` says what a reading `x` of
   data comes to when the data describe a tree with the given loop nodes: the result
   `a` when all nodes obey the rule, and otherwise an error that describes one of
   them. Readings are put together part by part (`ReadsTo.bind`, `ReadsTo.field`), in
   whatever order the parts are read.

   * Expressions have no loop nodes, so data that describe one are read as it
     (`Expr.ofData_of_shape`).
   * Data that describe a statement, a block or a loop node are read as the
     redelimited tree or fail at one of its nodes (`Stmt.reads`, `Block.reads`,
     `Loop.reads`). -/
namespace LoopLowering

open Data (IsTag named Holds read? readAt require requireLength unlessNull)

/-! ## Fields -/

namespace Data

theorem read?_eq {α : Type} (fields : List (String × Data)) (key : String)
    (f : Data → Except DecodeError α) :
    read? fields key (fun x _ => f x) =
      (fields.lookup key).elim (.ok none) (fun d => (f d).map some) := by
  have hfield : (field? fields key).map Subtype.val = fields.lookup key := by
    induction fields with
    | nil => rfl
    | cons entry rest ih =>
      obtain ⟨k, d⟩ := entry
      by_cases hk : k = key
      · subst hk
        simp [field?]
      · have hne : (key == k) = false := by simp [Ne.symm hk]
        rw [List.lookup_cons, hne, ← ih]
        simp [field?, hk, Function.comp_def]
  rw [← hfield, read?]
  cases field? fields key with
  | none => rfl
  | some x => rfl

/-- A field that is not null is read with the reader. -/
theorem read?_of_named {α : Type} {fields : List (String × Data)} {key : String} {d : Data}
    (h : (fields.lookup key).getD .null = d) (hd : d ≠ .null) (f : Data → Except DecodeError α) :
    read? fields key (fun x _ => f x) = (f d).map some := by
  rw [read?_eq]
  cases hl : fields.lookup key with
  | none => rw [hl] at h; exact absurd h.symm hd
  | some d' => rw [hl] at h; subst h; rfl

/-- An optional field that is null or not there is read as nothing. -/
theorem read?_of_null {α : Type} {fields : List (String × Data)} {key : String}
    (h : (fields.lookup key).getD .null = .null) (f : Data → Except DecodeError α) :
    ∃ o, read? fields key (fun x _ => unlessNull x (f x)) = .ok o ∧ o.join = none := by
  rw [read?_eq]
  cases hl : fields.lookup key with
  | none => exact ⟨none, rfl, rfl⟩
  | some d => rw [hl] at h; subst h; exact ⟨some none, rfl, rfl⟩

theorem unlessNull_of_ne {α : Type} {d : Data} (hd : d ≠ .null) (r : Except DecodeError α) :
    unlessNull d r = r.map some := by
  cases d with
  | null => exact absurd rfl hd
  | bool _ | int _ | decimal | str _ | list _ | record _ => rfl

@[simp] theorem readAt_zero {α : Type} (d : Data) (ds : List Data)
    (f : Data → Except DecodeError α) : readAt (d :: ds) 0 (fun x _ => f x) = f d := rfl

@[simp] theorem readAt_succ {α : Type} (d : Data) (ds : List Data) (i : Nat)
    (f : Data → Except DecodeError α) :
    readAt (d :: ds) (i + 1) (fun x _ => f x) = readAt ds i (fun x _ => f x) := by
  simp [readAt]

theorem str_ne_null (text : String) : Data.str text ≠ .null := by
  simp

theorem list_ne_null (items : List Data) : Data.list items ≠ .null := by
  simp

theorem IsTag.ne_null {tag : String} {d : Data} (h : IsTag tag d) : d ≠ .null := by
  rcases h with rfl | rfl
  · exact str_ne_null tag
  · simp [variant]

theorem Holds.ne_null {names : List String} {d : Data} {contents : List Data}
    (h : Holds names d contents) : d ≠ .null := by
  rcases h with ⟨fields, rfl, -⟩ | rfl
  · simp
  · exact list_ne_null contents

end Data

theorem Expr.Shape.ne_null {e : Expr} {d : Data} (h : e.Shape d) : d ≠ .null := by
  rintro rfl
  cases e <;> simp [Expr.Shape, Data.variant, IsTag] at h

theorem BinaryOp.ofData_of_isTag {op : BinaryOp} {d : Data} (h : IsTag op.tag d) :
    BinaryOp.ofData d = .ok op := by
  rcases h with rfl | rfl <;> cases op <;> rfl

theorem UnaryOp.ofData_of_isTag {op : UnaryOp} {d : Data} (h : IsTag op.tag d) :
    UnaryOp.ofData d = .ok op := by
  rcases h with rfl | rfl <;> cases op <;> rfl

theorem Delimiters.ofData_of_isTag {delimiters : Delimiters} {d : Data}
    (h : IsTag delimiters.tag d) : Delimiters.ofData d = .ok delimiters := by
  rcases h with rfl | rfl <;> cases delimiters <;> rfl

theorem Call.ofData_of_parts {i : Call} {d dc : Data} {das : List Data}
    (hd : Holds ["callee", "arguments"] d [dc, .list das]) (hn : dc ≠ .null)
    (hc : Expr.ofData dc = .ok i.callee) (has : Expr.allOfData das = .ok i.arguments) :
    Call.ofData d = .ok i := by
  rcases hd with ⟨fields, rfl, hf⟩ | rfl
  · simp only [named, List.map, List.cons.injEq, and_true] at hf
    rw [Call.ofData, Data.read?_of_named hf.2 (Data.list_ne_null _),
      Data.read?_of_named hf.1 hn, hc, Expr.listOfData, has]
    rfl
  · rw [Call.ofData, Data.readAt_zero, Data.readAt_succ, Data.readAt_zero, hc, Expr.listOfData, has]
    rfl

/-! ## Expressions and declarations -/

mutual

theorem Expr.ofData_of_shape : (e : Expr) → {d : Data} → e.Shape d → Expr.ofData d = .ok e
  | .nil, _, h => by
    rcases h with rfl | rfl
    · rw [Expr.ofData]; rfl
    · rw [Data.variant, Expr.ofData]
  | .bool b, _, h | .str s, _, h | .ident x, _, h => by
    cases h
    rw [Data.variant, Expr.ofData]
    rfl
  | .int n, _, h => by
    cases h
    rw [Data.variant, Expr.ofData, Data.toWord, toWord?_toInt]
    rfl
  | .member t x, _, h => by
    obtain ⟨fields, dt, rfl, hn, ht⟩ := h
    simp only [named, List.map, List.cons.injEq, and_true] at hn
    rw [Data.variant, Expr.ofData, Data.read?_of_named hn.2 (Data.str_ne_null _),
      Data.read?_of_named hn.1 ht.ne_null, t.ofData_of_shape ht]
    rfl
  | .index t k, _, h => by
    obtain ⟨fields, dt, dk, rfl, hn, ht, hk⟩ := h
    simp only [named, List.map, List.cons.injEq, and_true] at hn
    rw [Data.variant, Expr.ofData, Data.read?_of_named hn.2 hk.ne_null,
      Data.read?_of_named hn.1 ht.ne_null, t.ofData_of_shape ht, k.ofData_of_shape hk]
    rfl
  | .call c as, _, h => by
    obtain ⟨v, dc, das, rfl, hv, hc, has⟩ := h
    have hi : Call.ofData v = .ok ⟨c, as⟩ :=
      Call.ofData_of_parts hv hc.ne_null (c.ofData_of_shape hc) (Expr.allOfData_of_shape as has)
    rw [Data.variant, Expr.ofData, hi]
    rfl
  | .binary op l r, _, h => by
    obtain ⟨fields, dop, dl, dr, rfl, hn, hop, hl, hr⟩ := h
    simp only [named, List.map, List.cons.injEq, and_true] at hn
    rw [Data.variant, Expr.ofData, Data.read?_of_named hn.2.1 hl.ne_null,
      Data.read?_of_named hn.1 hop.ne_null, Data.read?_of_named hn.2.2 hr.ne_null,
      l.ofData_of_shape hl, BinaryOp.ofData_of_isTag hop, r.ofData_of_shape hr]
    rfl
  | .unary op e, _, h => by
    obtain ⟨fields, dop, de, rfl, hn, hop, he⟩ := h
    simp only [named, List.map, List.cons.injEq, and_true] at hn
    rw [Data.variant, Expr.ofData, Data.read?_of_named hn.1 hop.ne_null,
      Data.read?_of_named hn.2 he.ne_null, UnaryOp.ofData_of_isTag hop, e.ofData_of_shape he]
    rfl
  | .paren e, _, h => by
    obtain ⟨v, rfl, he⟩ := h
    rw [Data.variant, Expr.ofData, e.ofData_of_shape he]
    rfl
  | .table es, _, h => by
    obtain ⟨ds, rfl, hes⟩ := h
    rw [Data.variant, Expr.ofData, Expr.listOfData, Expr.allOfData_of_shape es hes]
    rfl

theorem Expr.allOfData_of_shape :
    (es : List Expr) → {ds : List Data} → Expr.ShapeAll es ds → Expr.allOfData ds = .ok es
  | [], _, h => by
    cases h
    rw [Expr.allOfData]
  | e :: es, _, h => by
    obtain ⟨d, rest, rfl, he, hes⟩ := h
    rw [Expr.allOfData, e.ofData_of_shape he, Expr.allOfData_of_shape es hes]
    rfl

end

theorem Call.ofData_of_shape (i : Call) {d : Data} (h : i.Shape d) : Call.ofData d = .ok i := by
  obtain ⟨dc, das, hd, hc, has⟩ := h
  exact Call.ofData_of_parts hd hc.ne_null (i.callee.ofData_of_shape hc)
    (Expr.allOfData_of_shape i.arguments has)

theorem Declaration.ofData_of_shape (decl : Declaration) {d : Data} (h : decl.Shape d) :
    Declaration.ofData d = .ok decl := by
  obtain ⟨dvs, hd, hvs⟩ := h
  have hnames : Data.toTexts (.list (decl.names.map .str)) = .ok decl.names := by
    show (decl.names.map Data.str).mapM Data.toText = _
    induction decl.names with
    | nil => rfl
    | cons x xs ih => rw [List.map_cons, List.mapM_cons, ih]; rfl
  have hvalues := Expr.allOfData_of_shape decl.values hvs
  rcases hd with ⟨fields, rfl, hf⟩ | rfl
  · simp only [named, List.map, List.cons.injEq, and_true] at hf
    rw [Declaration.ofData, Data.read?_of_named hf.1 (Data.list_ne_null _),
      Data.read?_of_named hf.2 (Data.list_ne_null _), hnames, Expr.listOfData, hvalues]
    rfl
  · rw [Declaration.ofData, Data.readAt_zero, Data.readAt_succ, Data.readAt_zero, hnames,
      Expr.listOfData, hvalues]
    rfl

theorem Expr.read?_of_shapeOpt {s : Option Expr} {fields : List (String × Data)} {key : String}
    {d : Data} (h : (fields.lookup key).getD .null = d) (hs : Expr.ShapeOpt s d) :
    ∃ o, read? fields key (fun x _ => unlessNull x (Expr.ofData x)) = .ok o ∧ o.join = s := by
  cases s with
  | none =>
    cases hs
    exact Data.read?_of_null h Expr.ofData
  | some e =>
    have hd : d ≠ .null := Expr.Shape.ne_null hs
    refine ⟨some (some e), ?_, rfl⟩
    rw [Data.read?_of_named h hd fun x => unlessNull x (Expr.ofData x),
      Data.unlessNull_of_ne hd, e.ofData_of_shape hs]
    rfl

theorem Expr.unlessNull_of_shapeOpt {s : Option Expr} {d : Data} (hs : Expr.ShapeOpt s d) :
    unlessNull d (Expr.ofData d) = .ok s := by
  cases s with
  | none => cases hs; rfl
  | some e =>
    rw [Data.unlessNull_of_ne (Expr.Shape.ne_null hs), e.ofData_of_shape hs]
    rfl

/-! ## Readings -/

/-- Reading data that describe a tree with the given loop nodes: it gives `a` when all nodes obey the
rule, and else an error that describes one of them. -/
inductive ReadsTo {α : Type} (nodes : List Loop) (a : α) : Except DecodeError α → Prop where
  | ok : (∀ l ∈ nodes, l.Obeys) → ReadsTo nodes a (.ok a)
  | fault {l : Loop} {e : BuildError} :
    l ∈ nodes → l.Violates e → ReadsTo nodes a (.error (.loop e))

namespace ReadsTo

variable {α β : Type} {nodes nodes' : List Loop} {a : α} {b : β} {x : Except DecodeError α}
  {f : α → Except DecodeError β}

theorem of_mem_iff (h : ReadsTo nodes a x) (hn : ∀ l, l ∈ nodes ↔ l ∈ nodes') :
    ReadsTo nodes' a x := by
  cases h with
  | ok hobeys => exact .ok fun l hl => hobeys l ((hn l).mpr hl)
  | fault hl he => exact .fault ((hn _).mp hl) he

theorem swap (h : ReadsTo (nodes ++ nodes') a x) : ReadsTo (nodes' ++ nodes) a x :=
  h.of_mem_iff fun l => by rw [List.mem_append, List.mem_append, or_comm]

theorem pure (h : x = .ok a) : ReadsTo [] a x := by
  rw [h]
  exact .ok fun l hl => absurd hl List.not_mem_nil

theorem bind (hx : ReadsTo nodes a x) (hf : ReadsTo nodes' b (f a)) :
    ReadsTo (nodes ++ nodes') b (x >>= f) := by
  cases hx with
  | ok hobeys =>
    show ReadsTo (nodes ++ nodes') b (f a)
    generalize f a = y at hf
    cases hf with
    | ok hobeys' => exact .ok (List.forall_mem_append.mpr ⟨hobeys, hobeys'⟩)
    | fault hl he => exact .fault (List.mem_append_right _ hl) he
  | fault hl he => exact .fault (List.mem_append_left _ hl) he

theorem last (hx : ReadsTo nodes a x) (hf : f a = .ok b) : ReadsTo nodes b (x >>= f) := by
  cases hx with
  | ok hobeys =>
    show ReadsTo nodes b (f a)
    rw [hf]
    exact .ok hobeys
  | fault hl he => exact .fault hl he

theorem map (hx : ReadsTo nodes a x) (g : α → β) : ReadsTo nodes (g a) (x.map g) := by
  cases hx with
  | ok hobeys => exact .ok hobeys
  | fault hl he => exact .fault hl he

theorem field {fields : List (String × Data)} {key : String} {d : Data}
    {r : Data → Except DecodeError α} (hr : ReadsTo nodes a (r d))
    (h : (fields.lookup key).getD .null = d) (hd : d ≠ .null) :
    ReadsTo nodes (some a) (read? fields key fun x _ => r x) := by
  rw [Data.read?_of_named h hd]
  exact hr.map some

theorem unlessNull {d : Data} {r : Except DecodeError α} (hr : ReadsTo nodes a r) (hd : d ≠ .null) :
    ReadsTo nodes (some a) (Data.unlessNull d r) := by
  rw [Data.unlessNull_of_ne hd]
  exact hr.map some

end ReadsTo

theorem Loop.checked_reads (l : Loop) :
    ReadsTo [l] l.redelimited (Loop.checked (l.mapBody Block.redelimited)) := by
  unfold Loop.checked
  rcases (l.mapBody Block.redelimited).validate_cases with ⟨hobeys, hv⟩ | ⟨e, he, hv⟩
  · rw [hv, l.redelimited_eq]
    exact .ok (List.forall_mem_singleton.mpr ((Loop.obeys_mapBody _ l).mp hobeys))
  · rw [hv]
    exact .fault (List.mem_singleton_self l) (Loop.violates_mapBody he)

/-- A loop node is checked after its body has been read. -/
theorem ReadsTo.node {l : Loop} {m : Loop} {x : Except DecodeError Loop}
    (h : ReadsTo (l.body.loops ++ [l]) m x) : ReadsTo l.loops m x := by
  rw [l.loops_eq]
  exact h.swap

theorem Block.Shape.ne_null {b : Block} {d : Data} (h : b.Shape d) : d ≠ .null := by
  obtain ⟨delimiters, ss⟩ := b
  obtain ⟨dd, dss, hd, -⟩ := h
  exact hd.ne_null

theorem Call.Shape.ne_null {i : Call} {d : Data} (h : i.Shape d) : d ≠ .null := by
  obtain ⟨dc, das, hd, -⟩ := h
  exact hd.ne_null

/-! ## Statements -/

mutual

/-- Data that describe a statement are read as the redelimited statement, unless one of its loop nodes
breaks the rule. -/
theorem Stmt.reads :
    (s : Stmt) → {d : Data} → s.Shape d → ReadsTo s.loops s.redelimited (Stmt.ofData d)
  | .expr e, _, h => by
    obtain ⟨v, rfl, he⟩ := h
    rw [Data.variant, Stmt.ofData, e.ofData_of_shape he]
    exact .pure rfl
  | .local decl, _, h => by
    obtain ⟨v, rfl, hdecl⟩ := h
    rw [Data.variant, Stmt.ofData, decl.ofData_of_shape hdecl]
    exact .pure rfl
  | .assign ts vs, _, h => by
    obtain ⟨v, dts, dvs, rfl, hv, hts, hvs⟩ := h
    have hts := Expr.allOfData_of_shape ts hts
    have hvs := Expr.allOfData_of_shape vs hvs
    rcases hv with ⟨fields, rfl, hf⟩ | rfl
    · simp only [named, List.map, List.cons.injEq, and_true] at hf
      rw [Data.variant, Stmt.ofData, Data.read?_of_named hf.1 (Data.list_ne_null _),
        Data.read?_of_named hf.2 (Data.list_ne_null _), Expr.listOfData, Expr.listOfData, hts, hvs]
      exact .pure rfl
    · rw [Data.variant, Stmt.ofData, Data.readAt_zero, Data.readAt_succ, Data.readAt_zero,
        Expr.listOfData, Expr.listOfData, hts, hvs]
      exact .pure rfl
  | .loop l, _, h => by
    obtain ⟨v, rfl, hl⟩ := h
    rw [Data.variant, Stmt.ofData]
    exact (l.reads hl).last rfl
  | .do b, _, h => by
    obtain ⟨v, rfl, hb⟩ := h
    rw [Data.variant, Stmt.ofData]
    exact (b.reads hb).last rfl
  | .if c t none, _, h => by
    obtain ⟨v, dc, dt, rfl, hv, hc, ht⟩ := h
    have hcond := c.ofData_of_shape hc
    have hthen := t.reads ht
    rcases hv with ⟨fields, rfl, hf⟩ | rfl
    · simp only [named, List.map, List.cons.injEq, and_true] at hf
      obtain ⟨o, ho, hnone⟩ := Data.read?_of_null hf.2.2 Block.ofData
      rw [Data.variant, Stmt.ofData, Data.read?_of_named hf.1 hc.ne_null, hcond, ho]
      refine (hthen.field hf.2.1 ht.ne_null).last ?_
      rw [hnone]
      rfl
    · rw [Data.variant, Stmt.ofData, Data.readAt_zero, hcond]
      exact hthen.last rfl
  | .if c t (some e), _, h => by
    obtain ⟨v, dc, dt, de, rfl, hv, hc, ht, he⟩ := h
    have hcond := c.ofData_of_shape hc
    have hthen := t.reads ht
    have helse := (e.reads he).unlessNull he.ne_null
    rcases hv with ⟨fields, rfl, hf⟩ | rfl
    · simp only [named, List.map, List.cons.injEq, and_true] at hf
      rw [Data.variant, Stmt.ofData, Data.read?_of_named hf.1 hc.ne_null, hcond]
      refine ((helse.field hf.2.2 he.ne_null).bind ((hthen.field hf.2.1 ht.ne_null).last ?_)).swap
      rfl
    · rw [Data.variant, Stmt.ofData, Data.readAt_zero, hcond]
      exact hthen.bind (helse.last rfl)
  | .break, _, h => by
    rcases h with rfl | rfl
    · rw [Stmt.ofData]
      exact .pure rfl
    · rw [Data.variant, Stmt.ofData]
      exact .pure rfl
  | .return vs, _, h => by
    obtain ⟨ds, rfl, hvs⟩ := h
    rw [Data.variant, Stmt.ofData, Expr.listOfData, Expr.allOfData_of_shape vs hvs]
    exact .pure rfl

theorem Block.reads :
    (b : Block) → {d : Data} → b.Shape d → ReadsTo b.loops b.redelimited (Block.ofData d)
  | ⟨delimiters, ss⟩, _, h => by
    obtain ⟨dd, dss, hd, htag, hss⟩ := h
    have hdelimiters := Delimiters.ofData_of_isTag htag
    have hstatements := Stmt.readsAll ss hss
    rcases hd with ⟨fields, rfl, hf⟩ | rfl
    · simp only [named, List.map, List.cons.injEq, and_true] at hf
      rw [Block.ofData, Data.read?_of_named hf.1 htag.ne_null, hdelimiters,
        Data.read?_of_named hf.2 (Data.list_ne_null _), Stmt.listOfData]
      exact (hstatements.map some).last rfl
    · rw [Block.ofData, Data.readAt_zero, hdelimiters, Data.readAt_succ, Data.readAt_zero,
        Stmt.listOfData]
      exact hstatements.last rfl

theorem Loop.reads :
    (l : Loop) → {d : Data} → l.Shape d → ReadsTo l.loops l.redelimited (Loop.ofData d)
  | .while c b, _, h => by
    obtain ⟨v, dc, db, rfl, hv, hc, hb⟩ := h
    have hcond := c.ofData_of_shape hc
    have hbody := b.reads hb
    have hnode := (Loop.while c b).checked_reads
    rcases hv with ⟨fields, rfl, hf⟩ | rfl
    · simp only [named, List.map, List.cons.injEq, and_true] at hf
      rw [Data.variant, Loop.ofData, Data.read?_of_named hf.1 hc.ne_null, hcond]
      exact .node ((hbody.field hf.2 hb.ne_null).bind hnode)
    · rw [Data.variant, Loop.ofData, Data.readAt_zero, hcond]
      exact .node (hbody.bind hnode)
  | .repeat b c, _, h => by
    obtain ⟨v, db, dc, rfl, hv, hb, hc⟩ := h
    have hcond := c.ofData_of_shape hc
    have hbody := b.reads hb
    have hnode := (Loop.repeat b c).checked_reads
    rcases hv with ⟨fields, rfl, hf⟩ | rfl
    · simp only [named, List.map, List.cons.injEq, and_true] at hf
      rw [Data.variant, Loop.ofData, Data.read?_of_named hf.2 hc.ne_null, hcond]
      exact .node ((hbody.field hf.1 hb.ne_null).bind hnode)
    · rw [Data.variant, Loop.ofData, Data.readAt_succ, Data.readAt_zero, Data.readAt_zero, hcond]
      exact .node (hbody.bind hnode)
  | .forIn x s b, _, h => by
    obtain ⟨v, ds, db, rfl, hv, hs, hb⟩ := h
    have hsource := s.ofData_of_shape hs
    have hbody := b.reads hb
    have hnode := (Loop.forIn x s b).checked_reads
    rcases hv with ⟨fields, rfl, hf⟩ | rfl
    · simp only [named, List.map, List.cons.injEq, and_true] at hf
      rw [Data.variant, Loop.ofData, Data.read?_of_named hf.2.1 hs.ne_null,
        Data.read?_of_named hf.1 (Data.str_ne_null _), hsource]
      exact .node ((hbody.field hf.2.2 hb.ne_null).bind hnode)
    · rw [Data.variant, Loop.ofData]
      simp only [Data.readAt_zero, Data.readAt_succ, hsource]
      exact .node (hbody.bind hnode)
  | .numericFor x i l s b, _, h => by
    obtain ⟨v, di, dl, ds, db, rfl, hv, hi, hl, hs, hb⟩ := h
    have hstart := i.ofData_of_shape hi
    have hlimit := l.ofData_of_shape hl
    have hbody := b.reads hb
    have hnode := (Loop.numericFor x i l s b).checked_reads
    rcases hv with ⟨fields, rfl, hf⟩ | rfl
    · simp only [named, List.map, List.cons.injEq, and_true] at hf
      obtain ⟨o, ho, hstep⟩ := Expr.read?_of_shapeOpt hf.2.2.2.1 hs
      rw [Data.variant, Loop.ofData, Data.read?_of_named hf.2.1 hi.ne_null,
        Data.read?_of_named hf.2.2.1 hl.ne_null, Data.read?_of_named hf.1 (Data.str_ne_null _), ho,
        hstart, hlimit]
      subst hstep
      exact .node ((hbody.field hf.2.2.2.2 hb.ne_null).bind hnode)
    · have hstep := Expr.unlessNull_of_shapeOpt hs
      rw [Data.variant, Loop.ofData]
      simp only [Data.readAt_zero, Data.readAt_succ, hstart, hlimit, hstep]
      exact .node (hbody.bind hnode)

theorem Stmt.readsAll : (ss : List Stmt) → {ds : List Data} → Stmt.ShapeAll ss ds →
    ReadsTo (Stmt.loopsAll ss) (Stmt.redelimitedAll ss) (Stmt.allOfData ds)
  | [], _, h => by
    cases h
    rw [Stmt.allOfData]
    exact .pure rfl
  | s :: ss, _, h => by
    obtain ⟨d, rest, rfl, hs, hss⟩ := h
    rw [Stmt.allOfData]
    exact (s.reads hs).bind ((Stmt.readsAll ss hss).last rfl)

end

end LoopLowering
