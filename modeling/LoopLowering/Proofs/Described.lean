import Mathlib.Data.List.Basic
import LoopLowering.Proofs.Reading

/- Data that were read. A reading that succeeds is taken apart: it has read every
   part that it is put together from (`Data.named_two`, `Data.named_optional`). So
   data that are read as an expression describe it (`Expr.shape_of_ofData`), and data
   that are read as a statement, a block or a loop node describe one
   (`Stmt.described`, `Block.described`, `Loop.described`). Nothing that has no shape
   is ever accepted. -/
namespace LoopLowering

open Data (IsTag named Holds read? readAt require requireLength unlessNull)

/-! ## Fields and tags -/

theorem bind_eq_ok_iff {ε α β : Type} {x : Except ε α} {f : α → Except ε β} {b : β} :
    (x >>= f) = .ok b ↔ ∃ a, x = .ok a ∧ f a = .ok b := by
  cases x with
  | error e => exact ⟨nofun, nofun⟩
  | ok a => exact ⟨fun h => ⟨a, rfl, h⟩, fun ⟨_, rfl, h⟩ => h⟩

theorem map_eq_ok_iff {ε α β : Type} {x : Except ε α} {g : α → β} {b : β} :
    x.map g = .ok b ↔ ∃ a, x = .ok a ∧ g a = b := by
  cases x with
  | error e => exact ⟨nofun, nofun⟩
  | ok a => simp [Except.map]

theorem pure_eq_ok_iff {ε α : Type} {a b : α} : (pure a : Except ε α) = .ok b ↔ a = b :=
  Except.ok.injEq a b ▸ Iff.rfl

namespace Data

theorem require_eq_ok_iff {α : Type} {o : Option α} {a : α} : require o = .ok a ↔ o = some a := by
  cases o with
  | none => exact ⟨nofun, nofun⟩
  | some b => simp [require]

theorem requireLength_eq_ok_iff {items : List Data} {n : Nat} {u : Unit} :
    requireLength items n = .ok u ↔ items.length = n := by
  unfold requireLength
  split <;> simp [*]

theorem sizeOf_lt_of_lookup {fields : List (String × Data)} {key : String} {d : Data}
    (h : fields.lookup key = some d) : sizeOf d < sizeOf fields := by
  induction fields with
  | nil => cases h
  | cons entry rest ih =>
    obtain ⟨k, d'⟩ := entry
    rw [List.lookup_cons] at h
    simp only [List.cons.sizeOf_spec, Prod.mk.sizeOf_spec]
    cases hk : key == k with
    | true => rw [hk] at h; cases h; omega
    | false => rw [hk] at h; have := ih h; omega

/-- A field that was read is there, and the reader has read it. -/
theorem read?_eq_some {α : Type} {fields : List (String × Data)} {key : String} {a : α}
    {f : Data → Except DecodeError α} (h : read? fields key (fun x _ => f x) = .ok (some a)) :
    ∃ d, (fields.lookup key).getD .null = d ∧ f d = .ok a ∧ sizeOf d < sizeOf fields := by
  rw [read?_eq] at h
  cases hl : fields.lookup key with
  | none => rw [hl] at h; cases h
  | some d =>
    rw [hl] at h
    obtain ⟨a', ha, heq⟩ := map_eq_ok_iff.mp h
    cases heq
    exact ⟨d, rfl, ha, sizeOf_lt_of_lookup hl⟩

theorem named_append {α : Type} {fields : List (String × Data)} {names : List String}
    {contents : List Data} {key : String} {a : α} {f : Data → Except DecodeError α}
    (h : read? fields key (fun x _ => f x) = .ok (some a)) (hn : named fields names = contents) :
    ∃ d, named fields (names ++ [key]) = contents ++ [d] ∧ f d = .ok a ∧
      sizeOf d < sizeOf fields := by
  obtain ⟨d, hd, hf, hsize⟩ := read?_eq_some h
  refine ⟨d, ?_, hf, hsize⟩
  rw [named, List.map_append, List.map_singleton, hd]
  exact congrArg (· ++ [d]) hn

theorem named_two {α β : Type} {fields : List (String × Data)} {k k' : String} {a : α} {b : β}
    {f : Data → Except DecodeError α} {g : Data → Except DecodeError β}
    (hf : read? fields k (fun x _ => f x) = .ok (some a))
    (hg : read? fields k' (fun x _ => g x) = .ok (some b)) :
    ∃ d d', named fields [k, k'] = [d, d'] ∧ f d = .ok a ∧ g d' = .ok b ∧
      sizeOf d < sizeOf fields ∧ sizeOf d' < sizeOf fields := by
  have hnone : named fields [] = [] := rfl
  obtain ⟨d, hn, hfd, hsize⟩ := named_append hf hnone
  obtain ⟨d', hn', hgd, hsize'⟩ := named_append hg hn
  exact ⟨d, d', hn', hfd, hgd, hsize, hsize'⟩

theorem named_three {α β γ : Type} {fields : List (String × Data)} {k k' k'' : String} {a : α} {b : β}
    {c : γ} {f : Data → Except DecodeError α} {g : Data → Except DecodeError β}
    {r : Data → Except DecodeError γ} (hf : read? fields k (fun x _ => f x) = .ok (some a))
    (hg : read? fields k' (fun x _ => g x) = .ok (some b))
    (hr : read? fields k'' (fun x _ => r x) = .ok (some c)) :
    ∃ d d' d'', named fields [k, k', k''] = [d, d', d''] ∧ f d = .ok a ∧ g d' = .ok b ∧ r d'' = .ok c ∧
      sizeOf d < sizeOf fields ∧ sizeOf d' < sizeOf fields ∧ sizeOf d'' < sizeOf fields := by
  obtain ⟨d, d', hn, hfd, hgd, hsize, hsize'⟩ := named_two hf hg
  obtain ⟨d'', hn', hrd, hsize''⟩ := named_append hr hn
  exact ⟨d, d', d'', hn', hfd, hgd, hrd, hsize, hsize', hsize''⟩

theorem unlessNull_eq_ok {α : Type} {d : Data} {r : Except DecodeError α} {o : Option α}
    (h : unlessNull d r = .ok o) : d = .null ∨ ∃ a, r = .ok a := by
  by_cases hd : d = .null
  · exact .inl hd
  · rw [unlessNull_of_ne hd] at h
    obtain ⟨a, ha, -⟩ := map_eq_ok_iff.mp h
    exact .inr ⟨a, ha⟩

/-- Among fields that are known, an optional one that was read: it counts as null, or the reader has
read it. -/
theorem named_optional {α : Type} {fields : List (String × Data)} {names : List String}
    {contents : List Data} {key : String} {o : Option (Option α)} {f : Data → Except DecodeError α}
    (h : read? fields key (fun x _ => unlessNull x (f x)) = .ok o)
    (hn : named fields names = contents) :
    ∃ d, named fields (names ++ [key]) = contents ++ [d] ∧
      (d = .null ∨ ∃ a, f d = .ok a ∧ sizeOf d < sizeOf fields) := by
  cases hl : fields.lookup key with
  | none =>
    refine ⟨.null, ?_, .inl rfl⟩
    rw [named, List.map_append, List.map_singleton, hl]
    exact congrArg (· ++ [Data.null]) hn
  | some d =>
    rw [read?_eq, hl] at h
    obtain ⟨o', ho, -⟩ := map_eq_ok_iff.mp h
    refine ⟨d, ?_, (unlessNull_eq_ok ho).imp_right fun ⟨a, ha⟩ => ⟨a, ha, sizeOf_lt_of_lookup hl⟩⟩
    rw [named, List.map_append, List.map_singleton, hl]
    exact congrArg (· ++ [d]) hn

theorem eq_of_toText {d : Data} {s : String} (h : d.toText = .ok s) : d = .str s := by
  cases d with
  | str t => cases h; rfl
  | null | bool _ | int _ | decimal | list _ | record _ => cases h

theorem eq_of_toTexts {d : Data} {xs : List String} (h : d.toTexts = .ok xs) :
    d = .list (xs.map .str) := by
  cases d with
  | list items =>
    change items.mapM toText = .ok xs at h
    congr 1
    induction items generalizing xs with
    | nil => cases h; rfl
    | cons d ds ih =>
      simp only [List.mapM_cons, bind_eq_ok_iff, pure_eq_ok_iff] at h
      obtain ⟨x, hx, xs', hxs, rfl⟩ := h
      rw [eq_of_toText hx, ih hxs, List.map_cons]
  | null | bool _ | int _ | decimal | str _ | record _ => cases h

theorem eq_of_toWord {d : Data} {w : Int64} (h : d.toWord = .ok w) : d = .int w.toInt := by
  cases d with
  | int n =>
    change (toWord? n).elim _ _ = _ at h
    cases hw : toWord? n with
    | none => rw [hw] at h; cases h
    | some w' => rw [hw] at h; cases h; rw [toWord?_eq_some_iff.mp hw]
  | null | bool _ | decimal | str _ | list _ | record _ => cases h

theorem isTag_of_toTag {d : Data} {tag : String} (h : d.toTag = .ok tag) : IsTag tag d := by
  unfold toTag at h
  split at h
  · cases h; exact .inl rfl
  · cases h; exact .inr rfl
  · cases h

theorem eq_five_of_length {items : List Data} (h : items.length = 5) :
    ∃ a b c d e, items = [a, b, c, d, e] := by
  obtain ⟨a, as, rfl⟩ := List.exists_cons_of_length_eq_add_one h
  obtain ⟨b, bs, rfl⟩ := List.exists_cons_of_length_eq_add_one (Nat.succ.inj h)
  obtain ⟨c, d, e, rfl⟩ := List.length_eq_three.mp (Nat.succ.inj (Nat.succ.inj h))
  exact ⟨a, b, c, d, e, rfl⟩

theorem isTag_of_find? {α : Type} {all : List α} {tagOf : α → String} {d : Data} {a : α}
    (h : (do let tag ← d.toTag; require (all.find? (tagOf · == tag))) = .ok a) :
    IsTag (tagOf a) d := by
  simp only [bind_eq_ok_iff, require_eq_ok_iff] at h
  obtain ⟨tag, htag, hfind⟩ := h
  have heq : tagOf a = tag := eq_of_beq (List.find?_some (p := fun b => tagOf b == tag) hfind)
  rw [heq]
  exact isTag_of_toTag htag

end Data

/-! ## Expressions and declarations -/

mutual

theorem Expr.shape_of_ofData (d : Data) (e : Expr) (h : Expr.ofData d = .ok e) : e.Shape d := by
  unfold Expr.ofData at h
  split at h
  · split at h
    · next htag => cases h; subst htag; exact .inl rfl
    · cases h
  · next tag v =>
    split at h
    -- a variant `Nil` with null for contents
    · split at h
      · cases h; exact .inr rfl
      · cases h
    -- `Bool`
    · simp only [bind_eq_ok_iff, pure_eq_ok_iff] at h
      obtain ⟨b, hb, rfl⟩ := h
      cases v with
      | bool b' => cases hb; rfl
      | null | int _ | decimal | str _ | list _ | record _ => cases hb
    -- `Int`
    · simp only [bind_eq_ok_iff, pure_eq_ok_iff] at h
      obtain ⟨n, hn, rfl⟩ := h
      rw [Data.eq_of_toWord hn]
      rfl
    -- `Str`
    · simp only [bind_eq_ok_iff, pure_eq_ok_iff] at h
      obtain ⟨s, hs, rfl⟩ := h
      rw [Data.eq_of_toText hs]
      rfl
    -- `Ident`
    · simp only [bind_eq_ok_iff, pure_eq_ok_iff] at h
      obtain ⟨x, hx, rfl⟩ := h
      rw [Data.eq_of_toText hx]
      rfl
    -- `Member`
    · split at h
      · next fields =>
        simp only [bind_eq_ok_iff, Data.require_eq_ok_iff, pure_eq_ok_iff] at h
        obtain ⟨_, hname, _, htarget, t, rfl, x, rfl, rfl⟩ := h
        obtain ⟨dt, dx, hn, ht, hx, _⟩ := Data.named_two htarget hname
        rw [Data.eq_of_toText hx] at hn
        exact ⟨fields, dt, rfl, hn, Expr.shape_of_ofData dt t ht⟩
      · cases h
    -- `Index`
    · split at h
      · next fields =>
        simp only [bind_eq_ok_iff, Data.require_eq_ok_iff, pure_eq_ok_iff] at h
        obtain ⟨_, hkey, _, htarget, t, rfl, k, rfl, rfl⟩ := h
        obtain ⟨dt, dk, hn, ht, hk, _, _⟩ := Data.named_two htarget hkey
        exact ⟨fields, dt, dk, rfl, hn, Expr.shape_of_ofData dt t ht, Expr.shape_of_ofData dk k hk⟩
      · cases h
    -- `Call`
    · simp only [bind_eq_ok_iff, pure_eq_ok_iff] at h
      obtain ⟨i, hi, rfl⟩ := h
      obtain ⟨dc, das, hd, hc, has⟩ := Call.shape_of_ofData v i hi
      exact ⟨v, dc, das, rfl, hd, hc, has⟩
    -- `Binary`
    · split at h
      · next fields =>
        simp only [bind_eq_ok_iff, Data.require_eq_ok_iff, pure_eq_ok_iff] at h
        obtain ⟨_, hleft, _, hop, _, hright, op, rfl, l, rfl, r, rfl, rfl⟩ := h
        obtain ⟨dop, dl, dr, hn, hdop, hl, hr, -, _, _⟩ := Data.named_three hop hleft hright
        exact ⟨fields, dop, dl, dr, rfl, hn, Data.isTag_of_find? hdop,
          Expr.shape_of_ofData dl l hl, Expr.shape_of_ofData dr r hr⟩
      · cases h
    -- `Unary`
    · split at h
      · next fields =>
        simp only [bind_eq_ok_iff, Data.require_eq_ok_iff, pure_eq_ok_iff] at h
        obtain ⟨_, hop, _, hoperand, op, rfl, e, rfl, rfl⟩ := h
        obtain ⟨dop, de, hn, hdop, he, -, _⟩ := Data.named_two hop hoperand
        exact ⟨fields, dop, de, rfl, hn, Data.isTag_of_find? hdop, Expr.shape_of_ofData de e he⟩
      · cases h
    -- `Paren`
    · simp only [bind_eq_ok_iff, pure_eq_ok_iff] at h
      obtain ⟨e, he, rfl⟩ := h
      exact ⟨v, rfl, Expr.shape_of_ofData v e he⟩
    -- `Table`
    · simp only [bind_eq_ok_iff, pure_eq_ok_iff] at h
      obtain ⟨es, hes, rfl⟩ := h
      obtain ⟨ds, rfl, hds⟩ := Expr.shape_of_listOfData v es hes
      exact ⟨ds, rfl, hds⟩
    -- no such variant
    · cases h
  · cases h
termination_by sizeOf d
decreasing_by
  all_goals subst_vars
  all_goals simp only [Data.record.sizeOf_spec, List.cons.sizeOf_spec, Prod.mk.sizeOf_spec]
  all_goals omega

theorem Call.shape_of_ofData (d : Data) (i : Call) (h : Call.ofData d = .ok i) : i.Shape d := by
  unfold Call.ofData at h
  split at h
  · next fields =>
    simp only [bind_eq_ok_iff, Data.require_eq_ok_iff, pure_eq_ok_iff] at h
    obtain ⟨_, harguments, _, hcallee, c, rfl, as, rfl, rfl⟩ := h
    obtain ⟨dc, das, hn, hc, has, _, _⟩ := Data.named_two hcallee harguments
    obtain ⟨ds, rfl, hds⟩ := Expr.shape_of_listOfData das as has
    exact ⟨dc, ds, Data.holds_record hn, Expr.shape_of_ofData dc c hc, hds⟩
  · next items =>
    simp only [bind_eq_ok_iff, Data.requireLength_eq_ok_iff, pure_eq_ok_iff] at h
    obtain ⟨c, hc, as, has, -, hlength, rfl⟩ := h
    obtain ⟨dc, das, rfl⟩ := List.length_eq_two.mp hlength
    rw [Data.readAt_zero] at hc
    rw [Data.readAt_succ, Data.readAt_zero] at has
    obtain ⟨ds, rfl, hds⟩ := Expr.shape_of_listOfData das as has
    exact ⟨dc, ds, .inr rfl, Expr.shape_of_ofData dc c hc, hds⟩
  · cases h
termination_by sizeOf d
decreasing_by
  all_goals subst_vars
  all_goals simp only [Data.record.sizeOf_spec, Data.list.sizeOf_spec, List.cons.sizeOf_spec]
  all_goals omega

theorem Expr.shape_of_listOfData (d : Data) (es : List Expr) (h : Expr.listOfData d = .ok es) :
    ∃ ds, d = .list ds ∧ Expr.ShapeAll es ds := by
  unfold Expr.listOfData at h
  split at h
  · next ds => exact ⟨ds, rfl, Expr.shapeAll_of_allOfData ds es h⟩
  · cases h
termination_by sizeOf d

theorem Expr.shapeAll_of_allOfData (ds : List Data) (es : List Expr)
    (h : Expr.allOfData ds = .ok es) : Expr.ShapeAll es ds := by
  unfold Expr.allOfData at h
  split at h
  · cases h; rfl
  · next d ds =>
    simp only [bind_eq_ok_iff, pure_eq_ok_iff] at h
    obtain ⟨e, he, es', hes, rfl⟩ := h
    exact ⟨d, ds, rfl, Expr.shape_of_ofData d e he, Expr.shapeAll_of_allOfData ds es' hes⟩
termination_by sizeOf ds

end

theorem Declaration.shape_of_ofData {d : Data} {decl : Declaration}
    (h : Declaration.ofData d = .ok decl) : decl.Shape d := by
  unfold Declaration.ofData at h
  split at h
  · next fields =>
    simp only [bind_eq_ok_iff, Data.require_eq_ok_iff, pure_eq_ok_iff] at h
    obtain ⟨_, hnames, _, hvalues, xs, rfl, vs, rfl, rfl⟩ := h
    obtain ⟨dxs, dvs, hn, hxs, hvs, -, -⟩ := Data.named_two hnames hvalues
    rw [Data.eq_of_toTexts hxs] at hn
    obtain ⟨ds, rfl, hds⟩ := Expr.shape_of_listOfData dvs vs hvs
    exact ⟨ds, Data.holds_record hn, hds⟩
  · next items =>
    simp only [bind_eq_ok_iff, Data.requireLength_eq_ok_iff, pure_eq_ok_iff] at h
    obtain ⟨xs, hxs, vs, hvs, -, hlength, rfl⟩ := h
    obtain ⟨dxs, dvs, rfl⟩ := List.length_eq_two.mp hlength
    rw [Data.readAt_zero] at hxs
    rw [Data.readAt_succ, Data.readAt_zero] at hvs
    obtain ⟨ds, rfl, hds⟩ := Expr.shape_of_listOfData dvs vs hvs
    rw [Data.eq_of_toTexts hxs]
    exact ⟨ds, .inr rfl, hds⟩
  · cases h

/-- A part that may be left out and was read describes what it was read as. -/
theorem Expr.shapeOpt_of_unlessNull {d : Data} (h : d = .null ∨ ∃ e, Expr.ofData d = .ok e) :
    ∃ s, Expr.ShapeOpt s d := by
  rcases h with rfl | ⟨e, he⟩
  · exact ⟨none, rfl⟩
  · exact ⟨some e, Expr.shape_of_ofData d e he⟩

/-! ## Statements -/

mutual

/-- Data that are read as a statement describe one. -/
theorem Stmt.described (d : Data) (u : Stmt) (h : Stmt.ofData d = .ok u) :
    ∃ s : Stmt, s.Shape d := by
  unfold Stmt.ofData at h
  split at h
  · split at h
    · next htag => subst htag; exact ⟨.break, .inl rfl⟩
    · cases h
  · next tag v =>
    split at h
    -- `Break` with null for contents
    · split at h
      · exact ⟨.break, .inr rfl⟩
      · cases h
    -- `Expr`
    · simp only [bind_eq_ok_iff] at h
      obtain ⟨e, he, -⟩ := h
      exact ⟨.expr e, v, rfl, Expr.shape_of_ofData v e he⟩
    -- `Local`
    · simp only [bind_eq_ok_iff] at h
      obtain ⟨decl, hdecl, -⟩ := h
      exact ⟨.local decl, v, rfl, Declaration.shape_of_ofData hdecl⟩
    -- `Assign`, by name and by position
    · split at h
      · next fields =>
        simp only [bind_eq_ok_iff, Data.require_eq_ok_iff] at h
        obtain ⟨_, htargets, _, hvalues, ts, rfl, vs, rfl, -⟩ := h
        obtain ⟨dts, dvs, hn, hts, hvs, -, -⟩ := Data.named_two htargets hvalues
        obtain ⟨ds, rfl, hds⟩ := Expr.shape_of_listOfData dts ts hts
        obtain ⟨ds', rfl, hds'⟩ := Expr.shape_of_listOfData dvs vs hvs
        exact ⟨.assign ts vs, _, ds, ds', rfl, Data.holds_record hn, hds, hds'⟩
      · next items =>
        simp only [bind_eq_ok_iff, Data.requireLength_eq_ok_iff] at h
        obtain ⟨ts, hts, vs, hvs, -, hlength, -⟩ := h
        obtain ⟨dts, dvs, rfl⟩ := List.length_eq_two.mp hlength
        rw [Data.readAt_zero] at hts
        rw [Data.readAt_succ, Data.readAt_zero] at hvs
        obtain ⟨ds, rfl, hds⟩ := Expr.shape_of_listOfData dts ts hts
        obtain ⟨ds', rfl, hds'⟩ := Expr.shape_of_listOfData dvs vs hvs
        exact ⟨.assign ts vs, _, ds, ds', rfl, .inr rfl, hds, hds'⟩
      · cases h
    -- `Loop`
    · simp only [bind_eq_ok_iff] at h
      obtain ⟨m, hm, -⟩ := h
      obtain ⟨l, hl⟩ := Loop.described v m hm
      exact ⟨.loop l, v, rfl, hl⟩
    -- `Do`
    · simp only [bind_eq_ok_iff] at h
      obtain ⟨c, hc, -⟩ := h
      obtain ⟨b, hb⟩ := Block.described v c hc
      exact ⟨.do b, v, rfl, hb⟩
    -- `If`, by name and by position
    · split at h
      · next fields =>
        simp only [bind_eq_ok_iff, Data.require_eq_ok_iff] at h
        obtain ⟨_, hcondition, _, helse, _, hthen, c, rfl, t, rfl, -⟩ := h
        obtain ⟨dc, dt, hn, hc, ht, -, _⟩ := Data.named_two hcondition hthen
        obtain ⟨de, hn', he⟩ := Data.named_optional helse hn
        obtain ⟨b, hb⟩ := Block.described dt t ht
        have hcond := Expr.shape_of_ofData dc c hc
        rcases he with rfl | ⟨e, he, _⟩
        · exact ⟨.if c b none, _, dc, dt, rfl, Data.holds_record hn', hcond, hb⟩
        · obtain ⟨b', hb'⟩ := Block.described de e he
          exact ⟨.if c b (some b'), _, dc, dt, de, rfl, Data.holds_record hn', hcond, hb, hb'⟩
      · next items =>
        simp only [bind_eq_ok_iff, Data.requireLength_eq_ok_iff] at h
        obtain ⟨c, hc, t, ht, _, helse, -, hlength, -⟩ := h
        obtain ⟨dc, dt, de, rfl⟩ := List.length_eq_three.mp hlength
        simp only [Data.readAt_zero, Data.readAt_succ] at hc ht helse
        obtain ⟨b, hb⟩ := Block.described dt t ht
        have hcond := Expr.shape_of_ofData dc c hc
        rcases Data.unlessNull_eq_ok helse with rfl | ⟨e, he⟩
        · exact ⟨.if c b none, _, dc, dt, rfl, .inr rfl, hcond, hb⟩
        · obtain ⟨b', hb'⟩ := Block.described de e he
          exact ⟨.if c b (some b'), _, dc, dt, de, rfl, .inr rfl, hcond, hb, hb'⟩
      · cases h
    -- `Return`
    · simp only [bind_eq_ok_iff] at h
      obtain ⟨vs, hvs, -⟩ := h
      obtain ⟨ds, rfl, hds⟩ := Expr.shape_of_listOfData v vs hvs
      exact ⟨.return vs, ds, rfl, hds⟩
    -- no such variant
    · cases h
  · cases h
termination_by sizeOf d
decreasing_by
  all_goals subst_vars
  all_goals simp only [Data.record.sizeOf_spec, Data.list.sizeOf_spec, List.cons.sizeOf_spec,
    Prod.mk.sizeOf_spec]
  all_goals omega

theorem Block.described (d : Data) (u : Block) (h : Block.ofData d = .ok u) :
    ∃ b : Block, b.Shape d := by
  unfold Block.ofData at h
  split at h
  · next fields =>
    simp only [bind_eq_ok_iff, Data.require_eq_ok_iff] at h
    obtain ⟨_, hdelimiters, _, hstatements, delimiters, rfl, us, rfl, -⟩ := h
    obtain ⟨dd, dss, hn, hd, hus, -, _⟩ := Data.named_two hdelimiters hstatements
    obtain ⟨ds, rfl, ss, hss⟩ := Stmt.describedList dss us hus
    exact ⟨⟨delimiters, ss⟩, dd, ds, Data.holds_record hn, Data.isTag_of_find? hd, hss⟩
  · next items =>
    simp only [bind_eq_ok_iff, Data.requireLength_eq_ok_iff] at h
    obtain ⟨delimiters, hd, us, hus, -, hlength, -⟩ := h
    obtain ⟨dd, dss, rfl⟩ := List.length_eq_two.mp hlength
    rw [Data.readAt_zero] at hd
    rw [Data.readAt_succ, Data.readAt_zero] at hus
    obtain ⟨ds, rfl, ss, hss⟩ := Stmt.describedList dss us hus
    exact ⟨⟨delimiters, ss⟩, dd, ds, .inr rfl, Data.isTag_of_find? hd, hss⟩
  · cases h
termination_by sizeOf d
decreasing_by
  all_goals subst_vars
  all_goals simp only [Data.record.sizeOf_spec, Data.list.sizeOf_spec, List.cons.sizeOf_spec]
  all_goals omega

theorem Loop.described (d : Data) (u : Loop) (h : Loop.ofData d = .ok u) :
    ∃ l : Loop, l.Shape d := by
  unfold Loop.ofData at h
  split at h
  -- given by name
  · next tag fields =>
    split at h
    -- `While`
    · simp only [bind_eq_ok_iff, Data.require_eq_ok_iff] at h
      obtain ⟨_, hbody, _, hcondition, c, rfl, b', rfl, -⟩ := h
      obtain ⟨dc, db, hn, hc, hb, -, _⟩ := Data.named_two hcondition hbody
      obtain ⟨b, hshape⟩ := Block.described db b' hb
      exact ⟨.while c b, _, dc, db, rfl, Data.holds_record hn, Expr.shape_of_ofData dc c hc, hshape⟩
    -- `Repeat`
    · simp only [bind_eq_ok_iff, Data.require_eq_ok_iff] at h
      obtain ⟨_, hbody, _, hcondition, b', rfl, c, rfl, -⟩ := h
      obtain ⟨db, dc, hn, hb, hc, _, -⟩ := Data.named_two hbody hcondition
      obtain ⟨b, hshape⟩ := Block.described db b' hb
      exact ⟨.repeat b c, _, db, dc, rfl, Data.holds_record hn, hshape,
        Expr.shape_of_ofData dc c hc⟩
    -- `ForIn`
    · simp only [bind_eq_ok_iff, Data.require_eq_ok_iff] at h
      obtain ⟨_, hbody, _, hsource, _, hvar, x, rfl, i, rfl, b', rfl, -⟩ := h
      obtain ⟨dx, ds, db, hn, hx, hi, hb, -, -, _⟩ := Data.named_three hvar hsource hbody
      rw [Data.eq_of_toText hx] at hn
      obtain ⟨b, hshape⟩ := Block.described db b' hb
      exact ⟨.forIn x i b, _, ds, db, rfl, Data.holds_record hn, Call.shape_of_ofData ds i hi,
        hshape⟩
    -- `NumericFor`
    · simp only [bind_eq_ok_iff, Data.require_eq_ok_iff] at h
      obtain ⟨_, hbody, _, hlimit, _, hstart, _, hstep, _, hvar, x, rfl, i, rfl, l, rfl, b', rfl, -⟩ :=
        h
      obtain ⟨dx, di, dl, hn, hx, hi, hl, -⟩ := Data.named_three hvar hstart hlimit
      obtain ⟨ds, hn', hs⟩ := Data.named_optional hstep hn
      obtain ⟨db, hn'', hb, _⟩ := Data.named_append hbody hn'
      rw [Data.eq_of_toText hx] at hn''
      obtain ⟨s, hstep⟩ := Expr.shapeOpt_of_unlessNull (hs.imp_right fun ⟨e, he, _⟩ => ⟨e, he⟩)
      obtain ⟨b, hshape⟩ := Block.described db b' hb
      exact ⟨.numericFor x i l s b, _, di, dl, ds, db, rfl, Data.holds_record hn'',
        Expr.shape_of_ofData di i hi, Expr.shape_of_ofData dl l hl, hstep, hshape⟩
    · cases h
  -- given by position
  · next tag items =>
    split at h
    -- `While`
    · simp only [bind_eq_ok_iff, Data.requireLength_eq_ok_iff] at h
      obtain ⟨c, hc, b', hb, -, hlength, -⟩ := h
      obtain ⟨dc, db, rfl⟩ := List.length_eq_two.mp hlength
      simp only [Data.readAt_zero, Data.readAt_succ] at hc hb
      obtain ⟨b, hshape⟩ := Block.described db b' hb
      exact ⟨.while c b, _, dc, db, rfl, .inr rfl, Expr.shape_of_ofData dc c hc, hshape⟩
    -- `Repeat`
    · simp only [bind_eq_ok_iff, Data.requireLength_eq_ok_iff] at h
      obtain ⟨b', hb, c, hc, -, hlength, -⟩ := h
      obtain ⟨db, dc, rfl⟩ := List.length_eq_two.mp hlength
      simp only [Data.readAt_zero, Data.readAt_succ] at hc hb
      obtain ⟨b, hshape⟩ := Block.described db b' hb
      exact ⟨.repeat b c, _, db, dc, rfl, .inr rfl, hshape, Expr.shape_of_ofData dc c hc⟩
    -- `ForIn`
    · simp only [bind_eq_ok_iff, Data.requireLength_eq_ok_iff] at h
      obtain ⟨x, hx, i, hi, b', hb, -, hlength, -⟩ := h
      obtain ⟨dx, ds, db, rfl⟩ := List.length_eq_three.mp hlength
      simp only [Data.readAt_zero, Data.readAt_succ] at hx hi hb
      rw [Data.eq_of_toText hx]
      obtain ⟨b, hshape⟩ := Block.described db b' hb
      exact ⟨.forIn x i b, _, ds, db, rfl, .inr rfl, Call.shape_of_ofData ds i hi, hshape⟩
    -- `NumericFor`
    · simp only [bind_eq_ok_iff, Data.requireLength_eq_ok_iff] at h
      obtain ⟨x, hx, i, hi, l, hl, _, hs, b', hb, -, hlength, -⟩ := h
      obtain ⟨dx, di, dl, ds, db, rfl⟩ := Data.eq_five_of_length hlength
      simp only [Data.readAt_zero, Data.readAt_succ] at hx hi hl hs hb
      rw [Data.eq_of_toText hx]
      obtain ⟨s, hstep⟩ := Expr.shapeOpt_of_unlessNull (Data.unlessNull_eq_ok hs)
      obtain ⟨b, hshape⟩ := Block.described db b' hb
      exact ⟨.numericFor x i l s b, _, di, dl, ds, db, rfl, .inr rfl,
        Expr.shape_of_ofData di i hi, Expr.shape_of_ofData dl l hl, hstep, hshape⟩
    · cases h
  · cases h
termination_by sizeOf d
decreasing_by
  all_goals subst_vars
  all_goals simp only [Data.record.sizeOf_spec, Data.list.sizeOf_spec, List.cons.sizeOf_spec,
    Prod.mk.sizeOf_spec]
  all_goals omega

theorem Stmt.describedList (d : Data) (us : List Stmt) (h : Stmt.listOfData d = .ok us) :
    ∃ ds, d = .list ds ∧ ∃ ss, Stmt.ShapeAll ss ds := by
  unfold Stmt.listOfData at h
  split at h
  · next ds => exact ⟨ds, rfl, Stmt.describedAll ds us h⟩
  · cases h
termination_by sizeOf d

theorem Stmt.describedAll (ds : List Data) (us : List Stmt) (h : Stmt.allOfData ds = .ok us) :
    ∃ ss, Stmt.ShapeAll ss ds := by
  unfold Stmt.allOfData at h
  split at h
  · exact ⟨[], rfl⟩
  · next d ds =>
    simp only [bind_eq_ok_iff] at h
    obtain ⟨u, hu, us', hus, -⟩ := h
    obtain ⟨s, hs⟩ := Stmt.described d u hu
    obtain ⟨ss, hss⟩ := Stmt.describedAll ds us' hus
    exact ⟨s :: ss, d, ds, rfl, hs, hss⟩
termination_by sizeOf ds

end

end LoopLowering
