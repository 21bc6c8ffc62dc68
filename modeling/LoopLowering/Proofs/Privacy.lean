import LoopLowering.Proofs.Custody

/- Iterators that a program does not hold. A loop over a table or a text makes an
   iterator of its own, which is no value of the program: no variable and no table
   holds it. A program can only move iterators that it holds, so it leaves the loop's
   own one where it is.

   That the iterators in `own` are private is a rule of custody
   (`privateIterators own`): all iterators that the program holds have been made, and
   none of them is in `own`. Programs go by every such rule, so running one keeps the
   private iterators. Without private iterators the rule says that no iterator is held
   before it is made (`State.Sound`), which holds of every state that a program runs
   in (`RunConfig.initial_sound`, `Stmt.execAll_sound`). -/
namespace LoopLowering

/-- If the value is an iterator, it is one in the heap and not a private one. -/
def Value.IsPublic (own : IterId → Prop) (heap : Heap) (v : Value) : Prop :=
  ∀ id, v = .iter id → id < heap.iterators.size ∧ ¬ own id

/-- The later heap has all iterators of the earlier one, and the private ones as they were. -/
structure Heap.Keeps (own : IterId → Prop) (h h' : Heap) : Prop where
  size_le : h.iterators.size ≤ h'.iterators.size
  same : ∀ id, own id → h'.iterators[id]? = h.iterators[id]?

section Public

variable {own : IterId → Prop} {h h' h'' : Heap} {v : Value}

theorem Heap.Keeps.refl (h : Heap) : h.Keeps own h :=
  ⟨Nat.le_refl _, fun _ _ => rfl⟩

theorem Heap.Keeps.trans (h₁ : h.Keeps own h') (h₂ : h'.Keeps own h'') : h.Keeps own h'' :=
  ⟨Nat.le_trans h₁.size_le h₂.size_le, fun id hid => (h₂.same id hid).trans (h₁.same id hid)⟩

theorem Value.IsPublic.later (hv : v.IsPublic own h) (hle : h.iterators.size ≤ h'.iterators.size) :
    v.IsPublic own h' := by
  intro id hid
  obtain ⟨hlt, hown⟩ := hv id hid
  exact ⟨Nat.lt_of_lt_of_le hlt hle, hown⟩

/-- A new iterator is public: the private ones have been made before. -/
theorem Heap.keeps_newIterator (hmade : ∀ id, own id → id < h.iterators.size) (it : Iterator) :
    h.Keeps own (h.newIterator it).2 ∧
      (Value.iter (h.newIterator it).1).IsPublic own (h.newIterator it).2 := by
  have hsize : (h.newIterator it).2.iterators.size = h.iterators.size + 1 := Array.size_push it
  refine ⟨⟨by omega, fun id hid => ?_⟩, ?_⟩
  · exact Array.getElem?_push_lt (hmade id hid) ▸ (Array.getElem?_eq_getElem (hmade id hid)).symm
  · rintro _ ⟨⟩
    rw [hsize]
    exact ⟨Nat.lt_succ_self _, fun hown => Nat.lt_irrefl _ (hmade _ hown)⟩

/-- An iterator that is not private may be moved. -/
theorem Heap.keeps_next {id : IterId} (hid : ¬ own id) : h.Keeps own (h.next id).2 := by
  unfold Heap.next
  split
  · refine ⟨Nat.le_of_eq Array.size_setIfInBounds.symm, fun id' hid' => ?_⟩
    apply Array.getElem?_setIfInBounds_ne
    rintro rfl
    exact hid hid'
  · exact .refl h

end Public

/-- What is held is public, and the private iterators have been made and stay as they are. -/
def privateIterators (own : IterId → Prop) : Custody where
  admits h v := v.IsPublic own h
  guards h := ∀ id, own id → id < h.iterators.size
  keeps h h' := h.Keeps own h'
  refl := .refl
  trans := .trans
  later hkeeps hv := hv.later hkeeps.size_le
  guarded hkeeps hmade id hid := Nat.lt_of_lt_of_le (hmade id hid) hkeeps.size_le
  plain := by
    rintro h v hv id rfl
    cases hv
  newTable vs _ := ⟨⟨Nat.le_refl _, fun _ _ => rfl⟩, by rintro _ ⟨⟩⟩
  newIterator it hmade := Heap.keeps_newIterator hmade it
  next {_ id} hpublic := Heap.keeps_next (hpublic id rfl).2
  put _ _ _ := ⟨Nat.le_refl _, fun _ _ => rfl⟩

/-- No iterator is held before it is made. -/
abbrev State.Sound (s : State) : Prop := (privateIterators fun _ => False).Holds s

/-- The private iterators may be moved by what is not the program. -/
theorem privateIterators_setIterators {own : IterId → Prop} {s : State}
    (hs : (privateIterators own).Holds s) {iterators : Array Iterator}
    (hle : s.heap.iterators.size ≤ iterators.size) :
    (privateIterators own).Holds { s with heap := { s.heap with iterators := iterators } } := by
  refine hs.imp ?_ rfl fun v hv => Value.IsPublic.later hv hle
  intro id hid
  exact Nat.lt_of_lt_of_le (hs.guards id hid) hle

/-- In a sound state a new iterator is private, since no iterator is held that was made this late. -/
theorem privateIterators_newIterator {s : State} (hs : s.Sound) (it : Iterator) :
    (privateIterators (· = s.heap.iterators.size)).Holds
      { s with heap := (s.heap.newIterator it).2 } := by
  have hsize : (s.heap.newIterator it).2.iterators.size = s.heap.iterators.size + 1 :=
    Array.size_push it
  refine hs.imp ?_ rfl ?_
  · rintro id rfl
    rw [hsize]
    exact Nat.lt_succ_self _
  · intro v hv id hid
    obtain ⟨hlt, -⟩ := hv id hid
    rw [hsize]
    exact ⟨Nat.lt_succ_of_lt hlt, Nat.ne_of_lt hlt⟩

theorem RunConfig.initial_sound (config : RunConfig) : config.initial.Sound :=
  config.initial_holds fun _ h => h.elim

/-- Every state that statements of a program are run in is sound. -/
theorem Stmt.execAll_sound (limit : Nat) (ss : List Stmt) {s : State} (hs : s.Sound) :
    (endState (Stmt.execAll limit ss s)).Sound :=
  (Stmt.execAll_respects limit ss []).endState hs

end LoopLowering
