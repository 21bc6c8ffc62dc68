import LoopLowering.Run.Heap
import Mathlib.Data.List.Basic

/- Tables and iterators in use together. A session is a sequence of requests to the
   heap, in any order and to any tables and iterators: tables are made, read, written
   and added to, and iterators over them are made and asked for their next values. The
   session keeps a log of the requests and their answers, so what an iterator has
   delivered so far is read off the log.

   * `Heap.table_serve` and `Heap.iterator_serve` say all that one request does to a
     table and to an iterator.
   * `Session.inStep_run`: at every moment of every session the position of an iterator
     is the number of values that it has delivered, and is not past the end of its
     table. -/
namespace LoopLowering

inductive Request where
  | make (values : List Value)
  | get (table : TableId) (index : Int64)
  | set (table : TableId) (index : Int64) (value : Value)
  | push (table : TableId) (value : Value)
  | iterate (table : TableId)
  | next (iterator : IterId)
  deriving DecidableEq, Repr

/-- What is answered. An iterator that is at its end delivers nothing. -/
inductive Answer where
  | table (id : TableId)
  | value (v : Value)
  | done
  | failed (error : RunError)
  | iterator (id : IterId)
  | delivered (v : Option Value)
  deriving DecidableEq, Repr

def Heap.serve (h : Heap) : Request → Answer × Heap
  | .make vs => (.table (h.newTable vs).1, (h.newTable vs).2)
  | .get t i => (.value ((h.table t).get i), h)
  | .set t i v =>
    match h.set t i v with
    | .ok h' => (.done, h')
    | .error e => (.failed e, h)
  | .push t v => (.done, h.push t v)
  | .iterate t => (.iterator (h.newIterator (.elements t 0)).1, (h.newIterator (.elements t 0)).2)
  | .next it => (.delivered (h.next it).1, (h.next it).2)

/-- A heap in use, with the requests so far and their answers. -/
structure Session where
  heap : Heap := {}
  log : List (Request × Answer) := []

/-- The value that an entry of the log says the iterator delivered, if it does. -/
def delivery? (it : IterId) : Request × Answer → Option Value
  | (.next id, .delivered v) => if id = it then v else none
  | _ => none

namespace Session

def answer (σ : Session) (r : Request) : Answer :=
  (σ.heap.serve r).1

def serve (σ : Session) (r : Request) : Session :=
  ⟨(σ.heap.serve r).2, σ.log ++ [(r, σ.answer r)]⟩

/-- The session of requests one after the other, from an empty heap. -/
def run (rs : List Request) : Session :=
  rs.foldl serve {}

def deliveries (σ : Session) (it : IterId) : List Value :=
  σ.log.filterMap (delivery? it)

end Session

/-- Whether a request makes a table of the given length longer. -/
def Request.lengthens (t : TableId) (length : Nat) : Request → Bool
  | .push id _ => decide (id = t)
  | .set id i _ => decide (id = t) && decide (i.toInt = length + 1)
  | _ => false

/-! ## One request -/

namespace Heap

variable {h : Heap} {t : TableId} {it : IterId}

theorem serve_set (t : TableId) (i : Int64) (v : Value) :
    h.serve (.set t i v) =
      if (h.table t).accepts i then (.done, h.put t i v)
      else (.failed (.indexOutOfBounds i), h) := by
  by_cases ha : (h.table t).accepts i = true <;> simp [serve, set, ha]

theorem table_modify (f : Table → Table) (ht : t < h.tables.size) (id : TableId) :
    ({ h with tables := h.tables.modify id f } : Heap).table t =
      if id = t then f (h.table t) else h.table t := by
  simp only [table, Array.getElem?_modify, Array.getElem?_eq_getElem ht]
  split <;> rfl

/-- The table after a request: it changes by a value that is pushed to it and by a write that it
accepts, and by no other request. -/
theorem table_serve (ht : t < h.tables.size) (r : Request) :
    (h.serve r).2.table t =
      match r with
      | .set id i v => if id = t ∧ (h.table t).accepts i = true then (h.table t).put i v else h.table t
      | .push id v => if id = t then (h.table t).push v else h.table t
      | _ => h.table t := by
  cases r with
  | make vs =>
    have hne : t ≠ h.tables.size := Nat.ne_of_lt ht
    simp [serve, newTable, table, Array.getElem?_push, hne]
  | get id i => rfl
  | set id i v =>
    rw [serve_set]
    by_cases hid : id = t
    · subst hid
      by_cases ha : (h.table id).accepts i = true
      · simp only [ha, if_true, and_self]
        rw [put, table_modify _ ht, if_pos rfl]
      · simp [ha]
    · simp only [hid, false_and, if_false]
      split
      · rw [put, table_modify _ ht, if_neg hid]
      · rfl
  | push id v => exact table_modify _ ht id
  | iterate id => rfl
  | next id =>
    simp only [serve, next]
    split <;> rfl

/-- A request makes a table one longer by adding to it or by writing just past its end, and changes
the length of a table in no other way. -/
theorem size_table_serve (ht : t < h.tables.size) (r : Request) :
    ((h.serve r).2.table t).size =
      (h.table t).size + if r.lengthens t (h.table t).size then 1 else 0 := by
  rw [table_serve ht]
  cases r with
  | set id i v =>
    by_cases hw : id = t ∧ (h.table t).accepts i = true
    · simp only [Request.lengthens, hw, and_self, if_true, decide_true, Bool.true_and,
        decide_eq_true_eq, Table.size_put hw.2]
      split <;> rfl
    · have hno : Request.lengthens t (h.table t).size (.set id i v) = false := by
        simp only [Request.lengthens, Bool.and_eq_false_iff, decide_eq_false_iff_not]
        by_contra hc
        obtain ⟨hid, hpast⟩ := not_or.1 hc
        exact hw ⟨not_not.1 hid, (Table.accepts_iff _ _).2 (by omega)⟩
      simp [hw, hno]
  | push id v => by_cases hid : id = t <;> simp [Request.lengthens, hid]
  | make _ | get _ _ | iterate _ | next _ => rfl

theorem size_tables_serve_le (r : Request) : h.tables.size ≤ (h.serve r).2.tables.size := by
  cases r with
  | make vs => simp [serve, newTable]
  | set id i v =>
    rw [serve_set]
    split
    · simp [put]
    · exact Nat.le_refl _
  | push id v => simp [serve, push]
  | next id =>
    simp only [serve, next]
    split <;> exact Nat.le_refl _
  | get _ _ | iterate _ => exact Nat.le_refl _

theorem size_table_serve_le (t : TableId) (r : Request) :
    (h.table t).size ≤ ((h.serve r).2.table t).size := by
  by_cases ht : t < h.tables.size
  · rw [size_table_serve ht]
    exact Nat.le_add_right _ _
  · have hnone : h.tables[t]? = none := Array.getElem?_eq_none (Nat.le_of_not_lt ht)
    simp [table, hnone]

/-- The iterator after it has been asked for its next value: at its end it stays where it is. -/
def moved (h : Heap) (i : Iterator) : Iterator :=
  ((h.advance i).map Prod.snd).getD i

/-- The iterator after a request: one more is added by making it, and one moves by being asked for
its next value. -/
theorem iterator_serve (it : IterId) (r : Request) :
    (h.serve r).2.iterators[it]? =
      match r with
      | .iterate t => if it = h.iterators.size then some (.elements t 0) else h.iterators[it]?
      | .next id => if id = it then h.iterators[it]?.map h.moved else h.iterators[it]?
      | _ => h.iterators[it]? := by
  cases r with
  | set id i v =>
    rw [serve_set]
    split <;> rfl
  | iterate id => exact Array.getElem?_push
  | next id =>
    cases hi : h.iterators[id]? with
    | none =>
      have hstay : (h.next id).2 = h := by simp [next, hi]
      simp only [serve, hstay]
      split
      · next heq => rw [← heq, hi]; rfl
      · rfl
    | some i =>
      cases ha : h.advance i with
      | none =>
        have hstay : (h.next id).2 = h := by simp [next, hi, ha]
        simp only [serve, hstay]
        split
        · next heq => rw [← heq, hi]; simp [moved, ha]
        · rfl
      | some step =>
        have hstep : (h.next id).2.iterators = h.iterators.setIfInBounds id step.2 := by
          simp [next, hi, ha]
        simp only [serve, hstep]
        split
        · next heq =>
          obtain ⟨hlt, -⟩ := Array.getElem?_eq_some_iff.1 hi
          rw [← heq, hi, Array.getElem?_setIfInBounds_self_of_lt hlt]
          simp [moved, ha]
        · next hne => exact Array.getElem?_setIfInBounds_ne hne
  | make _ | get _ _ | push _ _ => rfl

theorem next_of_elements {n : Nat} (hi : h.iterators[it]? = some (.elements t n)) :
    (h.next it).1 = (h.table t)[n]? := by
  simp only [next, hi, Option.bind_some, advance]
  cases (h.table t)[n]? <;> rfl

theorem moved_elements (t : TableId) (n : Nat) :
    h.moved (.elements t n) = .elements t (if n < (h.table t).size then n + 1 else n) := by
  simp only [moved, advance]
  split
  · next hlt => simp [Array.getElem?_eq_getElem hlt]
  · next hge => simp [Array.getElem?_eq_none (Nat.le_of_not_lt hge)]

end Heap

/-! ## All requests -/

namespace Session

variable {σ : Session}

/-- Iterators in step with their tables: the position of an iterator is the number of values that it
has delivered, and not past the end of its table. -/
structure InStep (σ : Session) : Prop where
  made {t : TableId} {vs : List Value} : (.make vs, .table t) ∈ σ.log → t < σ.heap.tables.size
  position {t : TableId} {it : IterId} : (.iterate t, .iterator it) ∈ σ.log →
    σ.heap.iterators[it]? = some (.elements t (σ.deliveries it).length)
  within {t : TableId} {it : IterId} {n : Nat} :
    σ.heap.iterators[it]? = some (.elements t n) → n ≤ (σ.heap.table t).size
  unused {it : IterId} : σ.heap.iterators[it]? = none → σ.deliveries it = []

theorem deliveries_serve (r : Request) (it : IterId) :
    (σ.serve r).deliveries it = σ.deliveries it ++ (delivery? it (r, σ.answer r)).toList := by
  simp only [deliveries, serve, List.filterMap_append]
  cases hd : delivery? it (r, σ.answer r) <;> simp [hd]

/-- The log grows only when the iterator is asked and is not at its end. -/
theorem delivery?_answer (r : Request) (it : IterId) :
    delivery? it (r, σ.answer r) = if r = .next it then (σ.heap.next it).1 else none := by
  cases r with
  | next id =>
    simp only [delivery?, answer, Heap.serve, Request.next.injEq]
    split
    · next heq => rw [heq]
    · rfl
  | make _ | get _ _ | set _ _ _ | push _ _ | iterate _ => rfl

theorem made_serve (hσ : σ.InStep) {r : Request} {t : TableId} {vs : List Value}
    (hmem : (.make vs, .table t) ∈ (σ.serve r).log) : t < (σ.serve r).heap.tables.size := by
  rcases List.mem_append.1 hmem with hold | hnew
  · exact Nat.lt_of_lt_of_le (hσ.made hold) (Heap.size_tables_serve_le r)
  · obtain ⟨rfl, hans⟩ : .make vs = r ∧ .table t = σ.answer r := by simpa using hnew
    cases hans
    simp [serve, Heap.serve, Heap.newTable]

/-- An iterator that is there moves by one exactly when it delivers a value. -/
theorem position_of_mem_log (hσ : σ.InStep) {t : TableId} {it : IterId}
    (hmem : (.iterate t, .iterator it) ∈ σ.log) (r : Request) :
    (σ.serve r).heap.iterators[it]? =
      some (.elements t ((σ.serve r).deliveries it).length) := by
  have hpos := hσ.position hmem
  rw [deliveries_serve, delivery?_answer]
  show (σ.heap.serve r).2.iterators[it]? = _
  rw [Heap.iterator_serve]
  cases r with
  | iterate id =>
    have hne : it ≠ σ.heap.iterators.size := by
      intro heq
      rw [heq, Array.getElem?_size] at hpos
      cases hpos
    simp [hne, hpos]
  | next id =>
    simp only [Request.next.injEq]
    by_cases hid : id = it
    · subst hid
      rw [if_pos rfl, if_pos rfl, hpos, Option.map_some, Heap.moved_elements,
        Heap.next_of_elements hpos]
      split
      · next hlt => simp [Array.getElem?_eq_getElem hlt]
      · next hge => simp [Array.getElem?_eq_none (Nat.le_of_not_lt hge)]
    · simp [hid, hpos]
  | make _ | get _ _ | set _ _ _ | push _ _ => simpa using hpos

theorem position_serve (hσ : σ.InStep) {r : Request} {t : TableId} {it : IterId}
    (hmem : (.iterate t, .iterator it) ∈ (σ.serve r).log) :
    (σ.serve r).heap.iterators[it]? =
      some (.elements t ((σ.serve r).deliveries it).length) := by
  rcases List.mem_append.1 hmem with hold | hnew
  · exact position_of_mem_log hσ hold r
  · obtain ⟨rfl, hans⟩ : .iterate t = r ∧ .iterator it = σ.answer r := by simpa using hnew
    cases hans
    -- the new iterator has the first identity that is not in use, so nothing was delivered by it
    have hnone : σ.deliveries σ.heap.iterators.size = [] := hσ.unused Array.getElem?_size
    rw [deliveries_serve, delivery?_answer]
    simp [serve, Heap.serve, Heap.newIterator, hnone]

theorem within_serve (hσ : σ.InStep) {r : Request} {t : TableId} {it : IterId} {n : Nat}
    (hi : (σ.serve r).heap.iterators[it]? = some (.elements t n)) :
    n ≤ ((σ.serve r).heap.table t).size := by
  refine Nat.le_trans ?_ (Heap.size_table_serve_le t r)
  change (σ.heap.serve r).2.iterators[it]? = _ at hi
  rw [Heap.iterator_serve] at hi
  cases r with
  | iterate id =>
    dsimp only at hi
    split at hi
    · cases hi
      exact Nat.zero_le _
    · exact hσ.within hi
  | next id =>
    dsimp only at hi
    split at hi
    · obtain ⟨i, hold, hmoved⟩ := Option.map_eq_some_iff.1 hi
      cases i with
      | elements u m =>
        have hm := hσ.within hold
        rw [Heap.moved_elements] at hmoved
        cases hmoved
        split <;> omega
      | chars cs => cases cs <;> cases hmoved
    · exact hσ.within hi
  | make _ | get _ _ | set _ _ _ | push _ _ => exact hσ.within hi

theorem unused_serve (hσ : σ.InStep) {r : Request} {it : IterId}
    (hi : (σ.serve r).heap.iterators[it]? = none) : (σ.serve r).deliveries it = [] := by
  change (σ.heap.serve r).2.iterators[it]? = _ at hi
  rw [Heap.iterator_serve] at hi
  have hold : σ.heap.iterators[it]? = none := by
    cases r with
    | iterate id =>
      dsimp only at hi
      split at hi
      · cases hi
      · exact hi
    | next id =>
      dsimp only at hi
      split at hi
      · exact Option.map_eq_none_iff.1 hi
      · exact hi
    | make _ | get _ _ | set _ _ _ | push _ _ => exact hi
  have hnext : (σ.heap.next it).1 = none := by simp [Heap.next, hold]
  rw [deliveries_serve, delivery?_answer, hσ.unused hold, hnext]
  simp

/-- Every request keeps the iterators in step. -/
theorem inStep_serve (hσ : σ.InStep) (r : Request) : (σ.serve r).InStep :=
  ⟨made_serve hσ, position_serve hσ, within_serve hσ, unused_serve hσ⟩

/-- The iterators are in step at every moment of a session. -/
theorem inStep_run (rs : List Request) : (run rs).InStep := by
  have hall : ∀ (rs : List Request) (σ : Session), σ.InStep → (rs.foldl serve σ).InStep := by
    intro rs
    induction rs with
    | nil => exact fun σ hσ => hσ
    | cons r rs ih => exact fun σ hσ => ih (σ.serve r) (inStep_serve hσ r)
  apply hall rs
  constructor <;> simp [deliveries]

theorem answer_next (hσ : σ.InStep) {t : TableId} {it : IterId}
    (hmem : (.iterate t, .iterator it) ∈ σ.log) :
    σ.answer (.next it) = .delivered (σ.heap.table t)[(σ.deliveries it).length]? := by
  rw [answer, Heap.serve, Heap.next_of_elements (hσ.position hmem)]

end Session

theorem Table.get_of_toInt_eq (t : Table) {i : Int64} {k : Nat} (hi : i.toInt = k + 1) :
    t.get i = t[k]?.getD .nil := by
  rw [Table.get, Table.slot?_eq_some_iff.2 hi]

/-- What a write to a table answers and does: it is done at the indices of the table and just past its
end, and fails elsewhere without a trace. -/
theorem Session.serve_set {σ : Session} {t : TableId} (ht : t < σ.heap.tables.size) (i : Int64)
    (v : Value) :
    (σ.answer (.set t i v) = .done ↔
      1 ≤ i.toInt ∧ i.toInt ≤ (σ.heap.table t).size + 1) ∧
    (σ.answer (.set t i v) = .done → ∀ j, ((σ.serve (.set t i v)).heap.table t).get j =
      if j = i then v else (σ.heap.table t).get j) ∧
    (σ.answer (.set t i v) ≠ .done → σ.answer (.set t i v) = .failed (.indexOutOfBounds i) ∧
      (σ.serve (.set t i v)).heap = σ.heap) := by
  by_cases ha : (σ.heap.table t).accepts i = true
  · have hdone : σ.answer (.set t i v) = .done := by
      rw [Session.answer, Heap.serve_set, if_pos ha]
    refine ⟨iff_of_true hdone ((Table.accepts_iff _ i).1 ha), fun _ j => ?_, absurd hdone⟩
    have htable : (σ.serve (.set t i v)).heap.table t = (σ.heap.table t).put i v := by
      rw [Session.serve, Heap.table_serve ht]
      exact if_pos ⟨rfl, ha⟩
    rw [htable, Table.get_put ha]
  · have hfailed : σ.answer (.set t i v) = .failed (.indexOutOfBounds i) := by
      rw [Session.answer, Heap.serve_set, if_neg ha]
    have hnot : σ.answer (.set t i v) ≠ .done := by simp [hfailed]
    refine ⟨iff_of_false hnot (mt (Table.accepts_iff _ i).2 ha), fun h => absurd h hnot,
      fun _ => ⟨hfailed, ?_⟩⟩
    rw [Session.serve, Heap.serve_set, if_neg ha]

theorem Session.table_push {σ : Session} {t : TableId} (ht : t < σ.heap.tables.size) (v : Value) :
    (σ.serve (.push t v)).heap.table t = (σ.heap.table t).push v := by
  rw [Session.serve, Heap.table_serve ht]
  exact if_pos rfl

theorem Session.table_of_untouched {σ : Session} {t : TableId} (ht : t < σ.heap.tables.size)
    {r : Request} (hset : ∀ i v, r ≠ .set t i v) (hpush : ∀ v, r ≠ .push t v) :
    (σ.serve r).heap.table t = σ.heap.table t := by
  rw [Session.serve, Heap.table_serve ht]
  cases r with
  | set id i v =>
    have hid : id ≠ t := by
      rintro rfl
      exact hset i v rfl
    simp [hid]
  | push id v =>
    have hid : id ≠ t := by
      rintro rfl
      exact hpush v rfl
    simp [hid]
  | make _ | get _ _ | iterate _ | next _ => rfl

/-- An iterator at its end delivers what is added to its table. -/
theorem Session.answer_next_of_push {σ : Session} (hσ : σ.InStep) {t : TableId} {it : IterId}
    (ht : t < σ.heap.tables.size) (hmem : (.iterate t, .iterator it) ∈ σ.log)
    (hend : (σ.deliveries it).length = (σ.heap.table t).size) (v : Value) :
    (σ.serve (.push t v)).answer (.next it) = .delivered (some v) := by
  have hmem' : (.iterate t, .iterator it) ∈ (σ.serve (.push t v)).log :=
    List.mem_append_left _ hmem
  rw [Session.answer_next (Session.inStep_serve hσ _) hmem', Session.table_push ht,
    Session.deliveries_serve, Session.delivery?_answer]
  simp [hend]

/-- **Tables and iterators stay in step.** Requests of all kinds come in any order, and a table was
made on the way. It becomes one longer by adding to it and by writing just past its end, and changes
its length in no other way; requests that do neither leave it as it is. A write succeeds at its indices
and just past its end and is then read back, with every other index as before; a write that fails
changes nothing. An iterator over it delivers the element after those that it has delivered, as it is
at that time, and nothing exactly when it has delivered as many as there are; then it goes on with
what is added. -/
theorem tables_and_iterators_in_step (rs : List Request) {t : TableId} {vs : List Value}
    (ht : (.make vs, .table t) ∈ (Session.run rs).log) :
    let σ := Session.run rs
    let length := (σ.heap.table t).size
    (∀ r, ((σ.serve r).heap.table t).size =
      length + if r.lengthens t length then 1 else 0) ∧
    (∀ r, (∀ i v, r ≠ .set t i v) → (∀ v, r ≠ .push t v) →
      (σ.serve r).heap.table t = σ.heap.table t) ∧
    (∀ v, (σ.serve (.push t v)).heap.table t = (σ.heap.table t).push v) ∧
    (∀ i v, (σ.answer (.set t i v) = .done ↔ 1 ≤ i.toInt ∧ i.toInt ≤ length + 1) ∧
      (σ.answer (.set t i v) = .done → ∀ j,
        ((σ.serve (.set t i v)).heap.table t).get j =
          if j = i then v else (σ.heap.table t).get j) ∧
      (σ.answer (.set t i v) ≠ .done →
        σ.answer (.set t i v) = .failed (.indexOutOfBounds i) ∧
        (σ.serve (.set t i v)).heap = σ.heap)) ∧
    (∀ it, (.iterate t, .iterator it) ∈ σ.log →
      let delivered := (σ.deliveries it).length
      delivered ≤ length ∧
      (σ.answer (.next it) = .delivered none ↔ delivered = length) ∧
      (∀ v, (σ.heap.table t)[delivered]? = some v →
        σ.answer (.next it) = .delivered (some v) ∧
        (σ.serve (.next it)).deliveries it = σ.deliveries it ++ [v] ∧
        ∀ i : Int64, i.toInt = delivered + 1 → (σ.heap.table t).get i = v) ∧
      (delivered = length → ∀ v,
        (σ.serve (.push t v)).answer (.next it) = .delivered (some v))) := by
  intro σ length
  have hσ : σ.InStep := Session.inStep_run rs
  have hlt : t < σ.heap.tables.size := hσ.made ht
  refine ⟨fun r => Heap.size_table_serve hlt r, fun r => Session.table_of_untouched hlt,
    fun v => Session.table_push hlt v, fun i v => Session.serve_set hlt i v, ?_⟩
  intro it hit delivered
  have hans : σ.answer (.next it) = .delivered (σ.heap.table t)[delivered]? :=
    Session.answer_next hσ hit
  have hle : delivered ≤ length := hσ.within (hσ.position hit)
  refine ⟨hle, ?_, fun v hv => ⟨hans.trans (by rw [hv]), ?_, fun i hi => ?_⟩,
    fun hend v => Session.answer_next_of_push hσ hlt hit hend v⟩
  · rw [hans, Answer.delivered.injEq, Array.getElem?_eq_none_iff]
    omega
  · rw [Session.deliveries_serve, Session.delivery?_answer, if_pos rfl,
      Heap.next_of_elements (hσ.position hit), hv, Option.toList_some]
  · rw [Table.get_of_toInt_eq _ hi, hv, Option.getD_some]

/-- A table that is written past its end while one iterator is at its end and another is in its
middle. -/
def interleaved : List Request :=
  [.make [.int 10, .int 20], .iterate 0, .next 0, .next 0, .iterate 0, .next 1, .set 0 3 (.int 30),
    .next 0, .set 0 1 (.int 11), .next 0]

theorem tables_and_iterators_in_step_interleaved :
    (Session.run interleaved).deliveries 0 = [.int 10, .int 20, .int 30] ∧
    (Session.run interleaved).deliveries 1 = [.int 10] ∧
    (Session.run interleaved).answer (.next 0) = .delivered none ∧
    (Session.run interleaved).answer (.next 1) = .delivered (some (.int 20)) ∧
    (Session.run interleaved).answer (.set 0 (-1) .nil) ≠ .done := by
  obtain ⟨-, -, -, hset, hiter⟩ :=
    @tables_and_iterators_in_step interleaved 0 [.int 10, .int 20] (by decide)
  obtain ⟨-, hnone, -, -⟩ := hiter 0 (by decide)
  obtain ⟨-, -, hsome, -⟩ := hiter 1 (by decide)
  refine ⟨by decide, by decide, hnone.2 (by decide), (hsome (.int 20) (by decide)).1, ?_⟩
  exact fun hdone => absurd ((hset (-1) .nil).1.1 hdone) (by decide)

end LoopLowering
