import LoopLowering.Run.Error

/- Tables and iterators. The heap holds all tables and iterators. A table is a
   sequence whose indices count from one; it can be written at its indices and just
   past its end. An iterator over a table reads the table as it is at the time of
   each step; an iterator over a text holds the characters that are left. -/
namespace LoopLowering

/-- The contents of a table. -/
abbrev Table := Array Value

namespace Table

/-- The position of an index. -/
def slot? (index : Int64) : Option Nat :=
  if 1 ≤ index.toInt then some (index.toInt - 1).toNat else none

/-- The value at an index, and nil where there is none. -/
def get (t : Table) (index : Int64) : Value :=
  match slot? index with
  | some i => t[i]?.getD .nil
  | none => .nil

def accepts (t : Table) (index : Int64) : Bool :=
  match slot? index with
  | some i => decide (i ≤ t.size)
  | none => false

/-- The table after a write, at one of its indices or just past its end. -/
def put (t : Table) (index : Int64) (v : Value) : Table :=
  match slot? index with
  | some i => if i < t.size then t.setIfInBounds i v else t.push v
  | none => t

theorem slot?_eq_some_iff {index : Int64} {i : Nat} :
    slot? index = some i ↔ index.toInt = i + 1 := by
  unfold slot?
  split
  · rw [Option.some.injEq]; omega
  · simp only [reduceCtorEq, false_iff]; omega

/-- A table is written at its indices and just past its end. -/
theorem accepts_iff (t : Table) (index : Int64) :
    t.accepts index = true ↔ 1 ≤ index.toInt ∧ index.toInt ≤ t.size + 1 := by
  unfold accepts
  split
  case h_1 i h => rw [slot?_eq_some_iff] at h; rw [decide_eq_true_iff]; omega
  case h_2 h =>
    unfold slot? at h
    split at h
    · cases h
    · simp only [Bool.false_eq_true, false_iff]; omega

/-- A write past the end makes the table one longer, any other keeps its length. -/
theorem size_put {t : Table} {index : Int64} (h : t.accepts index = true) (v : Value) :
    (t.put index v).size = if index.toInt = t.size + 1 then t.size + 1 else t.size := by
  obtain ⟨h₁, h₂⟩ := (accepts_iff t index).1 h
  have hs : slot? index = some (index.toInt - 1).toNat := slot?_eq_some_iff.2 (by omega)
  simp only [put, hs]
  split
  · rw [Array.size_setIfInBounds, if_neg (by omega)]
  · rw [Array.size_push, if_pos (by omega)]

/-- A write is read back, and every other index reads as before. -/
theorem get_put {t : Table} {index : Int64} (h : t.accepts index = true) (v : Value)
    (other : Int64) : (t.put index v).get other = if other = index then v else t.get other := by
  obtain ⟨h₁, h₂⟩ := (accepts_iff t index).1 h
  have hs : slot? index = some (index.toInt - 1).toNat := slot?_eq_some_iff.2 (by omega)
  by_cases ho : other = index
  · subst ho
    simp only [put, get, hs, if_true]
    split
    · rw [Array.getElem?_setIfInBounds_self_of_lt ‹_›, Option.getD_some]
    · have hl : (other.toInt - 1).toNat = t.size := by omega
      rw [hl, Array.getElem?_push_size, Option.getD_some]
  · have hne : other.toInt ≠ index.toInt := fun e => ho (Int64.toInt_inj.1 e)
    simp only [put, get, hs, ho, if_false]
    cases hj : slot? other with
    | none => rfl
    | some j =>
      rw [slot?_eq_some_iff] at hj
      dsimp only
      split
      · rw [Array.getElem?_setIfInBounds_ne (by omega)]
      · rw [Array.getElem?_push, if_neg (by omega)]

end Table

/-- The state of an iterator: how many elements of a table it has delivered, or the characters of a
text that it has not. -/
inductive Iterator where
  | elements (table : TableId) (delivered : Nat)
  | chars (rest : List Char)
  deriving DecidableEq, Repr

/-- All tables and iterators. -/
structure Heap where
  tables : Array Table := #[]
  iterators : Array Iterator := #[]
  deriving DecidableEq, Repr

namespace Heap

def table (h : Heap) (id : TableId) : Table :=
  h.tables[id]?.getD #[]

def newTable (h : Heap) (values : List Value) : TableId × Heap :=
  (h.tables.size, { h with tables := h.tables.push values.toArray })

def newIterator (h : Heap) (it : Iterator) : IterId × Heap :=
  (h.iterators.size, { h with iterators := h.iterators.push it })

/-- Writes a value at an index of a table that accepts it. -/
def put (h : Heap) (id : TableId) (index : Int64) (v : Value) : Heap :=
  { h with tables := h.tables.modify id (·.put index v) }

/-- Writes a value at an index of a table, if the table accepts it. -/
def set (h : Heap) (id : TableId) (index : Int64) (v : Value) : Except RunError Heap :=
  if (h.table id).accepts index then .ok (h.put id index v) else .error (.indexOutOfBounds index)

/-- Adds a value at the end of a table. -/
def push (h : Heap) (id : TableId) (v : Value) : Heap :=
  { h with tables := h.tables.modify id (·.push v) }

/-- The iterator after one step and the value it delivers, if it is not at its end. -/
def advance (h : Heap) : Iterator → Option (Value × Iterator)
  | .elements t n => ((h.table t)[n]?).map fun v => (v, .elements t (n + 1))
  | .chars [] => none
  | .chars (c :: cs) => some (.str c.toString, .chars cs)

/-- The next value of an iterator; at its end it delivers nothing and stays as it is. -/
def next (h : Heap) (id : IterId) : Option Value × Heap :=
  match h.iterators[id]?.bind h.advance with
  | some (v, it) => (some v, { h with iterators := h.iterators.setIfInBounds id it })
  | none => (none, h)

end Heap

end LoopLowering
