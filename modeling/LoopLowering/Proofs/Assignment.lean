import LoopLowering.Proofs.Custody
import LoopLowering.Proofs.Simulation

/- Assignments to several targets. A target denotes a location, a variable or an element
   of a table (`Expr.location`). To find an element, its table and its key are evaluated.
   In a simultaneous assignment this is done for all targets before the first write
   (`assignTogether`). An assignment takes its targets in turn instead: it finds a
   location, writes to it and goes on to the next target, whose table and key may read
   what has just been written.

   A write commutes with evaluation that does not read what is written
   (`Location.write_swap`). So an assignment is simultaneous when no target reads what an
   earlier one writes, and this condition cannot be weakened
   (`assignment_simultaneous_iff`). -/
namespace LoopLowering

/-! ## Locations -/

/-- What an assignment writes to: a variable, or the element of a table at an index. -/
inductive Location where
  | name (x : Name)
  | element (table : TableId) (index : Int64)
  deriving DecidableEq, Repr

def Location.ofName : Option Name → Except RunError Location
  | some x => .ok (.name x)
  | none => .error .invalidAssignmentTarget

/-- The location in a table at a key. -/
def Location.ofElement : Value → Value → Except RunError Location
  | .table id, .int i => .ok (.element id i)
  | .table _, key => .error (.notIndexable key.type)
  | other, _ => .error (.notIndexable other.type)

/-- The location that a target denotes. -/
def Expr.location : Expr → Exec Location
  | .index t k => do
    let table ← t.eval
    let key ← k.eval
    Exec.ofExcept (Location.ofElement table key)
  | target => Exec.ofExcept (Location.ofName target.qualifiedName?)

def Expr.locations : List Expr → Exec (List Location)
  | [] => pure []
  | t :: ts => do
    let p ← t.location
    let ps ← Expr.locations ts
    pure (p :: ps)

namespace Location

def write (v : Value) : Location → Exec Unit
  | .name x => Exec.modifyEnv (·.assign x v)
  | .element id i => Exec.setElement id i v

/-- Writes values to locations, from left to right; a location without a value becomes nil. -/
def writeAll : List Location → List Value → Exec Unit
  | [], _ => pure ()
  | p :: ps, vs => do
    p.write (vs.head?.getD .nil)
    writeAll ps vs.tail

end Location

/-- The simultaneous assignment: all values and all locations are found before the first write. -/
def assignTogether (targets values : List Expr) : Exec Unit := do
  let vs ← Expr.evalAll values
  let ps ← Expr.locations targets
  Location.writeAll ps vs

/-- The assignment does what the simultaneous one does. From a closed state, as all states of a program
are (`Stmt.execAll_closed`), one of them ends in a state just when the other ends in it. -/
def AtOnce (targets values : List Expr) : Prop :=
  ∀ (limit : Nat) (s t : State), s.Closed →
    ((Stmt.assign targets values).exec limit s = .ok .normal t ↔
      assignTogether targets values s = .ok () t)

theorem Expr.assign_eq (target : Expr) (v : Value) :
    target.assign v = (do let p ← target.location; p.write v) := by
  cases target with
  | index t k =>
    simp only [Expr.assign, Expr.location, bind_assoc]
    refine bind_congr fun table => bind_congr fun key => ?_
    cases table with
    | table id => cases key <;> rfl
    | nil | bool _ | int _ | str _ | iter _ | builtin _ => rfl
  | member t x =>
    simp only [Expr.assign, Expr.location]
    cases (Expr.member t x).qualifiedName? <;> rfl
  | ident _ => rfl
  | nil | bool _ | int _ | str _ | call _ _ | binary _ _ _ | unary _ _ | paren _ | table _ => rfl

/-! ## What is written and what is read -/

/-- What a write can change and an expression can read: a variable, or the elements of tables. -/
inductive Cell where
  | name (x : Name)
  | elements
  deriving DecidableEq, Repr

/-- What a write to the location changes. -/
def Location.cell : Location → Cell
  | .name x => .name x
  | .element _ _ => .elements

/-- What an assignment to the target changes. -/
def Expr.writes : Expr → List Cell
  | .index _ _ => [.elements]
  | target => target.qualifiedName?.toList.map .name

mutual

/-- What an expression reads. The length of a table is read off its elements. -/
def Expr.reads : Expr → List Cell
  | .nil | .bool _ | .int _ | .str _ => []
  | .ident x => [.name x]
  | .member t x =>
    match (Expr.member t x).qualifiedName? with
    | some path => [.name path]
    | none => t.reads
  | .index t k => .elements :: (t.reads ++ k.reads)
  | .call c as => c.reads ++ Expr.readsAll as
  | .binary _ l r => l.reads ++ r.reads
  | .unary op e => (if op = .len then [.elements] else []) ++ e.reads
  | .paren e => e.reads
  | .table es => Expr.readsAll es

def Expr.readsAll : List Expr → List Cell
  | [] => []
  | e :: es => e.reads ++ Expr.readsAll es

end

/-- What is read to find the target's location: by the table and the key of an element. -/
def Expr.locationReads : Expr → List Cell
  | .index t k => t.reads ++ k.reads
  | _ => []

theorem Location.eq_of_ofElement {table key : Value} {p : Location}
    (h : Location.ofElement table key = .ok p) : ∃ id i, table = .table id ∧ p = .element id i := by
  unfold Location.ofElement at h
  split at h
  · next id i =>
    cases h
    exact ⟨id, i, rfl, rfl⟩
  · cases h
  · cases h

theorem Location.eq_of_ofName {name : Option Name} {p : Location}
    (h : Location.ofName name = .ok p) : ∃ x, name = some x ∧ p = .name x := by
  cases name with
  | none => cases h
  | some x =>
    cases h
    exact ⟨x, rfl, rfl⟩

theorem Expr.index_or_name (target : Expr) :
    (∃ t k, target = .index t k) ∨
      target.location = Exec.ofExcept (Location.ofName target.qualifiedName?) ∧
        target.writes = target.qualifiedName?.toList.map .name := by
  cases target with
  | index t k => exact .inl ⟨t, k, rfl⟩
  | nil | bool _ | int _ | str _ | ident _ | member _ _ | call _ _ | binary _ _ _ | unary _ _
  | paren _ | table _ => exact .inr ⟨rfl, rfl⟩

/-- An assignment changes what a write to the target's location does. -/
theorem Expr.cell_mem_writes {target : Expr} {p : Location} {s t : State}
    (h : target.location s = .ok p t) : p.cell ∈ target.writes := by
  rcases target.index_or_name with ⟨e, k, rfl⟩ | ⟨hlocation, hwrites⟩
  · obtain ⟨table, s', -, h⟩ := Exec.bind_eq_ok_iff.mp h
    obtain ⟨key, s'', -, h⟩ := Exec.bind_eq_ok_iff.mp h
    obtain ⟨id, i, -, rfl⟩ := Location.eq_of_ofElement (Exec.ofExcept_eq_ok_iff.mp h).1
    exact List.mem_singleton_self _
  · rw [hlocation] at h
    obtain ⟨x, hx, rfl⟩ := Location.eq_of_ofName (Exec.ofExcept_eq_ok_iff.mp h).1
    rw [hwrites, hx]
    exact List.mem_singleton_self _

/-! ## Evaluation and writes -/

namespace Location

def accepts (h : Heap) : Location → Bool
  | .name _ => true
  | .element id i => (h.table id).accepts i

def written (v : Value) (s : State) : Location → State
  | .name x => { s with env := s.env.assign x v }
  | .element id i => { s with heap := s.heap.put id i v }

/-- The tables that the location refers to. -/
def held : Location → List Value
  | .name _ => []
  | .element id _ => [.table id]

variable {p : Location} {v : Value} {s t : State}

theorem write_of_accepts (h : p.accepts s.heap = true) : p.write v s = .ok () (p.written v s) := by
  cases p with
  | name x => rfl
  | element id i =>
    have hset : s.heap.set id i v = .ok (s.heap.put id i v) := if_pos h
    show Exec.setElement id i v s = _
    rw [Exec.setElement_apply, hset]
    rfl

theorem eq_of_write {u : Unit} (h : p.write v s = .ok u t) :
    p.accepts s.heap = true ∧ t = p.written v s := by
  have haccepts : p.accepts s.heap = true := by
    cases p with
    | name x => rfl
    | element id i =>
      apply Decidable.byContradiction
      intro hrejects
      have hset : s.heap.set id i v = .error (.indexOutOfBounds i) := if_neg hrejects
      change Exec.setElement id i v s = _ at h
      rw [Exec.setElement_apply, hset] at h
      cases h
  rw [write_of_accepts haccepts] at h
  cases h
  exact ⟨haccepts, rfl⟩

/-- The table of a location is there. -/
abbrev IsMade (h : Heap) (p : Location) : Prop :=
  madeTables.Knows h p.held

theorem isMade_element {h : Heap} {id : TableId} {i : Int64} :
    (element id i).IsMade h ↔ id < h.tables.size := by
  refine List.forall_mem_singleton.trans ⟨fun hmade => hmade id rfl, fun hid => ?_⟩
  rintro _ ⟨⟩
  exact hid

theorem accepts_of_grows (hmade : p.IsMade s.heap) (h : s.Grows t) :
    p.accepts t.heap = p.accepts s.heap := by
  cases p with
  | name x => rfl
  | element id i =>
    obtain ⟨rest, hrest⟩ := h.tables
    have htable : t.heap.tables[id]? = s.heap.tables[id]? := by
      rw [← Array.getElem?_toList, ← hrest, List.getElem?_append_left (isMade_element.mp hmade),
        Array.getElem?_toList]
    simp only [accepts, Heap.table, htable]

end Location

/-- The two states differ by the write alone. -/
structure Wrote (p : Location) (v : Value) (s t : State) : Prop where
  made : p.IsMade s.heap
  eq : t = p.written v s

section Wrote

variable {p : Location} {v : Value} {s t : State} {α : Type}

theorem Wrote.lookup (h : Wrote p v s t) {x : Name} (hx : p.cell ≠ .name x) :
    t.env.lookup x = s.env.lookup x := by
  obtain ⟨-, rfl⟩ := h
  cases p with
  | name y =>
    have hne : x ≠ y := by
      rintro rfl
      exact hx rfl
    exact (s.env.lookup_assign y x v).trans (if_neg hne)
  | element id i => rfl

theorem Wrote.heap (h : Wrote p v s t) (hp : p.cell ≠ .elements) : t.heap = s.heap := by
  obtain ⟨-, rfl⟩ := h
  cases p with
  | name y => rfl
  | element id i => exact absurd rfl hp

theorem Exec.lookup_wrote {x : Name} (hx : p.cell ≠ .name x) :
    Simulates (Wrote p v) (Exec.lookup x) (Exec.lookup x) := by
  intro s t h
  rw [Exec.lookup_apply, Exec.lookup_apply, h.lookup hx]
  cases s.env.lookup x with
  | none => exact .error h
  | some w => exact .ok h

/-- A table is added at the end, so one that was there is written before or after that. -/
theorem Heap.put_newTable {h : Heap} {id : TableId} (hid : id < h.tables.size) (i : Int64)
    (vs : List Value) :
    (h.put id i v).newTable vs = ((h.newTable vs).1, (h.newTable vs).2.put id i v) := by
  have htables : (h.tables.modify id (·.put i v)).push vs.toArray =
      (h.tables.push vs.toArray).modify id (·.put i v) := by
    apply Array.ext_getElem?
    intro j
    rw [Array.getElem?_push, Array.getElem?_modify, Array.getElem?_modify, Array.getElem?_push,
      Array.size_modify]
    by_cases hj : j = h.tables.size
    · have hne : id ≠ j := Nat.ne_of_lt (hj ▸ hid)
      rw [if_pos hj, if_neg hne, if_pos hj]
    · rw [if_neg hj, if_neg hj]
  simp only [Heap.newTable, Heap.put, htables, Array.size_modify]

theorem Exec.newTable_wrote (vs : List Value) :
    Simulates (Wrote p v) (Exec.newTable vs) (Exec.newTable vs) := by
  rintro s _ ⟨hmade, rfl⟩
  have hkeeps : madeTables.keeps s.heap (s.heap.newTable vs).2 := (madeTables.newTable vs trivial).1
  have hmade' : p.IsMade (s.heap.newTable vs).2 := fun w hw => madeTables.later hkeeps (hmade w hw)
  cases p with
  | name x => exact .ok ⟨hmade', rfl⟩
  | element id i =>
    have hput := s.heap.put_newTable (v := v) (Location.isMade_element.mp hmade) i vs
    show Alike _ (Exec.newTable vs s)
      (.ok (Value.table ((s.heap.put id i v).newTable vs).1)
        { s with heap := ((s.heap.put id i v).newTable vs).2 })
    rw [hput]
    exact .ok ⟨hmade', rfl⟩

theorem Exec.newIterator_wrote (it : Iterator) :
    Simulates (Wrote p v) (Exec.newIterator it) (Exec.newIterator it) := by
  rintro s _ ⟨hmade, rfl⟩
  cases p with
  | name x => exact .ok ⟨hmade, rfl⟩
  | element id i => exact .ok ⟨hmade, rfl⟩

theorem Exec.print_wrote (line : String) :
    Simulates (Wrote p v) (Exec.print line) (Exec.print line) := by
  rintro s _ ⟨hmade, rfl⟩
  cases p with
  | name x => exact .ok ⟨hmade, rfl⟩
  | element id i => exact .ok ⟨hmade, rfl⟩

theorem iterate_wrote (w : Value) : Simulates (Wrote p v) (iterate w) (iterate w) := by
  cases w with
  | table t => exact Exec.newIterator_wrote _
  | str s => exact Exec.newIterator_wrote _
  | iter id => exact .pure _
  | nil | bool _ | int _ | builtin _ => exact .throw _

theorem callValue_wrote (f : Value) (vs : List Value) :
    Simulates (Wrote p v) (callValue f vs) (callValue f vs) := by
  cases f with
  | builtin b =>
    cases b with
    | print => exact .bind (Exec.print_wrote _) fun _ => .pure _
    | each => exact iterate_wrote _
  | nil | bool _ | int _ | str _ | table _ | iter _ => exact .throw _

/-- A computation that goes by the heap when the heap is not written. -/
theorem Simulates.getHeap_wrote {f : Heap → Except RunError α}
    (h : ∀ s t, Wrote p v s t → f t.heap = f s.heap) :
    Simulates (Wrote p v) (do Exec.ofExcept (f (← get).heap))
      (do Exec.ofExcept (f (← get).heap)) := by
  intro s t hst
  show Alike _ (Exec.ofExcept (f s.heap) s) (Exec.ofExcept (f t.heap) t)
  rw [h s t hst]
  exact Simulates.ofExcept _ s t hst

/-- Only the length of a table depends on the heap. -/
theorem UnaryOp.apply_congr {op : UnaryOp} (hop : op ≠ .len) (h h' : Heap) (a : Value) :
    op.apply h' a = op.apply h a := by
  cases op with
  | len => exact absurd rfl hop
  | not => rfl
  | neg => cases a <;> rfl

end Wrote

mutual

/-- A write that an expression does not read makes no difference to its value, and it is the only
difference after its evaluation. -/
theorem Expr.eval_wrote {p : Location} {v : Value} : (e : Expr) → p.cell ∉ e.reads →
    Simulates (Wrote p v) e.eval e.eval
  | .nil, _ | .bool _, _ | .int _, _ | .str _, _ => .pure _
  | .ident x, h => Exec.lookup_wrote fun heq => h (List.mem_singleton.mpr heq)
  | .member t x, h => by
    rw [Expr.reads] at h
    rw [Expr.eval]
    cases hpath : (Expr.member t x).qualifiedName? with
    | some path =>
      rw [hpath] at h
      exact Exec.lookup_wrote fun heq => h (List.mem_singleton.mpr heq)
    | none =>
      rw [hpath] at h
      exact .bind (t.eval_wrote h) fun _ => .throw _
  | .index t k, h => by
    rw [Expr.reads, List.mem_cons, List.mem_append, not_or, not_or] at h
    obtain ⟨helements, ht, hk⟩ := h
    rw [Expr.eval]
    refine .bind (t.eval_wrote ht) fun a => ?_
    refine .bind (k.eval_wrote hk) fun i => ?_
    refine .getHeap_wrote (f := fun heap => indexValue heap a i) fun s t hst => ?_
    rw [hst.heap helements]
  | .call c as, h => by
    rw [Expr.reads, List.mem_append, not_or] at h
    rw [Expr.eval]
    refine .bind (c.eval_wrote h.1) fun f => ?_
    exact .bind (Expr.evalAll_wrote as h.2) fun vs => callValue_wrote f vs
  | .binary op l r, h => by
    rw [Expr.reads, List.mem_append, not_or] at h
    rw [Expr.eval]
    refine .bind (l.eval_wrote h.1) fun a => ?_
    split
    · exact .pure _
    · exact .bind (r.eval_wrote h.2) fun b => .ofExcept _
  | .unary op e, h => by
    rw [Expr.reads, List.mem_append, not_or] at h
    rw [Expr.eval]
    refine .bind (e.eval_wrote h.2) fun a => ?_
    refine .getHeap_wrote (f := fun heap => op.apply heap a) fun s t hst => ?_
    by_cases hop : op = .len
    · rw [if_pos hop] at h
      rw [hst.heap fun heq => h.1 (List.mem_singleton.mpr heq)]
    · exact UnaryOp.apply_congr hop _ _ a
  | .paren e, h => by
    rw [Expr.eval]
    exact e.eval_wrote h
  | .table es, h => by
    rw [Expr.eval]
    exact .bind (Expr.evalAll_wrote es h) Exec.newTable_wrote

theorem Expr.evalAll_wrote {p : Location} {v : Value} : (es : List Expr) →
    p.cell ∉ Expr.readsAll es → Simulates (Wrote p v) (Expr.evalAll es) (Expr.evalAll es)
  | [], _ => .pure _
  | e :: es, h => by
    rw [Expr.readsAll, List.mem_append, not_or] at h
    rw [Expr.evalAll]
    refine .bind (e.eval_wrote h.1) fun w => ?_
    exact .bind (Expr.evalAll_wrote es h.2) fun ws => .pure _

end

/-! ## Targets -/

theorem Expr.location_respects {C : Custody} (target : Expr) (known : List Value) :
    Respects C known Location.held target.location := by
  rcases target.index_or_name with ⟨t, k, rfl⟩ | ⟨hlocation, -⟩
  · refine .bind (t.eval_respects known) fun table => ?_
    refine .bind (k.eval_respects _) fun key => ?_
    cases hp : Location.ofElement table key with
    | error e => exact .throw e
    | ok p =>
      obtain ⟨id, i, rfl, rfl⟩ := Location.eq_of_ofElement hp
      exact .pure (List.forall_mem_singleton.mpr (.inl (by simp)))
  · rw [hlocation]
    cases hp : Location.ofName target.qualifiedName? with
    | error e => exact .throw e
    | ok p =>
      obtain ⟨x, -, rfl⟩ := Location.eq_of_ofName hp
      exact .pure (List.forall_mem_nil _)

theorem Expr.location_grows (target : Expr) : Moves State.Grows target.location := by
  rcases target.index_or_name with ⟨t, k, rfl⟩ | ⟨hlocation, -⟩
  · refine .bind t.eval_grows fun table => ?_
    exact .bind k.eval_grows fun key => .ofExcept _
  · rw [hlocation]
    exact .ofExcept _

theorem Expr.locations_grows (targets : List Expr) : Moves State.Grows (Expr.locations targets) := by
  induction targets with
  | nil => exact .pure _
  | cons target targets ih =>
    refine .bind target.location_grows fun p => ?_
    exact .bind ih fun ps => .pure _

theorem Expr.location_wrote {p : Location} {v : Value} {target : Expr}
    (h : p.cell ∉ target.locationReads) :
    Simulates (Wrote p v) target.location target.location := by
  rcases target.index_or_name with ⟨t, k, rfl⟩ | ⟨hlocation, -⟩
  · rw [Expr.locationReads, List.mem_append, not_or] at h
    refine .bind (t.eval_wrote h.1) fun table => ?_
    exact .bind (k.eval_wrote h.2) fun key => .ofExcept _
  · rw [hlocation]
    exact .ofExcept _

theorem Expr.locations_wrote {p : Location} {v : Value} {targets : List Expr}
    (h : ∀ target ∈ targets, p.cell ∉ target.locationReads) :
    Simulates (Wrote p v) (Expr.locations targets) (Expr.locations targets) := by
  induction targets with
  | nil => exact .pure _
  | cons target targets ih =>
    obtain ⟨htarget, htargets⟩ := List.forall_mem_cons.mp h
    refine .bind (Expr.location_wrote htarget) fun q => ?_
    exact .bind (ih htargets) fun qs => .pure _

/-- **A write commutes with evaluation that does not read what is written.** -/
theorem Location.write_swap {p : Location} {v : Value} {α β : Type} {x : Exec α} {f : α → Exec β}
    {s t : State} {b : β} (hx : Simulates (Wrote p v) x x) (hgrows : Moves State.Grows x)
    (hmade : p.IsMade s.heap) :
    (do p.write v; let a ← x; f a) s = .ok b t ↔ (do let a ← x; p.write v; f a) s = .ok b t := by
  have hrun : Alike (Wrote p v) (x s) (x (p.written v s)) := hx s _ ⟨hmade, rfl⟩
  have haccepts {a : α} {u : State} (hu : x s = .ok a u) : p.accepts u.heap = p.accepts s.heap := by
    have hsu := hgrows s
    rw [hu] at hsu
    exact p.accepts_of_grows hmade hsu
  constructor
  · intro h
    obtain ⟨_, s', hs', h⟩ := Exec.bind_eq_ok_iff.mp h
    obtain ⟨hp, rfl⟩ := Location.eq_of_write hs'
    obtain ⟨a, u', hu', hf⟩ := Exec.bind_eq_ok_iff.mp h
    rw [hu'] at hrun
    obtain ⟨u, hu, -, rfl⟩ := hrun.ok_right
    rw [Exec.bind_ok hu, Exec.bind_ok (Location.write_of_accepts ((haccepts hu).trans hp)), hf]
  · intro h
    obtain ⟨a, u, hu, h⟩ := Exec.bind_eq_ok_iff.mp h
    obtain ⟨_, u', hu', hf⟩ := Exec.bind_eq_ok_iff.mp h
    obtain ⟨hp, rfl⟩ := Location.eq_of_write hu'
    rw [hu] at hrun
    obtain ⟨s', hs', -, rfl⟩ := hrun.ok_left
    rw [Exec.bind_ok (Location.write_of_accepts ((haccepts hu).symm.trans hp)), Exec.bind_ok hs', hf]

theorem Location.write_respects {C : Custody} {known : List Value} {v : Value} (h : v ∈ known)
    (p : Location) : Respects C known holdsNone (p.write v) := by
  cases p with
  | name x => exact .modifyEnv fun env heap henv hknown => henv.assign (hknown v h)
  | element id i => exact Exec.setElement_respects h id i

/-! ## Targets in turn and all at once -/

/-- No target reads what an earlier one writes. -/
abbrev Expr.Independent (targets : List Expr) : Prop :=
  targets.Pairwise fun t u => ∀ c ∈ t.writes, c ∉ u.locationReads

/-- Independent targets can be taken in turn or all at once: by induction, the write to the first one
moves past the evaluation of all others. -/
theorem Expr.assignAll_iff {targets : List Expr} (h : Expr.Independent targets) {vs : List Value}
    {s t : State} (hs : s.Closed) (hvs : madeTables.Knows s.heap vs) :
    Expr.assignAll targets vs s = .ok () t ↔
      (do let ps ← Expr.locations targets; Location.writeAll ps vs) s = .ok () t := by
  induction targets generalizing vs s with
  | nil => exact Iff.rfl
  | cons target targets ih =>
    obtain ⟨hfirst, hrest⟩ := List.pairwise_cons.mp h
    let v := vs.head?.getD .nil
    have hturn : Expr.assignAll (target :: targets) vs =
        (do let p ← target.location; p.write v; Expr.assignAll targets vs.tail) := by
      rw [Expr.assignAll, Expr.assign_eq, bind_assoc]
    have honce : (do let ps ← Expr.locations (target :: targets); Location.writeAll ps vs) =
        (do
          let p ← target.location
          let ps ← Expr.locations targets
          p.write v
          Location.writeAll ps vs.tail) := by
      simp only [Expr.locations, bind_assoc, pure_bind, Location.writeAll, v]
    rw [hturn, honce, Exec.bind_eq_ok_iff, Exec.bind_eq_ok_iff]
    refine exists_congr fun p => exists_congr fun u => and_congr_right fun hp => ?_
    obtain ⟨hu, hknown⟩ := (target.location_respects vs).result hs hvs hp
    obtain ⟨hmade, hvs⟩ := List.forall_mem_append.mp hknown
    have hreads (t : Expr) (ht : t ∈ targets) : p.cell ∉ t.locationReads :=
      hfirst t ht p.cell (Expr.cell_mem_writes hp)
    have hvalues : madeTables.Knows u.heap (v :: vs) :=
      List.forall_mem_cons.mpr ⟨Custody.Knows.head hvs, hvs⟩
    calc (do p.write v; Expr.assignAll targets vs.tail) u = .ok () t
        ↔ (do
            p.write v
            let ps ← Expr.locations targets
            Location.writeAll ps vs.tail) u = .ok () t := by
          rw [Exec.bind_eq_ok_iff, Exec.bind_eq_ok_iff]
          refine exists_congr fun _ => exists_congr fun w => and_congr_right fun hw => ?_
          -- the state after the write is closed again, so the other targets can be taken at once
          obtain ⟨hw, hknown⟩ := (p.write_respects List.mem_cons_self).result hu hvalues hw
          exact ih hrest hw fun w hw => hknown w (List.mem_cons_of_mem _ (List.mem_of_mem_tail hw))
      _ ↔ (do
            let ps ← Expr.locations targets
            p.write v
            Location.writeAll ps vs.tail) u = .ok () t :=
          Location.write_swap (Expr.locations_wrote hreads) (Expr.locations_grows targets) hmade

theorem Expr.Independent.atOnce {targets : List Expr} (h : Expr.Independent targets)
    (values : List Expr) : AtOnce targets values := by
  intro limit s t hs
  rw [Stmt.exec, assignTogether, Exec.bind_eq_ok_iff, Exec.bind_eq_ok_iff]
  refine exists_congr fun vs => exists_congr fun u => and_congr_right fun hu => ?_
  obtain ⟨hclosed, hknown⟩ :=
    (Expr.evalAll_respects values []).result hs (List.forall_mem_nil _) hu
  have hvs : madeTables.Knows u.heap vs := fun v hv => hknown v (List.mem_append_left [] hv)
  rw [← Expr.assignAll_iff h hclosed hvs, Exec.bind_eq_ok_iff]
  constructor
  · rintro ⟨_, u', hu', ⟨⟩⟩
    exact hu'
  · intro ht
    exact ⟨(), t, ht, rfl⟩

/-! ## Targets that are not independent -/

theorem Expr.eval_element {e : Expr} {s : State} {id : TableId} (h : e.eval s = .ok (.table id) s)
    (i : Int64) : (Expr.index e (.int i)).eval s = .ok ((s.heap.table id).get i) s := by
  rw [Expr.eval, Exec.bind_ok h]
  rfl

theorem Expr.location_element {e : Expr} {s : State} {id : TableId}
    (h : e.eval s = .ok (.table id) s) (i : Int64) :
    (Expr.index e (.int i)).location s = .ok (.element id i) s := by
  rw [Expr.location, Exec.bind_ok h]
  rfl

/-- An assignment is not simultaneous when its second target denotes another location after the first
write, and it makes a difference which of the two is written. -/
theorem not_atOnce_of_moved {target target' : Expr} {values : List Expr} {v v' : Value}
    {s u : State} {p q q' : Location} (hs : s.Closed)
    (hvalues : Expr.evalAll values s = .ok [v, v'] u)
    (hp : target.location u = .ok p u) (hq : target'.location u = .ok q u)
    (hmoved : target'.location (p.written v u) = .ok q' (p.written v u))
    (haccepts : p.accepts u.heap = true ∧ q.accepts (p.written v u).heap = true ∧
      q'.accepts (p.written v u).heap = true)
    (hne : (q.written v' (p.written v u)).heap ≠ (q'.written v' (p.written v u)).heap) :
    ¬ AtOnce [target, target'] values := by
  intro h
  obtain ⟨hap, haq, haq'⟩ := haccepts
  have hturn : (Stmt.assign [target, target'] values).exec 0 s =
      .ok .normal (q'.written v' (p.written v u)) := by
    rw [Stmt.exec, Exec.bind_ok hvalues]
    simp only [Expr.assignAll, Expr.assign_eq, bind_assoc, List.head?_cons, List.tail_cons,
      Option.getD_some]
    rw [Exec.bind_ok hp, Exec.bind_ok (Location.write_of_accepts hap), Exec.bind_ok hmoved,
      Exec.bind_ok (Location.write_of_accepts haq')]
    rfl
  have honce : assignTogether [target, target'] values s =
      .ok () (q.written v' (p.written v u)) := by
    rw [assignTogether, Exec.bind_ok hvalues]
    simp only [Expr.locations, bind_assoc, pure_bind, Location.writeAll, List.head?_cons,
      List.tail_cons, Option.getD_some]
    rw [Exec.bind_ok hp, Exec.bind_ok hq, Exec.bind_ok (Location.write_of_accepts hap),
      Exec.bind_ok (Location.write_of_accepts haq)]
    rfl
  have hsame := honce.symm.trans ((h 0 s _ hs).mp hturn)
  exact hne (congrArg State.heap (EStateM.Result.ok.inj hsame).2)

/-- A state in which one variable is bound, to the first table of the heap. -/
def holding (x : Name) (heap : Heap) : State where
  env := ({} : Env).bindGlobal x (.table 0)
  heap := heap

theorem eval_holding (x : Name) (heap : Heap) :
    (Expr.ident x).eval (holding x heap) = .ok (.table 0) (holding x heap) := by
  apply Expr.eval_ident
  simp [holding, Env.lookup_bindGlobal, Env.lookupIn]

/-- A table that holds an empty table. -/
def nested : Heap := { tables := #[#[.table 1], #[]] }

theorem holding_nested_closed (x : Name) : (holding x nested).Closed where
  guards := trivial
  env := by
    refine Env.All.empty.bindGlobal ?_
    rintro _ ⟨⟩
    exact Nat.zero_lt_two
  tables := by
    intro id i v hv
    have hv : v = .table 1 := by
      cases id with
      | zero =>
        cases i with
        | zero => exact (Option.some.inj hv).symm
        | succ i => simp [holding, nested, Heap.table] at hv
      | succ id => cases id <;> simp [holding, nested, Heap.table] at hv
    subst hv
    rintro _ ⟨⟩
    exact Nat.one_lt_two

/-- With `x, x[1] = {}, 1` the new table gets the element, and not the old one. -/
theorem name_not_atOnce (x : Name) :
    ¬ AtOnce [.ident x, .index (.ident x) (.int 1)] [.table [], .int 1] := by
  let made : Heap := (nested.newTable []).2
  have hmoved : (Expr.ident x).eval ((Location.name x).written (.table 2) (holding x made)) =
      .ok (.table 2) ((Location.name x).written (.table 2) (holding x made)) := by
    apply Expr.eval_ident
    simp [Location.written, Env.lookup_assign]
  have hne : made.put 0 1 (.int 1) ≠ made.put 2 1 (.int 1) := by decide
  exact not_atOnce_of_moved (holding_nested_closed x) (u := holding x made) rfl rfl
    (Expr.location_element (eval_holding x made) 1) (Expr.location_element hmoved 1)
    ⟨rfl, rfl, rfl⟩ hne

/-- With `x[1], x[1][1] = {}, 1` the new table gets the element, and not the one that `x` held. -/
theorem elements_not_atOnce (x : Name) :
    ¬ AtOnce [.index (.ident x) (.int 1), .index (.index (.ident x) (.int 1)) (.int 1)]
      [.table [], .int 1] := by
  let made : Heap := (nested.newTable []).2
  let moved : Heap := made.put 0 1 (.table 2)
  have hne : moved.put 1 1 (.int 1) ≠ moved.put 2 1 (.int 1) := by decide
  exact not_atOnce_of_moved (holding_nested_closed x) (u := holding x made) rfl
    (Expr.location_element (eval_holding x made) 1)
    (Expr.location_element (Expr.eval_element (eval_holding x made) 1) 1)
    (Expr.location_element (Expr.eval_element (eval_holding x moved) 1) 1) ⟨rfl, rfl, rfl⟩ hne

/-! ## The condition -/

/-- **When an assignment is simultaneous.** Take the assignments whose earlier targets write cells in
`written` and whose later targets read the variable `x` and cells in `read` to find their locations.
All of them are simultaneous just when nothing is both written and read. -/
theorem assignment_simultaneous_iff (x : Name) (written read : List Cell) :
    (∀ targets values : List Expr,
      targets.Pairwise (fun t u => t.writes ⊆ written ∧ u.locationReads ⊆ .name x :: read) →
        AtOnce targets values) ↔
      ∀ c ∈ written, c ∉ Cell.name x :: read := by
  constructor
  · intro h c hwritten hread
    cases c with
    | name y =>
      refine name_not_atOnce y (h _ _ (List.pairwise_pair.mpr ⟨?_, ?_⟩))
      · simpa [Expr.writes, Expr.qualifiedName?] using hwritten
      · simpa [Expr.locationReads, Expr.reads] using hread
    | elements =>
      refine elements_not_atOnce x (h _ _ (List.pairwise_pair.mpr ⟨?_, ?_⟩))
      · simpa [Expr.writes] using hwritten
      · simpa [Expr.locationReads, Expr.reads] using hread
  · intro h targets values hpairs
    refine Expr.Independent.atOnce (hpairs.imp fun hpair c hc hread => ?_) values
    exact h c (hpair.1 hc) (hpair.2 hread)

/-- The state of a program after `local t = {10, 20, 30}` and `local i = 1`. -/
def indexed : State :=
  endState (Stmt.execAll 5 [.local ⟨["t"], [.table [.int 10, .int 20, .int 30]]⟩,
    .local ⟨["i"], [.int 1]⟩] (RunConfig.initial {}))

/-- After `i, t[i] = 2, 99` it is the second element of `t` that is 99. In a simultaneous assignment
it is the first one. -/
theorem index_read_after_write :
    indexed.Closed ∧ ∃ s s' : State,
      (Stmt.assign [.ident "i", .index (.ident "t") (.ident "i")] [.int 2, .int 99]).exec 5 indexed =
        .ok .normal s ∧
      assignTogether [.ident "i", .index (.ident "t") (.ident "i")] [.int 2, .int 99] indexed =
        .ok () s' ∧
      s.heap.table 0 = #[.int 10, .int 99, .int 30] ∧
      s'.heap.table 0 = #[.int 99, .int 20, .int 30] :=
  ⟨Stmt.execAll_closed 5 _ (RunConfig.initial_closed _), _, _, rfl, rfl, rfl, rfl⟩

end LoopLowering
