import LoopLowering.Proofs.Moves
import LoopLowering.Run.Program

/- What a program holds. Variables and tables hold values, and a value can refer to a
   table or an iterator in the heap. A `Custody` is a rule for such references. It says
   which values are admitted, given the heap, and how the heap may change; every single
   operation of a running program goes by it (the fields of the structure). So does a
   program: from a state in which all values that are held are admitted it runs to
   another one (`Stmt.execAll_respects`).

   A computation also has values in hand that nothing holds yet. `Respects` counts those
   that it starts with (`known`) and those of its result (`held`).

   The rule `madeTables` admits a table only when it has been made. The states that
   obey it are closed (`State.Closed`): those of a running program are
   (`RunConfig.initial_closed`, `Stmt.execAll_closed`). -/
namespace LoopLowering

/-- Whether the value refers to nothing in the heap. -/
def Value.isPlain : Value → Bool
  | .table _ | .iter _ => false
  | .nil | .bool _ | .int _ | .str _ | .builtin _ => true

/-- A rule for the values that a program holds: which of them are admitted, what the heap needs for
that, and how a later heap is related to an earlier one. -/
structure Custody where
  admits : Heap → Value → Prop
  guards : Heap → Prop
  keeps : Heap → Heap → Prop
  refl (h : Heap) : keeps h h
  trans {h h' h'' : Heap} : keeps h h' → keeps h' h'' → keeps h h''
  later {h h' : Heap} {v : Value} : keeps h h' → admits h v → admits h' v
  guarded {h h' : Heap} : keeps h h' → guards h → guards h'
  plain {h : Heap} {v : Value} : v.isPlain = true → admits h v
  newTable {h : Heap} (vs : List Value) : guards h →
    keeps h (h.newTable vs).2 ∧ admits (h.newTable vs).2 (.table (h.newTable vs).1)
  newIterator {h : Heap} (it : Iterator) : guards h →
    keeps h (h.newIterator it).2 ∧ admits (h.newIterator it).2 (.iter (h.newIterator it).1)
  next {h : Heap} {id : IterId} : admits h (.iter id) → keeps h (h.next id).2
  put {h : Heap} (id : TableId) (index : Int64) (v : Value) : keeps h (h.put id index v)

/-! ## Values of variables -/

/-- Every value that a variable has, in whatever scope, satisfies the predicate. -/
structure Env.All (p : Value → Prop) (env : Env) : Prop where
  globals : ∀ x v, env.globals.get? x = some v → p v
  scopes : ∀ scope ∈ env.scopes, ∀ x v, scope.get? x = some v → p v

section Variables

variable {p q : Value → Prop} {env : Env} {x : Name} {v : Value}

theorem Scope.all_insert {scope : Scope} (hs : ∀ x v, scope.get? x = some v → p v) (hv : p v) :
    ∀ y w, (scope.insert x v).get? y = some w → p w := by
  intro y w hw
  rw [Scope.get?_insert] at hw
  split at hw
  · cases hw
    exact hv
  · exact hs y w hw

theorem Env.all_lookupIn {scopes : List Scope}
    (hs : ∀ scope ∈ scopes, ∀ x v, scope.get? x = some v → p v)
    (hv : Env.lookupIn x scopes = some v) : p v := by
  induction scopes with
  | nil => cases hv
  | cons scope scopes ih =>
    obtain ⟨hscope, hscopes⟩ := List.forall_mem_cons.mp hs
    rcases Option.or_eq_some_iff.mp hv with hv | ⟨-, hv⟩
    · exact hscope x v hv
    · exact ih hscopes hv

theorem Env.all_assignIn {scopes scopes' : List Scope}
    (hs : ∀ scope ∈ scopes, ∀ x v, scope.get? x = some v → p v) (hv : p v)
    (heq : Env.assignIn x v scopes = some scopes') :
    ∀ scope ∈ scopes', ∀ x v, scope.get? x = some v → p v := by
  induction scopes generalizing scopes' with
  | nil => cases heq
  | cons scope scopes ih =>
    obtain ⟨hscope, hscopes⟩ := List.forall_mem_cons.mp hs
    unfold Env.assignIn at heq
    split at heq
    · cases heq
      exact List.forall_mem_cons.mpr ⟨Scope.all_insert hscope hv, hscopes⟩
    · obtain ⟨rest, hrest, rfl⟩ := Option.map_eq_some_iff.mp heq
      exact List.forall_mem_cons.mpr ⟨hscope, ih hscopes hrest⟩

namespace Env.All

theorem imp (he : env.All p) (hpq : ∀ v, p v → q v) : env.All q where
  globals x v hv := hpq v (he.globals x v hv)
  scopes scope hs x v hv := hpq v (he.scopes scope hs x v hv)

theorem empty : ({} : Env).All p where
  globals x v hv := by cases hv
  scopes := List.forall_mem_nil _

theorem lookup (he : env.All p) (hv : env.lookup x = some v) : p v := by
  rcases Option.or_eq_some_iff.mp hv with hv | ⟨-, hv⟩
  · exact Env.all_lookupIn he.scopes hv
  · exact he.globals x v hv

theorem bindGlobal (he : env.All p) (hv : p v) : (env.bindGlobal x v).All p :=
  ⟨Scope.all_insert he.globals hv, he.scopes⟩

theorem declare (he : env.All p) (hv : p v) : (env.declare x v).All p := by
  obtain ⟨globals, scopes⟩ := env
  cases scopes with
  | nil => exact he.bindGlobal hv
  | cons scope scopes =>
    obtain ⟨hscope, hscopes⟩ := List.forall_mem_cons.mp he.scopes
    exact ⟨he.globals, List.forall_mem_cons.mpr ⟨Scope.all_insert hscope hv, hscopes⟩⟩

theorem assign (he : env.All p) (hv : p v) : (env.assign x v).All p := by
  unfold Env.assign
  split
  · next scopes heq => exact ⟨he.globals, Env.all_assignIn he.scopes hv heq⟩
  · exact he.bindGlobal hv

theorem declareAll (he : env.All p) (hnil : p .nil) (xs : List Name) {vs : List Value}
    (hvs : ∀ v ∈ vs, p v) : (env.declareAll xs vs).All p := by
  induction xs generalizing env vs with
  | nil => exact he
  | cons x xs ih =>
    cases vs with
    | nil => exact ih (he.declare hnil) hvs
    | cons v vs =>
      obtain ⟨hv, hvs⟩ := List.forall_mem_cons.mp hvs
      exact ih (he.declare hv) hvs

theorem openScope (he : env.All p) : env.openScope.All p := by
  refine ⟨he.globals, List.forall_mem_cons.mpr ⟨?_, he.scopes⟩⟩
  intro x v hv
  cases hv

theorem closeScope (he : env.All p) : env.closeScope.All p :=
  ⟨he.globals, fun scope hs => he.scopes scope (List.mem_of_mem_tail hs)⟩

end Env.All

end Variables

/-! ## Elements of tables -/

theorem Heap.table_newTable (h : Heap) (vs : List Value) (id : TableId) :
    (h.newTable vs).2.table id = if id = h.tables.size then vs.toArray else h.table id := by
  simp only [Heap.newTable, Heap.table, Array.getElem?_push]
  split <;> rfl

theorem Heap.table_put (h : Heap) (id id' : TableId) (index : Int64) (v : Value) :
    (h.put id index v).table id' = h.table id' ∨
      (h.put id index v).table id' = (h.table id').put index v := by
  simp only [Heap.put, Heap.table, Array.getElem?_modify]
  split
  · cases h.tables[id']? with
    | none => exact .inl rfl
    | some t => exact .inr rfl
  · exact .inl rfl

/-- What a table holds after a write is the value written or was there before. -/
theorem Table.getElem?_put {t : Table} {index : Int64} {v w : Value} {i : Nat}
    (hw : (t.put index v)[i]? = some w) : w = v ∨ t[i]? = some w := by
  unfold Table.put at hw
  split at hw
  · split at hw
    · next hlt =>
      rw [Array.getElem?_setIfInBounds, if_pos hlt] at hw
      split at hw
      · exact .inl (Option.some.inj hw).symm
      · exact .inr hw
    · rw [Array.getElem?_push] at hw
      split at hw
      · exact .inl (Option.some.inj hw).symm
      · exact .inr hw
  · exact .inr hw

theorem Heap.tables_next (h : Heap) (id : IterId) : (h.next id).2.tables = h.tables := by
  unfold Heap.next
  split <;> rfl

/-! ## States and computations -/

/-- All values that are held are admitted. -/
structure Custody.Holds (C : Custody) (s : State) : Prop where
  guards : C.guards s.heap
  env : s.env.All (C.admits s.heap)
  tables : ∀ (id : TableId) (i : Nat) (v : Value), (s.heap.table id)[i]? = some v →
    C.admits s.heap v

abbrev Custody.Knows (C : Custody) (heap : Heap) (vs : List Value) : Prop :=
  ∀ v ∈ vs, C.admits heap v

/-- A run that started with the heap `h` went by the rule, and the values that its result holds are
admitted. -/
def Custody.Kept {α : Type} (C : Custody) (held : α → List Value) (h : Heap) :
    EStateM.Result RunError State α → Prop
  | .ok a t => C.Holds t ∧ C.keeps h t.heap ∧ C.Knows t.heap (held a)
  | .error _ t => C.Holds t ∧ C.keeps h t.heap

/-- The computation, which makes use of the values in `known`, goes by the rule. The values that its
result holds are given by `held`. -/
def Respects {α : Type} (C : Custody) (known : List Value) (held : α → List Value) (x : Exec α) :
    Prop :=
  ∀ s : State, C.Holds s → C.Knows s.heap known → C.Kept held s.heap (x s)

abbrev holdsNone {α : Type} : α → List Value := fun _ => []

abbrev holdsOne : Value → List Value := fun v => [v]

variable {C : Custody}

theorem Custody.Knows.head {heap : Heap} {vs : List Value} (h : C.Knows heap vs) :
    C.admits heap (vs.head?.getD .nil) := by
  cases vs with
  | nil => exact C.plain rfl
  | cons v vs => exact h v List.mem_cons_self

/-- A change of the heap by the rule, after which all elements of tables are admitted. -/
theorem Custody.Holds.setHeap {s : State} {h : Heap} (hs : C.Holds s) (hkeeps : C.keeps s.heap h)
    (htables : ∀ (id : TableId) (i : Nat) (v : Value), (h.table id)[i]? = some v → C.admits h v) :
    C.Holds { s with heap := h } where
  guards := C.guarded hkeeps hs.guards
  env := hs.env.imp fun _ hv => C.later hkeeps hv
  tables := htables

/-- Another rule, for a heap with the same tables, that admits all that was admitted. -/
theorem Custody.Holds.imp {C' : Custody} {s : State} {h : Heap} (hs : C.Holds s)
    (hguards : C'.guards h) (htables : h.tables = s.heap.tables)
    (himp : ∀ v, C.admits s.heap v → C'.admits h v) : C'.Holds { s with heap := h } where
  guards := hguards
  env := hs.env.imp himp
  tables id i v hv := by
    refine himp v (hs.tables id i v ?_)
    rw [Heap.table, ← htables]
    exact hv

/-- A change of the heap by the rule that leaves the tables alone. -/
theorem Custody.Holds.sameTables {s : State} {h : Heap} (hs : C.Holds s)
    (hkeeps : C.keeps s.heap h) (htables : h.tables = s.heap.tables) :
    C.Holds { s with heap := h } :=
  hs.imp (C.guarded hkeeps hs.guards) htables fun _ hv => C.later hkeeps hv

namespace Respects

variable {α β : Type} {known : List Value} {held : α → List Value} {held' : β → List Value}

theorem pure {a : α} (h : ∀ v ∈ held a, v ∈ known ∨ v.isPlain = true) :
    Respects C known held (pure a) := by
  intro s hs hknown
  refine ⟨hs, C.refl _, fun v hv => ?_⟩
  rcases h v hv with hmem | hplain
  · exact hknown v hmem
  · exact C.plain hplain

theorem throw (e : RunError) : Respects C known held (throw e) :=
  fun s hs _ => ⟨hs, C.refl s.heap⟩

theorem bind {x : Exec α} {f : α → Exec β} (hx : Respects C known held x)
    (hf : ∀ a, Respects C (held a ++ known) held' (f a)) :
    Respects C known held' (x >>= f) := by
  intro s hs hknown
  have hrun := hx s hs hknown
  show C.Kept held' s.heap (EStateM.bind x f s)
  unfold EStateM.bind
  cases hr : x s with
  | error e t => rw [hr] at hrun; exact hrun
  | ok a t =>
    rw [hr] at hrun
    obtain ⟨ht, hkeeps, hheld⟩ := hrun
    -- what was known before is still admitted
    have hnow : C.Knows t.heap (held a ++ known) :=
      List.forall_mem_append.mpr ⟨hheld, fun v hv => C.later hkeeps (hknown v hv)⟩
    have hrest := hf a t ht hnow
    dsimp only
    cases hr' : f a t with
    | error e u =>
      rw [hr'] at hrest
      exact ⟨hrest.1, C.trans hkeeps hrest.2⟩
    | ok b u =>
      rw [hr'] at hrest
      exact ⟨hrest.1, C.trans hkeeps hrest.2.1, hrest.2.2⟩

theorem seq {x : Exec α} {f : α → Exec β} (hx : Respects C known holdsNone x)
    (hf : ∀ a, Respects C known held' (f a)) : Respects C known held' (x >>= f) :=
  hx.bind hf

theorem mono {known' : List Value} {x : Exec α} (hx : Respects C known held x)
    (h : known ⊆ known') : Respects C known' held x :=
  fun s hs hknown => hx s hs fun v hv => hknown v (h hv)

/-- A plain value is known without being told. -/
theorem forget {x : Exec α} {v : Value} (hv : v.isPlain = true)
    (hx : Respects C (v :: known) held x) : Respects C known held x :=
  fun s hs hknown => hx s hs (List.forall_mem_cons.mpr ⟨C.plain hv, hknown⟩)

/-- A change of the state that is neither one of the variables nor one of the heap. -/
theorem modify {f : State → State} (h : ∀ s, (f s).env = s.env ∧ (f s).heap = s.heap) :
    Respects C known holdsNone (modify f : Exec PUnit) := by
  intro s hs _
  obtain ⟨henv, hheap⟩ := h s
  refine ⟨⟨?_, ?_, ?_⟩, ?_, List.forall_mem_nil _⟩
  · exact hheap ▸ hs.guards
  · exact hheap ▸ henv ▸ hs.env
  · exact hheap ▸ hs.tables
  · show C.keeps s.heap (f s).heap
    rw [hheap]
    exact C.refl _

theorem modifyEnv {f : Env → Env}
    (h : ∀ env heap, env.All (C.admits heap) → C.Knows heap known → (f env).All (C.admits heap)) :
    Respects C known holdsNone (Exec.modifyEnv f) :=
  fun s hs hknown =>
    ⟨⟨hs.guards, h s.env s.heap hs.env hknown, hs.tables⟩, C.refl _, List.forall_mem_nil _⟩

/-- After a computation that ends with a result, the values that this holds and those that were known
before are admitted. -/
theorem result {x : Exec α} {a : α} {s t : State} (hx : Respects C known held x) (hs : C.Holds s)
    (hknown : C.Knows s.heap known) (hr : x s = .ok a t) :
    C.Holds t ∧ C.Knows t.heap (held a ++ known) := by
  have hrun := hx s hs hknown
  rw [hr] at hrun
  obtain ⟨ht, hkeeps, hheld⟩ := hrun
  exact ⟨ht, List.forall_mem_append.mpr ⟨hheld, fun v hv => C.later hkeeps (hknown v hv)⟩⟩

/-- However a computation ends that has no values of its own, it leaves a state that obeys the rule. -/
theorem endState {x : Exec α} (h : Respects C [] held x) {s : State} (hs : C.Holds s) :
    C.Holds (endState (x s)) := by
  have hrun := h s hs (List.forall_mem_nil _)
  cases hr : x s with
  | ok a t => rw [hr] at hrun; exact hrun.1
  | error e t => rw [hr] at hrun; exact hrun.1

end Respects

section Operations

variable {known : List Value}

theorem Exec.lookup_respects (x : Name) : Respects C known holdsOne (Exec.lookup x) := by
  intro s hs _
  rw [Exec.lookup_apply]
  cases hx : s.env.lookup x with
  | none => exact ⟨hs, C.refl _⟩
  | some v => exact ⟨hs, C.refl _, List.forall_mem_singleton.mpr (hs.env.lookup hx)⟩

theorem Exec.newTable_respects {vs : List Value} (h : vs ⊆ known) :
    Respects C known holdsOne (Exec.newTable vs) := by
  intro s hs hknown
  obtain ⟨hkeeps, hnew⟩ := C.newTable vs hs.guards
  refine ⟨hs.setHeap hkeeps fun id i v hv => C.later hkeeps ?_, hkeeps,
    List.forall_mem_singleton.mpr hnew⟩
  change ((s.heap.newTable vs).2.table id)[i]? = some v at hv
  rw [Heap.table_newTable] at hv
  split at hv
  · rw [List.getElem?_toArray] at hv
    exact hknown v (h (List.mem_of_getElem? hv))
  · exact hs.tables id i v hv

theorem Exec.newIterator_respects (it : Iterator) :
    Respects C known holdsOne (Exec.newIterator it) := by
  intro s hs _
  obtain ⟨hkeeps, hnew⟩ := C.newIterator it hs.guards
  exact ⟨hs.sameTables hkeeps rfl, hkeeps, List.forall_mem_singleton.mpr hnew⟩

/-- What an iterator delivers is admitted, being an element of a table or a character. -/
theorem Custody.Holds.advance {s : State} (hs : C.Holds s) {it it' : Iterator} {v : Value}
    (h : s.heap.advance it = some (v, it')) : C.admits s.heap v := by
  cases it with
  | elements t n =>
    obtain ⟨w, hw, heq⟩ := Option.map_eq_some_iff.mp h
    cases heq
    exact hs.tables t n v hw
  | chars cs =>
    cases cs with
    | nil => cases h
    | cons c cs =>
      cases h
      exact C.plain rfl

theorem Custody.Holds.next {s : State} (hs : C.Holds s) {id : IterId} {v : Value}
    (h : (s.heap.next id).1 = some v) : C.admits s.heap v := by
  unfold Heap.next at h
  split at h
  · next w it hit =>
    obtain ⟨it', -, hadvance⟩ := Option.bind_eq_some_iff.mp hit
    cases h
    exact hs.advance hadvance
  · cases h

theorem Exec.nextValue_respects {id : IterId} (h : .iter id ∈ known) :
    Respects C known Option.toList (Exec.nextValue id) := by
  intro s hs hknown
  have hkeeps : C.keeps s.heap (s.heap.next id).2 := C.next (hknown _ h)
  refine ⟨hs.sameTables hkeeps (s.heap.tables_next id), hkeeps, fun v hv => ?_⟩
  exact C.later hkeeps (hs.next (Option.mem_toList.mp hv))

theorem Exec.setElement_respects {v : Value} (h : v ∈ known) (id : TableId) (index : Int64) :
    Respects C known holdsNone (Exec.setElement id index v) := by
  intro s hs hknown
  rw [Exec.setElement_apply]
  unfold Heap.set
  split
  · next heap heq =>
    split at heq
    · cases heq
      have hkeeps : C.keeps s.heap (s.heap.put id index v) := C.put id index v
      refine ⟨hs.setHeap hkeeps fun id' i w hw => C.later hkeeps ?_, hkeeps, List.forall_mem_nil _⟩
      rcases s.heap.table_put id id' index v with htable | htable
      · rw [htable] at hw
        exact hs.tables id' i w hw
      · rw [htable] at hw
        rcases Table.getElem?_put hw with rfl | hw
        · exact hknown _ h
        · exact hs.tables id' i w hw
    · cases heq
  · exact ⟨hs, C.refl _⟩

theorem Exec.inScope_respects {α : Type} {held : α → List Value} {x : Exec α}
    (h : Respects C known held x) : Respects C known held (Exec.inScope x) := by
  intro s hs hknown
  have hrun := h { s with env := s.env.openScope } ⟨hs.guards, hs.env.openScope, hs.tables⟩ hknown
  unfold Exec.inScope
  cases hr : x { s with env := s.env.openScope } with
  | ok a t =>
    rw [hr] at hrun
    exact ⟨⟨hrun.1.guards, hrun.1.env.closeScope, hrun.1.tables⟩, hrun.2⟩
  | error e t =>
    rw [hr] at hrun
    exact ⟨⟨hrun.1.guards, hrun.1.env.closeScope, hrun.1.tables⟩, hrun.2⟩

theorem Exec.ofExcept_respects {r : Except RunError Value}
    (h : ∀ v, r = .ok v → v ∈ known ∨ v.isPlain = true) :
    Respects C known holdsOne (Exec.ofExcept r) := by
  cases r with
  | ok v => exact .pure (List.forall_mem_singleton.mpr (h v rfl))
  | error e => exact .throw e

end Operations

/-! ## Expressions -/

theorem isPlain_of_int_map {r : Except RunError Int64} {v : Value} (h : Value.int <$> r = .ok v) :
    v.isPlain = true := by
  cases r with
  | error e => cases h
  | ok n =>
    cases h
    rfl

/-- The result of an operator is one of its operands or plain. -/
theorem BinaryOp.apply_result {op : BinaryOp} {a b v : Value} (h : op.apply a b = .ok v) :
    v ∈ [b, a] ∨ v.isPlain = true := by
  cases op with
  | and | or =>
    cases h
    split <;> simp
  | eq | ne =>
    cases h
    exact .inr rfl
  | lt | le | gt | ge =>
    simp only [BinaryOp.apply, BinaryOp.compare] at h
    split at h
    · cases h
      exact .inr rfl
    · cases h
  | concat =>
    simp only [BinaryOp.apply] at h
    split at h
    · cases h
      exact .inr rfl
    · cases h
  | add | sub | mul | floorDiv | mod =>
    simp only [BinaryOp.apply, BinaryOp.arithmetic] at h
    split at h
    · exact .inr (isPlain_of_int_map h)
    · cases h
  | div | pow => cases h

theorem UnaryOp.apply_result {op : UnaryOp} {heap : Heap} {a v : Value}
    (h : op.apply heap a = .ok v) : v.isPlain = true := by
  unfold UnaryOp.apply at h
  split at h
  · cases h
    rfl
  · exact isPlain_of_int_map h
  · exact isPlain_of_int_map h
  · exact isPlain_of_int_map h
  · cases h

section Expressions

variable {known : List Value}

theorem Custody.Holds.indexValue {s : State} (hs : C.Holds s) {a k v : Value}
    (h : LoopLowering.indexValue s.heap a k = .ok v) : C.admits s.heap v := by
  unfold LoopLowering.indexValue at h
  split at h
  · next id i =>
    cases h
    unfold Table.get
    split
    · next n _ =>
      cases hv : (s.heap.table id)[n]? with
      | none => exact C.plain rfl
      | some v => exact hs.tables id n v hv
    · exact C.plain rfl
  · cases h
    exact C.plain rfl
  · cases h

theorem iterate_respects {v : Value} (h : v ∈ known) : Respects C known holdsOne (iterate v) := by
  cases v with
  | table t => exact Exec.newIterator_respects _
  | str s => exact Exec.newIterator_respects _
  | iter id => exact .pure (List.forall_mem_singleton.mpr (.inl h))
  | nil | bool _ | int _ | builtin _ => exact .throw _

theorem callValue_respects (f : Value) {vs : List Value} (h : vs ⊆ known) :
    Respects C known holdsOne (callValue f vs) := by
  cases f with
  | builtin b =>
    cases b with
    | print =>
      refine .bind (.modify fun _ => ⟨rfl, rfl⟩) fun _ => ?_
      exact .pure (List.forall_mem_singleton.mpr (.inr rfl))
    | each =>
      cases vs with
      | nil => exact .throw _
      | cons v vs => exact iterate_respects (h List.mem_cons_self)
  | nil | bool _ | int _ | str _ | table _ | iter _ => exact .throw _

mutual

theorem Expr.eval_respects : (e : Expr) → (known : List Value) → Respects C known holdsOne e.eval
  | .nil, _ | .bool _, _ | .int _, _ | .str _, _ =>
    .pure (List.forall_mem_singleton.mpr (.inr rfl))
  | .ident x, _ => Exec.lookup_respects x
  | .member t x, known => by
    rw [Expr.eval]
    split
    · exact Exec.lookup_respects _
    · exact .bind (t.eval_respects known) fun _ => .throw _
  | .index t k, known => by
    rw [Expr.eval]
    refine .bind (t.eval_respects known) fun a => ?_
    refine .bind (k.eval_respects _) fun i => ?_
    intro s hs _
    show C.Kept holdsOne s.heap (Exec.ofExcept (indexValue s.heap a i) s)
    cases hv : indexValue s.heap a i with
    | error e => exact ⟨hs, C.refl _⟩
    | ok v => exact ⟨hs, C.refl _, List.forall_mem_singleton.mpr (hs.indexValue hv)⟩
  | .call c as, known => by
    rw [Expr.eval]
    refine .bind (c.eval_respects known) fun f => ?_
    refine .bind (Expr.evalAll_respects as _) fun vs => ?_
    exact callValue_respects f (List.subset_append_left _ _)
  | .binary op l r, known => by
    rw [Expr.eval]
    refine .bind (l.eval_respects known) fun a => ?_
    split
    · exact .pure (List.forall_mem_singleton.mpr (.inl List.mem_cons_self))
    · refine .bind (r.eval_respects _) fun b => Exec.ofExcept_respects fun v hv => ?_
      exact (BinaryOp.apply_result hv).imp_left fun hmem => List.mem_append_left known hmem
  | .unary op e, known => by
    rw [Expr.eval]
    refine .bind (e.eval_respects known) fun a => ?_
    intro s
    exact Exec.ofExcept_respects (fun v hv => .inr (UnaryOp.apply_result hv)) s
  | .paren e, known => by
    rw [Expr.eval]
    exact e.eval_respects known
  | .table es, known => by
    rw [Expr.eval]
    refine .bind (Expr.evalAll_respects es known) fun vs => ?_
    exact Exec.newTable_respects (List.subset_append_left _ _)

theorem Expr.evalAll_respects : (es : List Expr) → (known : List Value) →
    Respects C known id (Expr.evalAll es)
  | [], _ => .pure (List.forall_mem_nil _)
  | e :: es, known => by
    rw [Expr.evalAll]
    refine .bind (e.eval_respects known) fun v => ?_
    refine .bind (Expr.evalAll_respects es _) fun vs => .pure fun w hw => .inl ?_
    rcases List.mem_cons.mp hw with rfl | hw
    · exact List.mem_append_right _ List.mem_cons_self
    · exact List.mem_append_left _ hw

end

end Expressions

/-! ## Statements -/

section Statements

variable {known : List Value}

theorem Expr.assign_respects (target : Expr) {v : Value} (h : v ∈ known) :
    Respects C known holdsNone (target.assign v) := by
  unfold Expr.assign
  split
  · next t k =>
    refine .bind (t.eval_respects known) fun a => ?_
    refine .bind (k.eval_respects _) fun i => ?_
    split
    · exact Exec.setElement_respects (List.mem_append_right _ (List.mem_append_right _ h)) _ _
    · exact .throw _
    · exact .throw _
  · split
    · exact .modifyEnv fun env heap henv hknown => henv.assign (hknown v h)
    · exact .throw _

theorem Expr.assignAll_respects (ts : List Expr) {vs : List Value} (h : vs ⊆ known) :
    Respects C known holdsNone (Expr.assignAll ts vs) := by
  induction ts generalizing vs with
  | nil => exact .pure (List.forall_mem_nil _)
  | cons t ts ih =>
    rw [Expr.assignAll]
    cases vs with
    | nil => exact .seq (.forget rfl (t.assign_respects List.mem_cons_self)) fun _ => ih h
    | cons v vs =>
      obtain ⟨hv, hvs⟩ := List.cons_subset.mp h
      exact .bind (t.assign_respects hv) fun _ => ih hvs

theorem Declaration.exec_respects (d : Declaration) (known : List Value) :
    Respects C known holdsNone d.exec := by
  refine .bind (Expr.evalAll_respects d.values known) fun vs => ?_
  apply Respects.modifyEnv
  intro env heap henv hknown
  exact henv.declareAll (C.plain rfl) d.names fun v hv => hknown v (List.mem_append_left _ hv)

theorem Bound.eval_respects (bound : Bound) (e : Expr) (known : List Value) :
    Respects C known holdsNone (bound.eval e) := by
  refine .bind (e.eval_respects known) fun v => ?_
  split
  · exact .pure (List.forall_mem_nil _)
  · exact .throw _

theorem evalBounds_respects (start limit : Expr) (step : Option Expr) (known : List Value) :
    Respects C known holdsNone (evalBounds start limit step) := by
  refine .bind (Bound.initial.eval_respects start known) fun a => ?_
  refine .bind (Bound.limit.eval_respects limit _) fun b => ?_
  refine .seq ?_ fun s => ?_
  · cases step with
    | none => exact .pure (List.forall_mem_nil _)
    | some e => exact Bound.step.eval_respects e _
  · split
    · exact .throw _
    · exact .pure (List.forall_mem_nil _)

theorem Exec.log_respects (event : LoopEvent) (known : List Value) :
    Respects C known holdsNone (Exec.log event) :=
  .modify fun _ => ⟨rfl, rfl⟩

theorem Flow.passEnd_respects {β : Type} {next : Exec (PassEnd β)}
    (h : Respects C known holdsNone next) (flow : Flow) :
    Respects C known holdsNone (flow.passEnd next) := by
  cases flow with
  | normal => exact h
  | broke => exact .pure (List.forall_mem_nil _)
  | returned vs => exact .pure (List.forall_mem_nil _)

theorem runPasses_respects {α β : Type} (held : α → List Value) {limit : Nat} {kind : LoopKind}
    {begins : β → Exec (Option α)} {pass : α → Exec (PassEnd β)}
    (hb : ∀ b, Respects C known (fun a => a.toList.flatMap held) (begins b))
    (hp : ∀ a, Respects C (held a ++ known) holdsNone (pass a)) (left : Nat) (b : β) :
    Respects C known holdsNone (runPasses limit kind begins pass left b) := by
  have hfin (known : List Value) (passes : Nat) :
      Respects C known holdsNone (finishLoop kind passes) :=
    .bind (Exec.log_respects _ _) fun _ => .pure (List.forall_mem_nil _)
  induction left generalizing b with
  | zero =>
    rw [runPasses_zero]
    refine .bind (hb b) fun test => ?_
    cases test with
    | none => exact hfin _ _
    | some a => exact .throw _
  | succ left ih =>
    rw [runPasses_succ]
    refine .bind (hb b) fun test => ?_
    cases test with
    | none => exact hfin _ _
    | some a =>
      have hpass : Respects C ((some a).toList.flatMap held ++ known) holdsNone (pass a) := by
        simpa using hp a
      refine .bind hpass fun ended => ?_
      cases ended with
      | again next => exact (ih next).mono (List.subset_append_right _ _)
      | stop => exact hfin _ _
      | returned vs => exact .pure (List.forall_mem_nil _)

section Loops

variable {limit : Nat} {body : Exec Flow} (h : ∀ known, Respects C known holdsNone body)

include h

theorem whileLoop_respects {condition : Exec Value}
    (hc : ∀ known, Respects C known holdsOne condition) :
    Respects C known holdsNone (whileLoop limit condition body) := by
  apply runPasses_respects holdsNone
  · intro _
    exact .bind (hc known) fun v => .pure (by simp)
  · intro _
    refine .bind (Exec.inScope_respects (h _)) fun flow => ?_
    exact flow.passEnd_respects (.pure (List.forall_mem_nil _))

theorem repeatLoop_respects {condition : Exec Value}
    (hc : ∀ known, Respects C known holdsOne condition) :
    Respects C known holdsNone (repeatLoop limit body condition) := by
  apply runPasses_respects holdsNone
  · intro _
    exact .pure (by simp)
  · intro _
    refine Exec.inScope_respects (.bind (h _) fun flow => ?_)
    exact flow.passEnd_respects (.bind (hc _) fun v => .pure (List.forall_mem_nil _))

theorem boundBody_respects (x : Name) {v : Value} (hv : v ∈ known ∨ v.isPlain = true) :
    Respects C known holdsNone (Exec.inScope do Exec.modifyEnv (·.declare x v); body) := by
  refine Exec.inScope_respects (.bind (.modifyEnv fun env heap henv hknown => ?_) fun _ => h _)
  rcases hv with hv | hv
  · exact henv.declare (hknown v hv)
  · exact henv.declare (C.plain hv)

theorem forInLoop_respects (x : Name) {source : Exec Value}
    (hs : Respects C known holdsOne source) :
    Respects C known holdsNone (forInLoop limit x source body) := by
  refine .bind hs fun v => ?_
  cases v with
  | iter id =>
    apply runPasses_respects holdsOne
    · intro _
      refine .bind (Exec.nextValue_respects List.mem_cons_self) fun v => .pure fun w hw => .inl ?_
      rw [List.flatMap_singleton', Option.mem_toList] at hw
      refine List.mem_append_left _ (Option.mem_toList.mpr ?_)
      exact (Option.filter_eq_some_iff.mp hw).1
    · intro v
      refine .bind (boundBody_respects h x (.inl List.mem_cons_self)) fun flow => ?_
      exact flow.passEnd_respects (.pure (List.forall_mem_nil _))
  | nil | bool _ | int _ | str _ | table _ | builtin _ => exact .throw _

theorem numericLoop_respects (x : Name) (start last step : Int64) :
    Respects C known holdsNone (numericLoop limit x start last step body) := by
  apply runPasses_respects holdsNone
  · intro _
    exact .pure (by simp)
  · intro current
    refine .bind (boundBody_respects h x (.inr rfl)) fun flow => ?_
    exact flow.passEnd_respects (.pure (List.forall_mem_nil _))

end Loops

end Statements

mutual

theorem Stmt.exec_respects (limit : Nat) : (s : Stmt) → (known : List Value) →
    Respects C known holdsNone (s.exec limit)
  | .expr e, known => by
    rw [Stmt.exec]
    refine .seq ?_ fun _ => .pure (List.forall_mem_nil _)
    exact .bind (e.eval_respects known) fun _ => .pure (List.forall_mem_nil _)
  | .local d, known => by
    rw [Stmt.exec]
    exact .bind (d.exec_respects known) fun _ => .pure (List.forall_mem_nil _)
  | .assign ts vs, known => by
    rw [Stmt.exec]
    refine .bind (Expr.evalAll_respects vs known) fun values => ?_
    refine .seq (Expr.assignAll_respects ts (List.subset_append_left values known)) fun _ => ?_
    exact .pure (List.forall_mem_nil _)
  | .loop l, known => by
    rw [Stmt.exec]
    exact .bind (Exec.log_respects _ known) fun _ => l.exec_respects limit _
  | .do b, known => by
    rw [Stmt.exec]
    exact b.exec_respects limit known
  | .if c t none, known => by
    rw [Stmt.exec]
    refine .bind (c.eval_respects known) fun v => ?_
    split
    · exact t.exec_respects limit _
    · exact .pure (List.forall_mem_nil _)
  | .if c t (some e), known => by
    rw [Stmt.exec]
    refine .bind (c.eval_respects known) fun v => ?_
    split
    · exact t.exec_respects limit _
    · exact e.exec_respects limit _
  | .break, _ => .pure (List.forall_mem_nil _)
  | .return vs, known => by
    rw [Stmt.exec]
    exact .bind (Expr.evalAll_respects vs known) fun _ => .pure (List.forall_mem_nil _)

theorem Block.exec_respects (limit : Nat) : (b : Block) → (known : List Value) →
    Respects C known holdsNone (b.exec limit)
  | ⟨_, ss⟩, known => by
    rw [Block.exec]
    exact Exec.inScope_respects (Stmt.execAll_respects limit ss known)

theorem Loop.exec_respects (limit : Nat) : (l : Loop) → (known : List Value) →
    Respects C known holdsNone (l.exec limit)
  | .while c ⟨_, ss⟩, known => by
    rw [Loop.exec]
    exact whileLoop_respects (Stmt.execAll_respects limit ss) c.eval_respects
  | .repeat ⟨_, ss⟩ c, known => by
    rw [Loop.exec]
    exact repeatLoop_respects (Stmt.execAll_respects limit ss) c.eval_respects
  | .forIn x source ⟨_, ss⟩, known => by
    rw [Loop.exec]
    exact forInLoop_respects (Stmt.execAll_respects limit ss) x (source.toExpr.eval_respects known)
  | .numericFor x i l s ⟨_, ss⟩, known => by
    rw [Loop.exec]
    refine .bind (evalBounds_respects i l s known) fun bounds => ?_
    exact numericLoop_respects (Stmt.execAll_respects limit ss) x _ _ _

/-- **A program goes by the rule,** whatever it holds at its start. -/
theorem Stmt.execAll_respects (limit : Nat) : (ss : List Stmt) → (known : List Value) →
    Respects C known holdsNone (Stmt.execAll limit ss)
  | [], _ => .pure (List.forall_mem_nil _)
  | s :: ss, known => by
    rw [Stmt.execAll]
    refine .bind (s.exec_respects limit known) fun flow => ?_
    cases flow with
    | normal => exact Stmt.execAll_respects limit ss _
    | broke => exact .pure (List.forall_mem_nil _)
    | returned vs => exact .pure (List.forall_mem_nil _)

end

theorem RunConfig.initial_holds (config : RunConfig) (hguards : C.guards {}) :
    C.Holds config.initial where
  guards := hguards
  env := (Env.All.empty.bindGlobal (C.plain rfl)).bindGlobal (C.plain rfl)
  tables := fun id i v h => by simp [RunConfig.initial, Heap.table] at h

/-! ## Closed states -/

/-- A table that is held has been made. -/
def madeTables : Custody where
  admits h v := ∀ id, v = .table id → id < h.tables.size
  guards _ := True
  keeps h h' := h.tables.size ≤ h'.tables.size
  refl _ := Nat.le_refl _
  trans := Nat.le_trans
  later hkeeps hv id hid := Nat.lt_of_lt_of_le (hv id hid) hkeeps
  guarded _ _ := trivial
  plain := by
    rintro h v hv id rfl
    cases hv
  newTable {h} vs _ := by
    have hsize : (h.newTable vs).2.tables.size = h.tables.size + 1 := Array.size_push _
    refine ⟨by omega, ?_⟩
    rintro _ ⟨⟩
    rw [hsize]
    exact Nat.lt_succ_self _
  newIterator it _ := ⟨Nat.le_refl _, by rintro _ ⟨⟩⟩
  next {h} id _ := Nat.le_of_eq (congrArg Array.size (h.tables_next id)).symm
  put {h} id index v := Nat.le_of_eq Array.size_modify.symm

/-- No variable and no table holds a table that has not been made. -/
abbrev State.Closed (s : State) : Prop := madeTables.Holds s

theorem RunConfig.initial_closed (config : RunConfig) : config.initial.Closed :=
  config.initial_holds trivial

/-- Every state that statements of a program are run in is closed. -/
theorem Stmt.execAll_closed (limit : Nat) (ss : List Stmt) {s : State} (hs : s.Closed) :
    (endState (Stmt.execAll limit ss s)).Closed :=
  (Stmt.execAll_respects limit ss []).endState hs

end LoopLowering
