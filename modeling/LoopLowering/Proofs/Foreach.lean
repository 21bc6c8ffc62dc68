import LoopLowering.Proofs.Privacy
import LoopLowering.Proofs.SourceLoops

/- What `foreach` means. `Foreach.run` runs a loop over a collection by the rules of
   the source language. The collection is evaluated once, in the scope of the loop.
   Pass `k` then reads item `k` of a table or of a text for itself, as it is when the
   pass begins, and runs the body with it in a scope of its own. Only an iterator has
   a position to go on from, which the body may move as well.

   The lowered loop has no count of its passes. It asks the adapter for an iterator
   and takes what this delivers. That the iterator has delivered `k` items when pass
   `k` begins is an invariant of the loop (`Collection.At`): the iterator is private
   to the loop, so the body cannot move it. Sound states, in which no iterator is held
   before it is made, are those that programs run in (`Stmt.execAll_sound`). -/
namespace LoopLowering

/-- The expression with a number of calls of the adapter around it. -/
def Expr.adapted (adapter : Name) (e : Expr) : Nat → Expr
  | 0 => e
  | n + 1 => .call (.ident adapter) [e.adapted adapter n]

/-! ## The source loop -/

/-- Something with items in an order, which the heap may change: item `k`, counted from zero, and the
iterator that has delivered the first `k` items. -/
structure Collection where
  item : Heap → Nat → Option Value
  mark : Nat → Iterator
  advance_mark : ∀ heap k, heap.advance (mark k) = (item heap k).map (·, mark (k + 1))

namespace Collection

/-- The elements of a table, as it is when they are read. -/
def elements (t : TableId) : Collection where
  item heap k := (heap.table t)[k]?
  mark := .elements t
  advance_mark _ _ := rfl

def characters (text : String) : Collection where
  item _ k := text.toList[k]?.map fun c => .str c.toString
  mark k := .chars (text.toList.drop k)
  advance_mark heap k := by
    rw [← List.head?_drop]
    cases h : text.toList.drop k with
    | nil => rfl
    | cons c cs =>
      have htail : text.toList.drop (k + 1) = cs := by
        rw [← List.tail_drop, h, List.tail_cons]
      simp [htail, Heap.advance]

/-- Reads item `k` and notes it as read in the loop's own iterator. -/
def read (c : Collection) (own : IterId) (k : Nat) : Exec (Option Value) := fun s =>
  match c.item s.heap k with
  | some v =>
    let iterators := s.heap.iterators.setIfInBounds own (c.mark (k + 1))
    .ok (some v) { s with heap := { s.heap with iterators := iterators } }
  | none => .ok none s

end Collection

namespace Foreach

variable (limit : Nat) (x : Name) (body : Block)

/-- One pass: the body in a scope of its own, in which the variable has been declared. -/
def pass (v : Value) : Exec Flow := Exec.inScope do
  Exec.modifyEnv (·.declare x v)
  Stmt.execAll limit body.statements

/-- The passes from item `k` on, with `left` passes of the limit left. The loop ends where there is no
item and where the item is nil. -/
def passes (item : Nat → Exec (Option Value)) : Nat → Nat → Exec Flow
  | 0, k => do
    match (← item k).filter (· ≠ .nil) with
    | some _ => throw (.iterationLimit limit)
    | none => pure .normal
  | left + 1, k => do
    match (← item k).filter (· ≠ .nil) with
    | some v =>
      match ← pass limit x body v with
      | .normal => passes item left (k + 1)
      | .broke => pure .normal
      | .returned vs => pure (.returned vs)
    | none => pure .normal

def overItems (c : Collection) : Exec Flow := do
  let own := (← get).heap.iterators.size
  discard (Exec.newIterator (c.mark 0))
  passes limit x body (c.read own) limit 0

/-- The loop `foreach x in e` with the given body. -/
def run (e : Expr) : Exec Flow := do
  match ← e.eval with
  | .table t => overItems limit x body (.elements t)
  | .str text => overItems limit x body (.characters text)
  | .iter id => passes limit x body (fun _ => Exec.nextValue id) limit 0
  | v => throw (.notIterable v.type)

end Foreach

/-! ## The loop's own iterator -/

namespace Collection

variable {c : Collection} {own : IterId} {k : Nat} {s : State} {v : Value}

/-- The loop's own iterator is private and has delivered the first `k` items. -/
structure At (c : Collection) (own : IterId) (k : Nat) (s : State) : Prop where
  custody : (privateIterators (· = own)).Holds s
  iterator : s.heap.iterators[own]? = some (c.mark k)

theorem At.next_eq (h : c.At own k s) : s.heap.next own =
    match c.item s.heap k with
    | some v =>
      (some v, { s.heap with iterators := s.heap.iterators.setIfInBounds own (c.mark (k + 1)) })
    | none => (none, s.heap) := by
  unfold Heap.next
  rw [h.iterator, Option.bind_some, c.advance_mark]
  cases c.item s.heap k <;> rfl

theorem At.read_eq (h : c.At own k s) : c.read own k s = Exec.nextValue own s := by
  show _ = EStateM.Result.ok (s.heap.next own).1 { s with heap := (s.heap.next own).2 }
  rw [h.next_eq, Collection.read]
  cases c.item s.heap k <;> rfl

/-- When the iterator has delivered a value, it is one item further, and the value is not the iterator
itself. -/
theorem At.next (h : c.At own k s) (hv : (s.heap.next own).1 = some v) :
    c.At own (k + 1) { s with heap := (s.heap.next own).2 } ∧
      v.IsPublic (· = own) (s.heap.next own).2 := by
  rw [h.next_eq] at hv ⊢
  cases hitem : c.item s.heap k with
  | none => rw [hitem] at hv; cases hv
  | some w =>
    rw [hitem] at hv
    cases hv
    have hsize : s.heap.iterators.size ≤
        (s.heap.iterators.setIfInBounds own (c.mark (k + 1))).size :=
      Nat.le_of_eq Array.size_setIfInBounds.symm
    have hadvance : s.heap.advance (c.mark k) = some (v, c.mark (k + 1)) := by
      rw [c.advance_mark, hitem]
      rfl
    have hpublic : v.IsPublic (· = own) s.heap := h.custody.advance hadvance
    refine ⟨⟨privateIterators_setIterators h.custody hsize, ?_⟩, hpublic.later hsize⟩
    exact Array.getElem?_setIfInBounds_self_of_lt (h.custody.guards own rfl)

/-- **A pass leaves the loop's own iterator where it is.** -/
theorem At.pass (h : c.At own k s) (hv : v.IsPublic (· = own) s.heap) (limit : Nat) (x : Name)
    (body : Block) : c.At own k (endState (Foreach.pass limit x body v s)) := by
  have hbody := Stmt.execAll_respects (C := privateIterators (· = own)) limit body.statements
  have hpass := boundBody_respects hbody x (.inl (List.mem_singleton_self v)) s h.custody
    (List.forall_mem_singleton.mpr hv)
  change Custody.Kept _ _ _ (Foreach.pass limit x body v s) at hpass
  cases hr : Foreach.pass limit x body v s with
  | ok flow t =>
    rw [hr] at hpass
    exact ⟨hpass.1, (hpass.2.1.same own rfl).trans h.iterator⟩
  | error e t =>
    rw [hr] at hpass
    exact ⟨hpass.1, (hpass.2.same own rfl).trans h.iterator⟩

theorem at_newIterator (c : Collection) {s : State} (hs : s.Sound) :
    c.At s.heap.iterators.size 0 { s with heap := (s.heap.newIterator (c.mark 0)).2 } :=
  ⟨privateIterators_newIterator hs _, Array.getElem?_push_size⟩

end Collection

/-! ## Passes -/

theorem Alike.and_end {α : Type} {P : State → State → Prop} {Q : State → Prop}
    {r r' : EStateM.Result RunError State α} (h : Alike P r r') (hQ : Q (endState r')) :
    Alike (fun s t => P s t ∧ Q t) r r' := by
  cases h with
  | ok h => exact .ok ⟨h, hQ⟩
  | error h => exact .error ⟨h, hQ⟩

theorem Foreach.pass_same (limit : Nat) (x : Name) (body : Block) (v : Value) :
    Simulates State.Same (Foreach.pass limit x body v) (Foreach.pass limit x body v) := by
  refine (boundPass_simulates 0 x v ?_).same
  exact Stmt.execAll_simulates limit 0 body.statements fun _ _ => trivial

/-- Taking from an iterator on the left and, on the right, reading what it delivers. -/
theorem Alike.bind_next {β : Type} {P : State → State → Prop} {id : IterId}
    {item : Exec (Option Value)} {f g : Option Value → Exec β} {s t : State} (hst : s.Same t)
    (hitem : item t = Exec.nextValue id t)
    (hfg : ∀ v heap, t.heap.next id = (v, heap) →
      Alike P (f v { s with heap := heap }) (g v { t with heap := heap })) :
    Alike P ((Exec.nextValue id >>= f) s) ((item >>= g) t) := by
  have hleft : (Exec.nextValue id >>= f) s =
      f (t.heap.next id).1 { s with heap := (t.heap.next id).2 } := by
    rw [← hst.heap]
    rfl
  have hright : (item >>= g) t = g (t.heap.next id).1 { t with heap := (t.heap.next id).2 } := by
    show EStateM.bind item g t = _
    unfold EStateM.bind
    rw [hitem]
    rfl
  rw [hleft, hright]
  exact hfg _ _ rfl

/-- A `for … in` loop over an iterator runs the passes of `foreach`, when in every pass the iterator
delivers what the pass reads for itself. -/
theorem Foreach.passes_alike (limit : Nat) (x : Name) (body : Block) (At : Nat → State → Prop)
    {id : IterId} {item : Nat → Exec (Option Value)}
    (hitem : ∀ k t, At k t → item k t = Exec.nextValue id t)
    (hpass : ∀ k t v heap, At k t → t.heap.next id = (some v, heap) →
      At (k + 1) (endState (Foreach.pass limit x body v { t with heap := heap })))
    (left k : Nat) {s t : State} (hst : s.Same t) (hk : At k t) :
    Alike State.Same
      (runPasses limit .forIn (fun () => return (← Exec.nextValue id).filter (· ≠ .nil))
        (fun v => do
          (← Exec.inScope do
            Exec.modifyEnv (·.declare x v)
            Stmt.execAll limit body.statements).passEnd (pure (.again ())))
        left () s)
      (Foreach.passes limit x body item left k t) := by
  induction left generalizing k s t with
  | zero =>
    rw [runPasses_zero, Foreach.passes, bind_assoc]
    refine Alike.bind_next hst (hitem k t hk) fun v heap _ => ?_
    rw [pure_bind]
    cases v.filter (· ≠ .nil) with
    | none => exact finishLoop_alike _ _ ⟨hst.env, rfl, hst.output⟩
    -- a pass begins and none is left
    | some v => exact .error ⟨hst.env, rfl, hst.output⟩
  | succ left ih =>
    rw [runPasses_succ, Foreach.passes, bind_assoc]
    refine Alike.bind_next hst (hitem k t hk) fun v heap hnext => ?_
    rw [pure_bind]
    cases hv : v.filter (· ≠ .nil) with
    | none => exact finishLoop_alike _ _ ⟨hst.env, rfl, hst.output⟩
    | some w =>
      obtain ⟨rfl, -⟩ := Option.filter_eq_some_iff.mp hv
      have hsame := Foreach.pass_same limit x body w { s with heap := heap } { t with heap := heap }
        ⟨hst.env, rfl, hst.output⟩
      simp only [bind_assoc]
      refine Alike.bind (hsame.and_end (hpass k t w heap hk hnext)) (fun _ _ h => h.1) ?_
      intro flow s t hst
      cases flow with
      | normal => exact ih (k + 1) hst.1 hst.2
      | broke => exact finishLoop_alike _ _ hst.1
      | returned vs => exact .ok hst.1

/-! ## The adapter -/

theorem iterate_iterate (v : Value) : iterate v >>= iterate = iterate v := by
  cases v <;> rfl

section Adapter

variable {adapter : Name} {s : State} (h : s.env.lookup adapter = some (.builtin .each))

include h

theorem Expr.eval_adapter_call (e : Expr) :
    (Expr.call (.ident adapter) [e]).eval s = (e.eval >>= iterate) s := by
  have hlookup : Exec.lookup adapter s = .ok (.builtin .each) s := by
    rw [Exec.lookup_apply, h]
    rfl
  simp only [Expr.eval, Expr.evalAll]
  show EStateM.bind (Exec.lookup adapter) _ s = _
  unfold EStateM.bind
  rw [hlookup]
  simp only [bind_assoc, pure_bind]
  rfl

/-- Calls of the adapter inside of another one change nothing. -/
theorem Expr.eval_adapted (e : Expr) (n : Nat) :
    (Expr.call (.ident adapter) [e.adapted adapter n]).eval s = (e.eval >>= iterate) s := by
  induction n with
  | zero => exact Expr.eval_adapter_call h e
  | succ n ih =>
    calc (Expr.call (.ident adapter) [e.adapted adapter (n + 1)]).eval s
      _ = ((Expr.call (.ident adapter) [e.adapted adapter n]).eval >>= iterate) s :=
        Expr.eval_adapter_call h _
      _ = ((e.eval >>= iterate) >>= iterate) s := by
        show EStateM.bind _ _ s = EStateM.bind _ _ s
        unfold EStateM.bind
        rw [ih]
      _ = (e.eval >>= iterate) s := by
        simp only [bind_assoc, iterate_iterate]

end Adapter

/-! ## The whole loop -/

theorem forInLoop_congr {limit : Nat} {x : Name} {source source' : Exec Value} {body : Exec Flow}
    {s : State} (h : source s = source' s) :
    forInLoop limit x source body s = forInLoop limit x source' body s := by
  show EStateM.bind source _ s = EStateM.bind source' _ s
  unfold EStateM.bind
  rw [h]

section Run

variable (limit : Nat) (x : Name) (body : Block) {s t : State}

/-- A `for … in` loop over a new iterator runs the loop over the items of the collection. -/
theorem Foreach.overItems_alike (c : Collection) (hst : s.Same t) (ht : t.Sound) :
    Alike State.Same
      (forInLoop limit x (Exec.newIterator (c.mark 0)) (Stmt.execAll limit body.statements) s)
      (Foreach.overItems limit x body c t) := by
  obtain ⟨henv, hheap, houtput⟩ := hst
  obtain ⟨env, heap, output, events⟩ := s
  cases hheap
  refine Foreach.passes_alike limit x body (c.At _) (fun k u h => h.read_eq) ?_ limit 0
    ⟨henv, rfl, houtput⟩ (c.at_newIterator ht)
  intro k u v heap hk hnext
  have hnow := hk.next (congrArg Prod.fst hnext)
  rw [hnext] at hnow
  exact hnow.1.pass hnow.2 limit x body

/-- A `for … in` loop over what the adapter makes of a value runs as `foreach` over that value. -/
theorem Foreach.run_alike (e : Expr) (hst : s.Same t) (ht : t.Sound) :
    Alike State.Same
      (forInLoop limit x (e.eval >>= iterate) (Stmt.execAll limit body.statements) s)
      (Foreach.run limit x body e t) := by
  have hsource : forInLoop limit x (e.eval >>= iterate) (Stmt.execAll limit body.statements) =
      e.eval >>= fun v => forInLoop limit x (iterate v) (Stmt.execAll limit body.statements) := by
    simp only [forInLoop, bind_assoc]
  rw [hsource, Foreach.run]
  have heval := (e.eval_same s t hst).and_end ((e.eval_respects []).endState ht)
  refine Alike.bind heval (fun _ _ h => h.1) fun v s t hst => ?_
  cases v with
  | table id => exact Foreach.overItems_alike limit x body (.elements id) hst.1 hst.2
  | str text => exact Foreach.overItems_alike limit x body (.characters text) hst.1 hst.2
  | iter id =>
    -- the body may move the iterator, and both loops take from it what it then has
    refine Foreach.passes_alike limit x body (fun _ _ => True) ?_ ?_ limit 0 hst.1 trivial
    · exact fun _ _ _ => rfl
    · exact fun _ _ _ _ _ _ => trivial
  | nil | bool _ | int _ | builtin _ => exact .error hst.1

theorem Foreach.lowered_alike {adapter : Name} (e : Expr) (n : Nat) (hst : s.Same t) (ht : t.Sound)
    (hadapter : t.env.lookup adapter = some (.builtin .each)) :
    Alike State.Same
      (forInLoop limit x (Call.mk (.ident adapter) [e.adapted adapter n]).eval
        (Stmt.execAll limit body.statements) s)
      (Foreach.run limit x body e t) := by
  rw [← hst.env] at hadapter
  have hsource : (Call.mk (.ident adapter) [e.adapted adapter n]).eval s = (e.eval >>= iterate) s :=
    Expr.eval_adapted hadapter e n
  rw [forInLoop_congr hsource]
  exact Foreach.run_alike limit x body e hst ht

end Run

/-- **Lowering `foreach` enumerates the collection.** In a sound state, where the name of the adapter is
bound to the function that makes iterators, the lowered loop gives the same result or error as the
source loop and leaves the same variables, heap and output. Calls of the adapter may already be around
the iterable. -/
theorem foreach_lowering_enumerates (adapter : Name) (limit n : Nat) (x : Name) (e : Expr)
    (body : Block) (hx : x ≠ "") (s : State) (hs : s.Sound)
    (hadapter : s.env.lookup adapter = some (.builtin .each)) :
    ∃ t, (SourceLoop.foreach (some x) (some (e.adapted adapter n)) body).lower adapter = .ok t ∧
      observe (t.exec limit s) = observe (Foreach.run limit x body e s) := by
  have hname : Loop.requireName (some x) = .ok x := by
    simp [Loop.requireName, Name.isAbsent, hx]
  refine ⟨.loop (.forIn x ⟨.ident adapter, [e.adapted adapter n]⟩ (.doEnd body.statements)), ?_, ?_⟩
  · simp only [SourceLoop.lower, Loop.newForIn, hname]
    rfl
  · rw [Stmt.exec, Block.doEnd, Loop.exec]
    -- the loop is entered in the log, which the source loop does not write
    apply Alike.observe_eq
    exact Foreach.lowered_alike limit x body e n ⟨rfl, rfl, rfl⟩ hs hadapter

/-- A body that prints `v`, puts a seven behind the elements of the table `t` and breaks at the seven. -/
def growingBody : Block := .doEnd [
  .expr (.call (.ident "print") [.ident "v"]),
  .set (.index (.ident "t") (.int 3)) (.int 7),
  .if (.binary .eq (.ident "v") (.int 7)) (.bare [.break]) none]

/-- The state in which `t` is a table of two elements. -/
def tableState : State :=
  endState (Stmt.execAll 5 [.set (.ident "t") (.table [.int 1, .int 2])] ({} : RunConfig).initial)

theorem foreach_lowering_enumerates_growingBody :
    tableState.Sound ∧ tableState.env.lookup Name.defaultAdapter = some (.builtin .each) ∧
    ∃ t, (SourceLoop.foreach (some "v") (some ((Expr.ident "t").adapted Name.defaultAdapter 1))
        growingBody).lower Name.defaultAdapter = .ok t ∧
      observe (t.exec 5 tableState) =
        observe (Foreach.run 5 "v" growingBody (.ident "t") tableState) := by
  have hsound : tableState.Sound := Stmt.execAll_sound 5 _ (RunConfig.initial_sound _)
  have hadapter : tableState.env.lookup Name.defaultAdapter = some (.builtin .each) := by decide
  exact ⟨hsound, hadapter,
    foreach_lowering_enumerates _ 5 1 "v" (.ident "t") growingBody (by decide) _ hsound hadapter⟩

end LoopLowering
