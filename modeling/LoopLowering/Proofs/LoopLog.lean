import LoopLowering.Proofs.PassCounts
import Mathlib.Data.List.Chain

/- The log of loops. An entry that a loop begins is an opening bracket, and an entry
   that it ends a closing one. What a run adds to the log is what its record says
   (`LoopRun.logs`): each execution of a loop opens a bracket, logs what its passes
   log, and closes the bracket, with the number of its passes, if it comes to an end.

   So the log of executions that all came to an end is balanced
   (`LoopRun.balanced_logs`). Otherwise the brackets that stay open are those of the
   executions that were going on (`Active.openLoops_logs`), and the log can be
   completed to a balanced one (`Active.exists_balanced`). -/
namespace LoopLowering

/-! ## Brackets -/

/-- The entries are matched: every loop that begins ends, with an entry of its kind after the
matched entries in between. -/
inductive Balanced : List LoopEvent → Prop
  | nil : Balanced []
  | loop {kind : LoopKind} {passes : Nat} {inner rest : List LoopEvent} (hinner : Balanced inner)
      (hrest : Balanced rest) : Balanced (.entered kind :: inner ++ .finished kind passes :: rest)

/-- The loops that are open after the entries, the innermost first, when those in `opened` are open
before. Only the innermost loop may end. -/
def openLoops (opened : List LoopKind) : List LoopEvent → Option (List LoopKind)
  | [] => some opened
  | .entered kind :: events => openLoops (kind :: opened) events
  | .finished kind _ :: events =>
    match opened with
    | [] => none
    | innermost :: outer => if innermost = kind then openLoops outer events else none

namespace Balanced

theorem append {es es' : List LoopEvent} (h : Balanced es) (h' : Balanced es') :
    Balanced (es ++ es') := by
  induction h with
  | nil => exact h'
  | loop hinner _ _ ih =>
    rw [List.append_assoc, List.cons_append]
    exact .loop hinner ih

/-- What is matched leaves the same loops open. -/
theorem openLoops_append {es : List LoopEvent} (h : Balanced es) (opened : List LoopKind)
    (rest : List LoopEvent) : openLoops opened (es ++ rest) = openLoops opened rest := by
  induction h generalizing opened rest with
  | nil => rfl
  | @loop kind passes inner after _ _ ihinner ihafter =>
    rw [List.append_assoc, List.cons_append, openLoops, ihinner, List.cons_append, openLoops,
      if_pos rfl, ihafter]

end Balanced

/-! ## What a record logs -/

/-- The entry for the end of an execution, if it comes to an end. -/
def endEntry (kind : LoopKind) (passes : Nat) : Except RunError Flow → List LoopEvent
  | .ok .normal => [.finished kind passes]
  | _ => []

mutual

/-- What an execution of a loop logs: that the loop begins, what its passes log, and its end. -/
def LoopRun.log : LoopRun → List LoopEvent
  | ⟨kind, passes, result⟩ =>
    .entered kind :: PassRun.logs passes ++ endEntry kind passes.length result

def PassRun.log : PassRun → List LoopEvent
  | ⟨inner, _⟩ => LoopRun.logs inner

def LoopRun.logs : List LoopRun → List LoopEvent
  | [] => []
  | run :: runs => run.log ++ LoopRun.logs runs

def PassRun.logs : List PassRun → List LoopEvent
  | [] => []
  | p :: passes => p.log ++ PassRun.logs passes

end

theorem LoopRun.logs_append (runs runs' : List LoopRun) :
    LoopRun.logs (runs ++ runs') = LoopRun.logs runs ++ LoopRun.logs runs' := by
  induction runs with
  | nil => rfl
  | cons run runs ih => rw [List.cons_append, LoopRun.logs, ih, LoopRun.logs, List.append_assoc]

theorem LoopRun.logs_singleton (run : LoopRun) :
    LoopRun.logs [run] =
      .entered run.kind :: PassRun.logs run.passes ++
        endEntry run.kind run.passes.length run.result := by
  obtain ⟨kind, passes, result⟩ := run
  exact List.append_nil _

theorem PassRun.logs_append (passes passes' : List PassRun) :
    PassRun.logs (passes ++ passes') = PassRun.logs passes ++ PassRun.logs passes' := by
  induction passes with
  | nil => rfl
  | cons p passes ih => rw [List.cons_append, PassRun.logs, ih, PassRun.logs, List.append_assoc]

theorem PassRun.logs_singleton (p : PassRun) : PassRun.logs [p] = LoopRun.logs p.inner := by
  obtain ⟨inner, ended⟩ := p
  exact List.append_nil _

theorem mem_endEntry {kind : LoopKind} {passes : Nat} {result : Except RunError Flow}
    {e : LoopEvent} (h : e ∈ endEntry kind passes result) : e = .finished kind passes := by
  unfold endEntry at h
  split at h
  · exact List.mem_singleton.mp h
  · cases h

mutual

/-- An entry that a loop ends is that of an execution, and it has the number of its passes. -/
theorem LoopRun.of_finished_mem {kind : LoopKind} {n : Nat} : (runs : List LoopRun) →
    .finished kind n ∈ LoopRun.logs runs →
    ∃ run : LoopRun, run.Within runs ∧ run.kind = kind ∧ run.passes.length = n
  | [], h => by cases h
  | ⟨k, passes, result⟩ :: runs, h => by
    rw [LoopRun.logs, LoopRun.log, List.mem_append, List.mem_append, List.mem_cons] at h
    rcases h with ((h | h) | h) | h
    · cases h
    · obtain ⟨p, hp, run, hrun, hkind⟩ := PassRun.of_finished_mem passes h
      exact ⟨run, .inside List.mem_cons_self hp hrun, hkind⟩
    · cases mem_endEntry h
      exact ⟨_, .here List.mem_cons_self, rfl, rfl⟩
    · obtain ⟨run, hrun, hkind⟩ := LoopRun.of_finished_mem runs h
      exact ⟨run, (@LoopRun.within_append run [_] runs).mpr (.inr hrun), hkind⟩

theorem PassRun.of_finished_mem {kind : LoopKind} {n : Nat} : (passes : List PassRun) →
    .finished kind n ∈ PassRun.logs passes →
    ∃ p ∈ passes, ∃ run : LoopRun, run.Within p.inner ∧ run.kind = kind ∧ run.passes.length = n
  | [], h => by cases h
  | ⟨inner, _⟩ :: passes, h => by
    rcases List.mem_append.mp h with h | h
    · exact ⟨_, List.mem_cons_self, LoopRun.of_finished_mem inner h⟩
    · obtain ⟨p, hp, hrun⟩ := PassRun.of_finished_mem passes h
      exact ⟨p, List.mem_cons_of_mem _ hp, hrun⟩

end

/-! ## Executions that were going on -/

/-- All executions, at any depth, came to an end. -/
def AllEnded (runs : List LoopRun) : Prop :=
  ∀ run : LoopRun, run.Within runs → run.result = .ok .normal

theorem allEnded_nil : AllEnded [] :=
  fun run hrun => absurd hrun run.not_within_nil

theorem allEnded_append {runs runs' : List LoopRun} :
    AllEnded (runs ++ runs') ↔ AllEnded runs ∧ AllEnded runs' := by
  constructor
  · intro h
    exact ⟨fun run hrun => h run (LoopRun.within_append.mpr (.inl hrun)),
      fun run hrun => h run (LoopRun.within_append.mpr (.inr hrun))⟩
  · intro h run hrun
    rcases LoopRun.within_append.mp hrun with hrun | hrun
    · exact h.1 run hrun
    · exact h.2 run hrun

theorem allEnded_singleton {run : LoopRun} :
    AllEnded [run] ↔ run.result = .ok .normal ∧ ∀ p ∈ run.passes, AllEnded p.inner := by
  constructor
  · intro h
    refine ⟨h run (LoopRun.within_singleton.mpr (.inl rfl)), fun p hp inner hinner => ?_⟩
    exact h inner (LoopRun.within_singleton.mpr (.inr ⟨p, hp, hinner⟩))
  · intro h inner hinner
    rcases LoopRun.within_singleton.mp hinner with rfl | ⟨p, hp, hinner⟩
    · exact h.1
    · exact h.2 p hp inner hinner

mutual

/-- Executions that came to an end log matched entries. -/
theorem LoopRun.balanced_logs : (runs : List LoopRun) → AllEnded runs → Balanced (LoopRun.logs runs)
  | [], _ => .nil
  | ⟨kind, passes, result⟩ :: runs, h => by
    obtain ⟨hrun, hruns⟩ := (@allEnded_append [_] runs).mp h
    obtain ⟨rfl, hpasses⟩ := allEnded_singleton.mp hrun
    have hinner := PassRun.balanced_logs passes hpasses
    have hrest := LoopRun.balanced_logs runs hruns
    rw [LoopRun.logs, LoopRun.log, List.append_assoc]
    exact .loop hinner hrest

theorem PassRun.balanced_logs : (passes : List PassRun) → (∀ p ∈ passes, AllEnded p.inner) →
    Balanced (PassRun.logs passes)
  | [], _ => .nil
  | ⟨inner, _⟩ :: passes, h => by
    obtain ⟨hinner, hpasses⟩ := List.forall_mem_cons.mp h
    exact (LoopRun.balanced_logs inner hinner).append (PassRun.balanced_logs passes hpasses)

end

/-- The executions of a record that were going on when the run ended, the outermost first. Each of
them is the last one in its list and was cut short, between its passes or inside the last of them,
and all others came to an end. -/
inductive Active : List LoopRun → List LoopRun → Prop
  | none {runs : List LoopRun} (h : AllEnded runs) : Active runs []
  | between {runs : List LoopRun} {run : LoopRun} (h : AllEnded runs)
      (hrun : run.result ≠ .ok .normal) (hpasses : ∀ p ∈ run.passes, AllEnded p.inner) :
      Active (runs ++ [run]) [run]
  | inside {runs stack : List LoopRun} {run : LoopRun} {passes : List PassRun} {p : PassRun}
      (h : AllEnded runs) (hrun : run.result ≠ .ok .normal) (hlast : run.passes = passes ++ [p])
      (hpasses : ∀ p ∈ passes, AllEnded p.inner) (hinner : Active p.inner stack) :
      Active (runs ++ [run]) (run :: stack)

/-- The execution `inner` belongs to the last pass of the execution `outer`. -/
def LoopRun.InLastPass (outer inner : LoopRun) : Prop :=
  ∃ p ∈ outer.passes.getLast?, inner ∈ p.inner

theorem endEntry_eq_nil {kind : LoopKind} {passes : Nat} {result : Except RunError Flow}
    (h : result ≠ .ok .normal) : endEntry kind passes result = [] := by
  unfold endEntry
  split
  · exact absurd rfl h
  · rfl

namespace Active

variable {runs stack : List LoopRun}

theorem prepend {before : List LoopRun} (hbefore : AllEnded before) (h : Active runs stack) :
    Active (before ++ runs) stack := by
  cases h with
  | none h => exact .none (allEnded_append.mpr ⟨hbefore, h⟩)
  | between h hrun hpasses =>
    rw [← List.append_assoc]
    exact .between (allEnded_append.mpr ⟨hbefore, h⟩) hrun hpasses
  | inside h hrun hlast hpasses hinner =>
    rw [← List.append_assoc]
    exact .inside (allEnded_append.mpr ⟨hbefore, h⟩) hrun hlast hpasses hinner

/-- The brackets that stay open are those of the active executions. -/
theorem openLoops_logs (h : Active runs stack) (opened : List LoopKind) :
    openLoops opened (LoopRun.logs runs) = some ((stack.map LoopRun.kind).reverse ++ opened) := by
  induction h generalizing opened with
  | none h =>
    have hlogs := (LoopRun.balanced_logs _ h).openLoops_append opened []
    rw [List.append_nil] at hlogs
    exact hlogs
  | @between runs run h hrun hpasses =>
    have hlogs := (PassRun.balanced_logs _ hpasses).openLoops_append (run.kind :: opened) []
    rw [LoopRun.logs_append, (LoopRun.balanced_logs _ h).openLoops_append, LoopRun.logs_singleton,
      endEntry_eq_nil hrun, List.cons_append, openLoops, hlogs]
    rfl
  | @inside runs stack run passes p h hrun hlast hpasses _ ih =>
    rw [LoopRun.logs_append, (LoopRun.balanced_logs _ h).openLoops_append, LoopRun.logs_singleton,
      endEntry_eq_nil hrun, hlast, PassRun.logs_append, PassRun.logs_singleton, List.cons_append,
      openLoops, List.append_nil, (PassRun.balanced_logs _ hpasses).openLoops_append, ih,
      List.map_cons, List.reverse_cons, List.append_assoc]
    rfl

/-- What was logged can be completed to matched entries. -/
theorem exists_balanced (h : Active runs stack) : ∃ rest, Balanced (LoopRun.logs runs ++ rest) := by
  induction h with
  | none h => exact ⟨[], by rw [List.append_nil]; exact LoopRun.balanced_logs _ h⟩
  | @between runs run h hrun hpasses =>
    refine ⟨[.finished run.kind 0], ?_⟩
    have hloop := @Balanced.loop run.kind 0 _ _ (PassRun.balanced_logs _ hpasses) .nil
    rw [LoopRun.logs_append, LoopRun.logs_singleton, endEntry_eq_nil hrun, List.append_nil,
      List.append_assoc]
    exact (LoopRun.balanced_logs _ h).append hloop
  | @inside runs stack run passes p h hrun hlast hpasses _ ih =>
    obtain ⟨rest, hrest⟩ := ih
    refine ⟨rest ++ [.finished run.kind 0], ?_⟩
    have hinner := (PassRun.balanced_logs _ hpasses).append hrest
    have hloop := @Balanced.loop run.kind 0 _ _ hinner .nil
    rw [LoopRun.logs_append, LoopRun.logs_singleton, endEntry_eq_nil hrun, List.append_nil, hlast,
      PassRun.logs_append, PassRun.logs_singleton, List.append_assoc]
    simp only [List.cons_append, List.append_assoc] at hloop ⊢
    exact (LoopRun.balanced_logs _ h).append hloop

theorem mem_of_head {run : LoopRun} (h : Active runs (run :: stack)) : run ∈ runs := by
  cases h with
  | between _ _ _ => exact List.mem_append_right _ (List.mem_singleton_self _)
  | inside _ _ _ _ _ => exact List.mem_append_right _ (List.mem_singleton_self _)

/-- Active are exactly the executions that did not come to an end. -/
theorem mem_iff (h : Active runs stack) (run : LoopRun) :
    run ∈ stack ↔ run.Within runs ∧ run.result ≠ .ok .normal := by
  induction h with
  | none h =>
    constructor
    · intro hrun
      cases hrun
    · intro hrun
      exact absurd (h run hrun.1) hrun.2
  | between h hrun hpasses =>
    rw [LoopRun.within_append, LoopRun.within_singleton, List.mem_singleton]
    constructor
    · rintro rfl
      exact ⟨.inr (.inl rfl), hrun⟩
    · rintro ⟨hwithin | rfl | ⟨p, hp, hwithin⟩, hcut⟩
      · exact absurd (h _ hwithin) hcut
      · rfl
      · exact absurd (hpasses p hp _ hwithin) hcut
  | inside h hrun hlast hpasses _ ih =>
    rw [LoopRun.within_append, LoopRun.within_singleton, List.mem_cons, ih, hlast]
    constructor
    · rintro (rfl | ⟨hwithin, hcut⟩)
      · exact ⟨.inr (.inl rfl), hrun⟩
      · exact ⟨.inr (.inr ⟨_, List.mem_append_right _ (List.mem_singleton_self _), hwithin⟩), hcut⟩
    · rintro ⟨hwithin | rfl | ⟨q, hq, hwithin⟩, hcut⟩
      · exact absurd (h _ hwithin) hcut
      · exact .inl rfl
      · rcases List.mem_append.mp hq with hq | hq
        · exact absurd (hpasses q hq _ hwithin) hcut
        · cases List.mem_singleton.mp hq
          exact .inr ⟨hwithin, hcut⟩

/-- Each active execution belongs to the last pass of the one before it. -/
theorem isChain (h : Active runs stack) : stack.IsChain LoopRun.InLastPass := by
  induction h with
  | none _ => exact .nil
  | between _ _ _ => exact .singleton _
  | @inside _ stack run passes p _ _ hlast _ hinner ih =>
    cases stack with
    | nil => exact .singleton _
    | cons inner stack =>
      refine List.isChain_cons_cons.mpr ⟨⟨p, ?_, hinner.mem_of_head⟩, ih⟩
      rw [hlast, List.getLast?_concat]
      rfl

end Active

end LoopLowering
