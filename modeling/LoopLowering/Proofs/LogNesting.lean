import LoopLowering.Proofs.Breaks
import LoopLowering.Proofs.LoopLog

/- What runs log. A run adds to the log what its record says, and it leaves
   executions of loops unfinished only when it returns or fails.

   `Logged` says both of a set of rules. It is kept by sequencing and by scopes. It
   holds of the passes of a loop by induction on how they are derived
   (`Passes.logged`), where only loops add to the log (`State.SameLog`). So the log of
   every run of a program is nested (`loop_log_nested`). -/
namespace LoopLowering

/-! ## Computations that log nothing -/

def State.SameLog (s t : State) : Prop :=
  t.events = s.events

instance State.sameLog_chains : Chains State.SameLog where
  refl _ := rfl
  trans h₁ h₂ := Eq.trans h₂ h₁

theorem Moves.sameLog {α : Type} {x : Exec α} (h : Moves State.Grows x) : Moves State.SameLog x :=
  h.mono fun _ _ hgrows => hgrows.events

theorem Exec.modifyEnv_sameLog (f : Env → Env) : Moves State.SameLog (Exec.modifyEnv f) :=
  Moves.modify fun _ => rfl

theorem Exec.setElement_sameLog (id : TableId) (index : Int64) (v : Value) :
    Moves State.SameLog (Exec.setElement id index v) := by
  intro s
  rw [Exec.setElement_apply]
  cases s.heap.set id index v with
  | ok heap => rfl
  | error e => rfl

theorem Expr.assign_sameLog (target : Expr) (v : Value) :
    Moves State.SameLog (target.assign v) := by
  unfold Expr.assign
  split
  · next t k =>
    refine Moves.bind t.eval_grows.sameLog fun table => ?_
    refine Moves.bind k.eval_grows.sameLog fun key => ?_
    split
    · exact Exec.setElement_sameLog _ _ _
    · exact Moves.throw _
    · exact Moves.throw _
  · split
    · exact Exec.modifyEnv_sameLog _
    · exact Moves.throw _

theorem Expr.assignAll_sameLog (ts : List Expr) (vs : List Value) :
    Moves State.SameLog (Expr.assignAll ts vs) := by
  induction ts generalizing vs with
  | nil => exact Moves.pure _
  | cons t ts ih =>
    rw [Expr.assignAll]
    exact Moves.bind (t.assign_sameLog _) fun _ => ih vs.tail

theorem Bound.eval_sameLog (bound : Bound) (e : Expr) : Moves State.SameLog (bound.eval e) := by
  refine Moves.bind e.eval_grows.sameLog fun v => ?_
  split
  · exact Moves.pure _
  · exact Moves.throw _

theorem evalBounds_sameLog (start limit : Expr) (step : Option Expr) :
    Moves State.SameLog (evalBounds start limit step) := by
  refine Moves.bind (Bound.initial.eval_sameLog start) fun a => ?_
  refine Moves.bind (Bound.limit.eval_sameLog limit) fun b => ?_
  refine Moves.bind ?_ fun s => ?_
  · cases step with
    | none => exact Moves.pure _
    | some e => exact Bound.step.eval_sameLog e
  · split
    · exact Moves.throw _
    · exact Moves.pure _

/-! ## Rules that log what they put on record -/

def Flow.returns : Flow → Bool
  | .returned _ => true
  | .normal | .broke => false

def PassEnd.returns {β : Type} : PassEnd β → Bool
  | .returned _ => true
  | .again _ | .stop => false

/-- Every run logs what it puts on record. It leaves no execution unfinished unless it fails or its
result is one that `returns`, and those that it leaves are nested. -/
structure Logged {α : Type} (returns : α → Bool) (X : BigStep LoopRun α) : Prop where
  events {s : State} {r : EStateM.Result RunError State α} {runs : List LoopRun} :
    X s r runs → (endState r).events.toList = s.events.toList ++ LoopRun.logs runs
  ended {s t : State} {a : α} {runs : List LoopRun} :
    X s (.ok a t) runs → returns a = false → AllEnded runs
  active {s : State} {r : EStateM.Result RunError State α} {runs : List LoopRun} :
    X s r runs → ∃ stack, Active runs stack

/-- As `Logged`, for the passes of a loop of the given kind with the entry for its end. A pass that
leaves an execution unfinished is the last one. -/
structure PassesLogged (kind : LoopKind) (X : BigStep PassRun Flow) : Prop where
  events {s : State} {r : EStateM.Result RunError State Flow} {passes : List PassRun} :
    X s r passes → (endState r).events.toList =
      s.events.toList ++ PassRun.logs passes ++ endEntry kind passes.length (resultOf r)
  ended {s t : State} {flow : Flow} {passes : List PassRun} :
    X s (.ok flow t) passes → flow.returns = false →
      flow = .normal ∧ ∀ p ∈ passes, AllEnded p.inner
  active {s : State} {r : EStateM.Result RunError State Flow} {passes : List PassRun} :
    X s r passes → (∀ p ∈ passes, AllEnded p.inner) ∨
      ∃ before p stack, passes = before ++ [p] ∧ (∀ p ∈ before, AllEnded p.inner) ∧
        Active p.inner stack

namespace Logged

variable {α β : Type} {returns : α → Bool} {returns' : β → Bool}

theorem plain {x : Exec α} (hx : Moves State.SameLog x) : Logged returns (.plain x) where
  events h := by
    cases h
    rw [hx _]
    exact (List.append_nil _).symm
  ended {s t a runs} h _ := by
    generalize EStateM.Result.ok a t = r at h
    cases h
    exact allEnded_nil
  active h := by
    cases h
    exact ⟨[], .none allEnded_nil⟩

/-- After a result that returns, nothing more is run. -/
theorem bind {X : BigStep LoopRun α} {F : α → BigStep LoopRun β} (hX : Logged returns X)
    (hF : ∀ a, returns a = false → Logged returns' (F a))
    (hstop : ∀ a, returns a = true → ∃ b, F a = .plain (pure b) ∧ returns' b = true) :
    Logged returns' (X.bind F) where
  events h := by
    cases h with
    | fails h => exact hX.events h
    | @goesOn _ t a _ runs _ h h' =>
      have hfirst : t.events.toList = _ := hX.events h
      have hrest : Logged returns' (F a) := by
        cases ha : returns a with
        | false => exact hF a ha
        | true =>
          obtain ⟨b, hb, _⟩ := hstop a ha
          rw [hb]
          exact plain (Moves.pure b)
      rw [hrest.events h', hfirst, LoopRun.logs_append, List.append_assoc]
  ended h hb := by
    cases h with
    | @goesOn _ _ a _ _ _ h h' =>
      cases ha : returns a with
      | false => exact allEnded_append.mpr ⟨hX.ended h ha, (hF a ha).ended h' hb⟩
      | true =>
        obtain ⟨b, hF, hreturns⟩ := hstop a ha
        rw [hF] at h'
        cases h'
        rw [hreturns] at hb
        cases hb
  active h := by
    cases h with
    | fails h => exact hX.active h
    | @goesOn _ _ a _ _ _ h h' =>
      cases ha : returns a with
      | false =>
        obtain ⟨stack, hstack⟩ := (hF a ha).active h'
        exact ⟨stack, hstack.prepend (hX.ended h ha)⟩
      | true =>
        obtain ⟨b, hF, _⟩ := hstop a ha
        rw [hF] at h'
        cases h'
        rw [List.append_nil]
        exact hX.active h

theorem after {x : Exec α} {F : α → BigStep LoopRun β} (hx : Moves State.SameLog x)
    (hF : ∀ a, Logged returns' (F a)) : Logged returns' (.bind (.plain x) F) :=
  bind (plain hx) (fun a _ => hF a) fun _ (h : false = true) => by cases h

theorem inScope {X : BigStep LoopRun α} (hX : Logged returns X) : Logged returns X.inScope where
  events h := by
    cases h with
    | ends h => exact (hX.events h :)
    | fails h => exact (hX.events h :)
  ended h ha := by
    cases h with
    | ends h => exact hX.ended h ha
  active h := by
    cases h with
    | ends h => exact hX.active h
    | fails h => exact hX.active h

theorem passEnd {X : BigStep LoopRun Flow} (hX : Logged Flow.returns X) {next : Exec (PassEnd β)}
    (hn : Moves State.SameLog next) :
    Logged PassEnd.returns (X.bind fun flow => .plain (flow.passEnd next)) := by
  refine bind hX (fun flow _ => plain (Moves.passEnd hn flow)) fun flow hflow => ?_
  cases flow with
  | normal | broke => cases hflow
  | returned vs => exact ⟨.returned vs, rfl, rfl⟩

/-- A loop logs that it begins, what its passes log, and its end. -/
theorem loop {kind : LoopKind} {X : BigStep PassRun Flow} (hX : PassesLogged kind X) :
    Logged Flow.returns (.bind (.plain (Exec.log (.entered kind))) fun _ => Execution kind X) where
  events h := by
    cases h with
    | fails h => cases h
    | goesOn h h' =>
      cases h
      obtain ⟨h'⟩ := h'
      rw [hX.events h', List.nil_append, LoopRun.logs_singleton, Array.toList_push]
      simp only [List.append_assoc, List.cons_append, List.nil_append]
  ended h hflow := by
    cases h with
    | goesOn h h' =>
      cases h
      obtain ⟨h'⟩ := h'
      obtain ⟨rfl, hpasses⟩ := hX.ended h' hflow
      exact allEnded_singleton.mpr ⟨rfl, hpasses⟩
  active {s r runs} h := by
    cases h with
    | fails h => cases h
    | goesOn h h' =>
      cases h
      obtain ⟨h'⟩ := h'
      by_cases hr : resultOf r = .ok .normal
      · obtain ⟨t, rfl⟩ := resultOf_eq_ok.mp hr
        exact ⟨[], .none (allEnded_singleton.mpr ⟨hr, (hX.ended h' rfl).2⟩)⟩
      · rcases hX.active h' with hpasses | ⟨before, p, stack, rfl, hbefore, hinner⟩
        · exact ⟨_, .between allEnded_nil hr hpasses⟩
        · exact ⟨_, .inside allEnded_nil hr rfl hbefore hinner⟩

end Logged

/-! ## Passes -/

theorem finishLoop_apply (kind : LoopKind) (passes : Nat) (s : State) :
    finishLoop kind passes s =
      .ok .normal { s with events := s.events.push (.finished kind passes) } := rfl

namespace Passes

variable {α β : Type} {limit : Nat} {kind : LoopKind} {begins : β → Exec (Option α)}
  {Pass : α → BigStep LoopRun (PassEnd β)} {used : Nat} {b : β} {s : State}
  {r : EStateM.Result RunError State Flow} {passes : List PassRun}

/-- Passes log what they put on record, and the end of the loop with the number of its passes. -/
theorem events (hb : ∀ b, Moves State.SameLog (begins b))
    (hP : ∀ a, Logged PassEnd.returns (Pass a))
    (h : Passes limit kind begins Pass used b s r passes) :
    (endState r).events.toList = s.events.toList ++ PassRun.logs passes ++
      endEntry kind (used + passes.length) (resultOf r) := by
  have htest {b : β} {s : State} {r : EStateM.Result RunError State (Option α)}
      (h : begins b s = r) : (endState r).events = s.events := h ▸ hb b s
  induction h with
  | testFails h | refused h _ =>
    have ht := htest h
    simp only [endState] at ht ⊢
    simp [ht, resultOf, endEntry, PassRun.logs]
  | finished h =>
    have ht := htest h
    simp only [endState] at ht
    simp [finishLoop_apply, endState, ht, resultOf, endEntry, PassRun.logs]
  | failed h _ hpass | returned h _ hpass =>
    have ht := htest h
    have hu := (hP _).events hpass
    simp only [endState] at ht hu ⊢
    simp [hu, ht, resultOf, endEntry, PassRun.logs_singleton]
  | stopped h _ hpass =>
    have ht := htest h
    have hu := (hP _).events hpass
    simp only [endState] at ht hu
    simp [finishLoop_apply, endState, hu, ht, resultOf, endEntry, PassRun.logs_singleton]
  | again h _ hpass _ ih =>
    have ht := htest h
    have hu := (hP _).events hpass
    simp only [endState] at ht hu
    rw [ih, hu, ht, PassRun.logs, PassRun.log, List.length_cons, Nat.add_right_comm, Nat.add_assoc]
    simp only [List.append_assoc]

theorem ended (hP : ∀ a, Logged PassEnd.returns (Pass a)) {flow : Flow}
    (h : Passes limit kind begins Pass used b s r passes) (hr : resultOf r = .ok flow)
    (hflow : flow.returns = false) : flow = .normal ∧ ∀ p ∈ passes, AllEnded p.inner := by
  induction h with
  | testFails _ | refused _ _ | failed _ _ _ => cases hr
  | finished _ =>
    cases hr
    exact ⟨rfl, by simp⟩
  | stopped _ _ hpass =>
    cases hr
    exact ⟨rfl, List.forall_mem_singleton.mpr ((hP _).ended hpass rfl)⟩
  | returned _ _ _ =>
    cases hr
    cases hflow
  | again _ _ hpass _ ih =>
    obtain ⟨hnormal, hrest⟩ := ih hr
    exact ⟨hnormal, List.forall_mem_cons.mpr ⟨(hP _).ended hpass rfl, hrest⟩⟩

theorem active (hP : ∀ a, Logged PassEnd.returns (Pass a))
    (h : Passes limit kind begins Pass used b s r passes) :
    (∀ p ∈ passes, AllEnded p.inner) ∨
      ∃ before p stack, passes = before ++ [p] ∧ (∀ p ∈ before, AllEnded p.inner) ∧
        Active p.inner stack := by
  induction h with
  | testFails _ | refused _ _ | finished _ => exact .inl (by simp)
  | failed _ _ hpass | returned _ _ hpass | stopped _ _ hpass =>
    obtain ⟨stack, hstack⟩ := (hP _).active hpass
    exact .inr ⟨[], _, stack, rfl, by simp, hstack⟩
  | again _ _ hpass _ ih =>
    have hfirst := (hP _).ended hpass rfl
    rcases ih with hrest | ⟨before, p, stack, rfl, hbefore, hstack⟩
    · exact .inl (List.forall_mem_cons.mpr ⟨hfirst, hrest⟩)
    · exact .inr ⟨_ :: before, p, stack, rfl, List.forall_mem_cons.mpr ⟨hfirst, hbefore⟩, hstack⟩

theorem logged (hb : ∀ b, Moves State.SameLog (begins b))
    (hP : ∀ a, Logged PassEnd.returns (Pass a)) (b : β) :
    PassesLogged kind (Passes limit kind begins Pass 0 b) where
  events h := by
    have hevents := h.events hb hP
    rwa [Nat.zero_add] at hevents
  ended h := h.ended hP rfl
  active h := h.active hP

end Passes

namespace PassesLogged

variable {α : Type} {kind : LoopKind}

theorem throw (e : RunError) : PassesLogged kind (.plain (throw e)) where
  events h := by
    cases h
    exact (List.append_nil _).symm.trans (List.append_nil _).symm
  ended h := by cases h
  active h := by
    cases h
    exact .inl (by simp)

theorem after {x : Exec α} (hx : Moves State.SameLog x) {F : α → BigStep PassRun Flow}
    (hF : ∀ a, PassesLogged kind (F a)) : PassesLogged kind (.bind (.plain x) F) where
  events {s _ _} h := by
    have hs : (endState (x s)).events = s.events := hx s
    cases h with
    | fails h =>
      generalize hr : EStateM.Result.error _ _ = r at h
      cases h
      rw [← hr] at hs
      show _ = _ ++ [] ++ []
      rw [List.append_nil, List.append_nil]
      exact congrArg Array.toList hs
    | goesOn h h' =>
      generalize hr : EStateM.Result.ok _ _ = r at h
      cases h
      rw [← hr] at hs
      simp only [endState] at hs
      rw [(hF _).events h', List.nil_append, hs]
  ended h := by
    rcases BigStep.of_plain_bind h with ⟨_, _, _, hr, _⟩ | ⟨a, _, h⟩
    · cases hr
    · exact (hF a).ended h
  active h := by
    rcases BigStep.of_plain_bind h with ⟨_, _, _, _, rfl⟩ | ⟨a, _, h⟩
    · exact .inl (by simp)
    · exact (hF a).active h

end PassesLogged

/-! ## Statements -/

section Loops

variable (limit : Nat) {body : BigStep LoopRun Flow} (h : Logged Flow.returns body)

include h

theorem whileRuns_logged {condition : Exec Value} (hc : Moves State.SameLog condition) :
    PassesLogged .while (whileRuns limit body condition) := by
  refine Passes.logged (fun _ => Moves.bind hc fun _ => Moves.pure _) (fun _ => ?_) ()
  exact h.inScope.passEnd (Moves.pure _)

theorem repeatRuns_logged {condition : Exec Value} (hc : Moves State.SameLog condition) :
    PassesLogged .repeat (repeatRuns limit body condition) := by
  refine Passes.logged (fun _ => Moves.pure _) (fun _ => ?_) ()
  exact (h.passEnd (Moves.bind hc fun _ => Moves.pure _)).inScope

theorem bodyWith_logged (x : Name) (v : Value) : Logged Flow.returns (bodyWith body x v) :=
  (Logged.after (Exec.modifyEnv_sameLog _) fun _ => h).inScope

theorem forInRuns_logged (x : Name) {source : Exec Value} (hs : Moves State.SameLog source) :
    PassesLogged .forIn (forInRuns limit body x source) := by
  refine .after hs fun v => ?_
  cases v with
  | iter id =>
    have hnext : Moves State.SameLog (Exec.nextValue id) := Moves.modifyGet fun _ => rfl
    refine Passes.logged (fun _ => Moves.bind hnext fun _ => Moves.pure _) (fun v => ?_) ()
    exact (bodyWith_logged h x v).passEnd (Moves.pure _)
  | nil | bool _ | int _ | str _ | table _ | builtin _ => exact .throw _

theorem numericRuns_logged (x : Name) (start last step : Int64) :
    PassesLogged .numericFor (numericRuns limit body x start last step) := by
  refine Passes.logged (fun _ => Moves.pure _) (fun current => ?_) start
  exact (bodyWith_logged h x _).passEnd (Moves.pure _)

end Loops

mutual

theorem Stmt.runs_logged (limit : Nat) : (s : Stmt) → Logged Flow.returns (s.Runs limit)
  | .loop l => by
    rw [Stmt.Runs]
    exact .loop (l.runs_logged limit)
  | .do b => by
    rw [Stmt.Runs]
    exact b.runs_logged limit
  | .if c t none => by
    rw [Stmt.Runs]
    refine .after c.eval_grows.sameLog fun v => ?_
    split
    · exact t.runs_logged limit
    · exact .plain (Moves.pure _)
  | .if c t (some e) => by
    rw [Stmt.Runs]
    refine .after c.eval_grows.sameLog fun v => ?_
    split
    · exact t.runs_logged limit
    · exact e.runs_logged limit
  | .expr e => by
    rw [Stmt.Runs, Stmt.exec]
    refine .plain (Moves.bind ?_ fun _ => Moves.pure _)
    exact Moves.bind e.eval_grows.sameLog fun _ => Moves.pure _
  | .local decl => by
    rw [Stmt.Runs, Stmt.exec]
    refine .plain (Moves.bind ?_ fun _ => Moves.pure _)
    exact Moves.bind (Expr.evalAll_grows decl.values).sameLog fun _ => Exec.modifyEnv_sameLog _
  | .assign ts vs => by
    rw [Stmt.Runs, Stmt.exec]
    refine .plain (Moves.bind (Expr.evalAll_grows vs).sameLog fun values => ?_)
    exact Moves.bind (Expr.assignAll_sameLog ts values) fun _ => Moves.pure _
  | .break => by
    rw [Stmt.Runs, Stmt.exec]
    exact .plain (Moves.pure _)
  | .return vs => by
    rw [Stmt.Runs, Stmt.exec]
    exact .plain (Moves.bind (Expr.evalAll_grows vs).sameLog fun _ => Moves.pure _)

/-- A block logs what it puts on record. Only a `return` or an error leaves a loop unfinished. -/
theorem Block.runs_logged (limit : Nat) : (b : Block) → Logged Flow.returns (b.Runs limit)
  | ⟨_, ss⟩ => by
    rw [Block.Runs]
    exact (Stmt.runsAll_logged limit ss).inScope

theorem Loop.runs_logged (limit : Nat) : (l : Loop) → PassesLogged l.kind (l.Runs limit)
  | .while c ⟨_, ss⟩ => by
    rw [Loop.Runs]
    exact whileRuns_logged limit (Stmt.runsAll_logged limit ss) c.eval_grows.sameLog
  | .repeat ⟨_, ss⟩ c => by
    rw [Loop.Runs]
    exact repeatRuns_logged limit (Stmt.runsAll_logged limit ss) c.eval_grows.sameLog
  | .forIn x source ⟨_, ss⟩ => by
    rw [Loop.Runs]
    exact forInRuns_logged limit (Stmt.runsAll_logged limit ss) x source.toExpr.eval_grows.sameLog
  | .numericFor x i l s ⟨_, ss⟩ => by
    rw [Loop.Runs]
    refine .after (evalBounds_sameLog i l s) fun bounds => ?_
    exact numericRuns_logged limit (Stmt.runsAll_logged limit ss) x _ _ _

theorem Stmt.runsAll_logged (limit : Nat) :
    (ss : List Stmt) → Logged Flow.returns (Stmt.RunsAll limit ss)
  | [] => by
    rw [Stmt.RunsAll]
    exact .plain (Moves.pure _)
  | s :: ss => by
    rw [Stmt.RunsAll]
    refine .bind (s.runs_logged limit) (fun flow hflow => ?_) fun flow hflow => ?_
    · cases flow with
      | normal => exact Stmt.runsAll_logged limit ss
      | broke => exact .plain (Moves.pure _)
      | returned vs => cases hflow
    · cases flow with
      | normal | broke => cases hflow
      | returned vs => exact ⟨.returned vs, rfl, rfl⟩

end

/-! ## Programs -/

theorem Block.programRuns_logged (limit : Nat) (b : Block) :
    Logged (fun _ => true) (b.ProgramRuns limit) := by
  refine .bind (b.runs_logged limit) (fun flow hflow => ?_) fun flow hflow => ?_
  · cases flow with
    | normal => exact .plain (Moves.pure _)
    | broke => exact .plain (Moves.throw _)
    | returned vs => cases hflow
  · cases flow with
    | normal | broke => cases hflow
    | returned vs => exact ⟨vs, rfl, rfl⟩

/-- A program that neither returns nor fails, except on a `break` outside of a loop, leaves no loop
unfinished. -/
theorem Block.allEnded_of_programRuns {limit : Nat} {b : Block} {s : State}
    {r : EStateM.Result RunError State (List Value)} {runs : List LoopRun}
    (h : b.ProgramRuns limit s r runs) (hreturn : ∀ vs t, b.exec limit s ≠ .ok (.returned vs) t)
    (herror : ∀ e t, r = .error e t → e = .breakOutsideLoop) : AllEnded runs := by
  have hagrees := b.exec_agrees limit
  obtain ⟨log, hlog⟩ := hagrees.run s
  cases h with
  | fails h =>
    -- a block does not fail on `break`, only the program does
    have hexec := (hagrees.unique hlog h).1
    exact absurd (herror _ _ rfl) ((b.exec_contained limit).failure hexec)
  | @goesOn _ t flow _ _ _ h h' =>
    have hexec := (hagrees.unique hlog h).1
    cases flow with
    | normal | broke =>
      have hended := (b.runs_logged limit).ended h rfl
      cases h'
      rwa [List.append_nil]
    | returned vs => exact absurd hexec (hreturn vs t)

/-- **The log of loops is nested.** Every run of a program adds to the log what its record says. If
the program does not end by `return` and fails at most on a `break` outside of a loop, the entries
are matched. In every case they can be completed to matched ones, and the loops that they leave open
are the executions in the run that did not come to an end, the outermost first, each in the last
pass of the one before. An entry for the end of a loop has the number of passes that an execution of
a loop of its kind began, which is at most `limit`. -/
theorem loop_log_nested (limit : Nat) (b : Block) (s : State) :
    ∃ runs stack : List LoopRun,
      (∀ r runs', b.ProgramRuns limit s r runs' ↔ r = b.runProgram limit s ∧ runs' = runs) ∧
      (endState (b.runProgram limit s)).events.toList = s.events.toList ++ LoopRun.logs runs ∧
      ((∀ vs t, b.exec limit s ≠ .ok (.returned vs) t) →
        (∀ e t, b.runProgram limit s = .error e t → e = .breakOutsideLoop) →
        Balanced (LoopRun.logs runs)) ∧
      (∃ rest, Balanced (LoopRun.logs runs ++ rest)) ∧
      openLoops [] (LoopRun.logs runs) = some (stack.map LoopRun.kind).reverse ∧
      (∀ run : LoopRun, run ∈ stack ↔ run.Within runs ∧ run.result ≠ .ok .normal) ∧
      stack.IsChain LoopRun.InLastPass ∧
      ∀ kind n, .finished kind n ∈ LoopRun.logs runs →
        n ≤ limit ∧ ∃ run : LoopRun, run.Within runs ∧ run.kind = kind ∧ run.passes.length = n := by
  have hagrees := b.runProgram_agrees limit
  have hlogged := b.programRuns_logged limit
  have hsound := b.programRuns_sound limit
  obtain ⟨runs, hruns⟩ := hagrees.run s
  obtain ⟨stack, hstack⟩ := hlogged.active hruns
  refine ⟨runs, stack, fun r runs' => ⟨fun h => hagrees.unique h hruns, ?_⟩, hlogged.events hruns,
    fun hreturn herror => ?_, hstack.exists_balanced, ?_, hstack.mem_iff, hstack.isChain,
    fun kind n hn => ?_⟩
  · rintro ⟨rfl, rfl⟩
    exact hruns
  · exact LoopRun.balanced_logs runs (Block.allEnded_of_programRuns hruns hreturn herror)
  · rw [hstack.openLoops_logs [], List.append_nil]
  · obtain ⟨run, hrun, hkind, hlength⟩ := LoopRun.of_finished_mem runs hn
    have hbudget := (hsound.inBudget hruns run hrun).length_le
    exact ⟨hlength ▸ hbudget, run, hrun, hkind, hlength⟩

/-- Returns from a `repeat` loop in the second pass of a `for … in` loop. -/
def returningElements : Block :=
  ⟨.bare, [
    .loop (.forIn "x" ⟨.ident Name.defaultAdapter, [.table [.int 1, .int 2]]⟩ ⟨.doEnd, [
      .loop (.repeat
        ⟨.bare, [.if (.binary .eq (.ident "x") (.int 2)) ⟨.bare, [.return [.ident "x"]]⟩ none]⟩
        (.bool true))]⟩)]⟩

/-- The run of `returningElements` leaves both loops open. -/
theorem loop_log_nested_returningElements :
    ∃ runs stack : List LoopRun,
      returningElements.ProgramRuns 2 ({} : RunConfig).initial
        (returningElements.runProgram 2 ({} : RunConfig).initial) runs ∧
      LoopRun.logs runs =
        [.entered .forIn, .entered .repeat, .finished .repeat 1, .entered .repeat] ∧
      stack.map LoopRun.kind = [.forIn, .repeat] ∧
      ∀ run : LoopRun, run ∈ stack ↔ run.Within runs ∧ run.result ≠ .ok .normal := by
  obtain ⟨runs, stack, hruns, hevents, _, _, hopen, hstack, _, _⟩ :=
    loop_log_nested 2 returningElements ({} : RunConfig).initial
  have hlog : (endState (returningElements.runProgram 2 ({} : RunConfig).initial)).events.toList =
      [.entered .forIn, .entered .repeat, .finished .repeat 1, .entered .repeat] := by
    decide +kernel
  have hlogs := hevents.symm.trans hlog
  have hkinds : (stack.map LoopRun.kind).reverse = [.repeat, .forIn] := by
    rw [show LoopRun.logs runs = _ from hlogs] at hopen
    exact (Option.some.inj hopen).symm
  refine ⟨runs, stack, (hruns _ _).mpr ⟨rfl, rfl⟩, hlogs, ?_, hstack⟩
  rw [← List.reverse_reverse (stack.map LoopRun.kind), hkinds]
  rfl

end LoopLowering
