import LoopLowering.Proofs.LimitFree
import LoopLowering.Proofs.Runs

/- The passes that loops run. In the run of a program, at most `limit` passes are
   begun in each execution of a loop, and an execution that fails on its own budget
   has begun exactly `limit` passes, of which each ended normally (`InBudget`).

   The error of a budget that is used up comes from loops only, so a program ends
   with it exactly when one of the executions in its run failed on its own budget.
   `Sound` says both of a set of rules. It is kept by sequencing and by scopes, it
   holds of an execution of a loop when it holds of the passes (`PassesSound`), and
   of the passes by induction on how they are derived (`Passes.sound`). -/
namespace LoopLowering

/-! ## Runs within the budget -/

/-- The execution keeps to a budget of `limit` passes. If it fails on a budget of its own, that is
this budget, and it has begun exactly as many passes as the budget has, each of which ended
normally, so that the loop went on. -/
structure LoopRun.InBudget (limit : Nat) (run : LoopRun) : Prop where
  length_le : run.passes.length ≤ limit
  of_failsOn {n : Nat} : run.FailsOn n →
    n = limit ∧ run.passes.length = limit ∧ ∀ p ∈ run.passes, p.ended = .again

/-- Every run keeps to the budget, and ends with a budget used up exactly when one of the executions
in it failed on its own budget. -/
structure Sound {α : Type} (limit : Nat) (X : BigStep LoopRun α) : Prop where
  inBudget {s : State} {r : EStateM.Result RunError State α} {runs : List LoopRun} :
    X s r runs → ∀ run : LoopRun, run.Within runs → run.InBudget limit
  exhausted_iff {s : State} {r : EStateM.Result RunError State α} {runs : List LoopRun} :
    X s r runs → ∀ n, (∃ t, r = .error (.iterationLimit n) t) ↔
      ∃ run : LoopRun, run.Within runs ∧ run.FailsOn n

/-- A pass failed, and inside it an execution on its own budget of `n` passes. -/
def FailsInside (passes : List PassRun) (n : Nat) : Prop :=
  ∃ p ∈ passes, (∃ e, p.ended = .failed e) ∧ ∃ run : LoopRun, run.Within p.inner ∧ run.FailsOn n

/-- As `Sound`, for the passes of a loop. A loop ends with a budget used up when its own is, after
passes that all ended normally, or when one is inside a pass. -/
structure PassesSound (limit : Nat) (X : BigStep PassRun Flow) : Prop where
  length_le {s : State} {r : EStateM.Result RunError State Flow} {passes : List PassRun} :
    X s r passes → passes.length ≤ limit
  inBudget {s : State} {r : EStateM.Result RunError State Flow} {passes : List PassRun} :
    X s r passes → ∀ p ∈ passes, ∀ run : LoopRun, run.Within p.inner → run.InBudget limit
  exhausted {s t : State} {n : Nat} {r : EStateM.Result RunError State Flow}
    {passes : List PassRun} : X s r passes → r = .error (.iterationLimit n) t →
      (n = limit ∧ passes.length = limit ∧ ∀ p ∈ passes, p.ended = .again) ∨ FailsInside passes n
  fails {s : State} {n : Nat} {r : EStateM.Result RunError State Flow} {passes : List PassRun} :
    X s r passes → ∀ p ∈ passes, ∀ run : LoopRun, run.Within p.inner → run.FailsOn n →
      ∃ t, r = .error (.iterationLimit n) t

namespace Sound

variable {α β : Type} {limit : Nat}

theorem plain {x : Exec α} (hx : LimitFree x) : Sound limit (.plain x) where
  inBudget h run hrun := by
    cases h
    exact absurd hrun run.not_within_nil
  exhausted_iff {s _ _} h n := by
    cases h
    constructor
    · intro hr
      exact absurd ⟨n, hr⟩ (hx s)
    · intro hrun
      obtain ⟨run, hrun, _⟩ := hrun
      exact absurd hrun run.not_within_nil

theorem bind {X : BigStep LoopRun α} {F : α → BigStep LoopRun β} (hX : Sound limit X)
    (hF : ∀ a, Sound limit (F a)) : Sound limit (X.bind F) where
  inBudget h run hrun := by
    cases h with
    | fails h => exact hX.inBudget h run hrun
    | goesOn h h' =>
      rcases LoopRun.within_append.mp hrun with hrun | hrun
      · exact hX.inBudget h run hrun
      · exact (hF _).inBudget h' run hrun
  exhausted_iff h n := by
    cases h with
    | fails h =>
      rw [← hX.exhausted_iff h n]
      simp
    | goesOn h h' =>
      rw [(hF _).exhausted_iff h' n]
      constructor
      · intro hrun
        obtain ⟨run, hrun, hfails⟩ := hrun
        exact ⟨run, LoopRun.within_append.mpr (.inr hrun), hfails⟩
      · intro hrun
        obtain ⟨run, hrun, hfails⟩ := hrun
        rcases LoopRun.within_append.mp hrun with hrun | hrun
        -- the first part did not fail, so no execution in it did
        · obtain ⟨_, hr⟩ := (hX.exhausted_iff h n).mpr ⟨run, hrun, hfails⟩
          cases hr
        · exact ⟨run, hrun, hfails⟩

theorem inScope {X : BigStep LoopRun α} (hX : Sound limit X) : Sound limit X.inScope where
  inBudget h run hrun := by
    cases h with
    | ends h => exact hX.inBudget h run hrun
    | fails h => exact hX.inBudget h run hrun
  exhausted_iff h n := by
    cases h with
    | ends h =>
      rw [← hX.exhausted_iff h n]
      simp
    | fails h =>
      rw [← hX.exhausted_iff h n]
      simp

theorem execution {X : BigStep PassRun Flow} (hX : PassesSound limit X) (kind : LoopKind) :
    Sound limit (Execution kind X) where
  inBudget h run hrun := by
    obtain ⟨h⟩ := h
    rcases LoopRun.within_singleton.mp hrun with rfl | ⟨p, hp, hrun⟩
    · refine ⟨hX.length_le h, fun hfails => ?_⟩
      obtain ⟨t, hr⟩ := resultOf_eq_error.mp hfails.1
      rcases hX.exhausted h hr with hown | ⟨p, hp, ⟨e, he⟩, _⟩
      · exact hown
      -- none of the passes failed
      · exact absurd he (hfails.2 p hp e)
    · exact hX.inBudget h p hp run hrun
  exhausted_iff h n := by
    obtain ⟨h⟩ := h
    constructor
    · intro hr
      obtain ⟨t, hr⟩ := hr
      rcases hX.exhausted h hr with ⟨_, _, hagain⟩ | ⟨p, hp, _, run, hrun, hfails⟩
      · refine ⟨_, LoopRun.within_singleton.mpr (.inl rfl), resultOf_eq_error.mpr ⟨t, hr⟩, ?_⟩
        intro p hp e he
        rw [hagain p hp] at he
        cases he
      · exact ⟨run, LoopRun.within_singleton.mpr (.inr ⟨p, hp, hrun⟩), hfails⟩
    · intro hrun
      obtain ⟨run, hrun, hfails⟩ := hrun
      rcases LoopRun.within_singleton.mp hrun with rfl | ⟨p, hp, hrun⟩
      · exact resultOf_eq_error.mp hfails.1
      · exact hX.fails h p hp run hrun hfails

end Sound

/-! ## Passes -/

namespace Passes

variable {α β : Type} {limit : Nat} {kind : LoopKind} {begins : β → Exec (Option α)}
  {Pass : α → BigStep LoopRun (PassEnd β)} {used : Nat} {b : β} {s : State}
  {r : EStateM.Result RunError State Flow} {passes : List PassRun}

/-- The passes that were begun before and those on record are within the limit. -/
theorem length_le (h : Passes limit kind begins Pass used b s r passes) (hused : used ≤ limit) :
    used + passes.length ≤ limit := by
  induction h with
  | testFails _ | finished _ | refused _ _ => exact hused
  | failed _ hlt _ | stopped _ hlt _ | returned _ hlt _ => exact hlt
  | again _ hlt _ _ ih =>
    have hrest := ih hlt
    rw [List.length_cons]
    omega

/-- Every pass on record was run. If it failed, the loop failed with the same error. -/
theorem of_mem (h : Passes limit kind begins Pass used b s r passes) {p : PassRun}
    (hp : p ∈ passes) :
    (∃ a t e u, Pass a t (.error e u) p.inner ∧ r = .error e u) ∨
    ∃ a t ended u, Pass a t (.ok ended u) p.inner := by
  induction h with
  | testFails _ | finished _ | refused _ _ => cases hp
  | failed _ _ hpass =>
    cases List.mem_singleton.mp hp
    exact .inl ⟨_, _, _, _, hpass, rfl⟩
  | stopped _ _ hpass | returned _ _ hpass =>
    cases List.mem_singleton.mp hp
    exact .inr ⟨_, _, _, _, hpass⟩
  | again _ _ hpass _ ih =>
    rcases List.mem_cons.mp hp with rfl | hp
    · exact .inr ⟨_, _, _, _, hpass⟩
    · exact ih hp

theorem exhausted (hb : ∀ b, LimitFree (begins b)) (hP : ∀ a, Sound limit (Pass a))
    (h : Passes limit kind begins Pass used b s r passes) (hused : used ≤ limit) {n : Nat}
    {t : State} (hr : r = .error (.iterationLimit n) t) :
    (n = limit ∧ used + passes.length = limit ∧ ∀ p ∈ passes, p.ended = .again) ∨
      FailsInside passes n := by
  induction h with
  | testFails htest =>
    cases hr
    exact absurd ⟨_, _, htest⟩ (hb _ _)
  | finished _ | stopped _ _ _ | returned _ _ _ => cases hr
  | refused _ hle =>
    cases hr
    exact .inl ⟨rfl, Nat.le_antisymm hused hle, nofun⟩
  | failed _ _ hpass =>
    cases hr
    have hinner := ((hP _).exhausted_iff hpass n).mp ⟨_, rfl⟩
    exact .inr ⟨_, List.mem_singleton_self _, ⟨_, rfl⟩, hinner⟩
  | again _ hlt _ _ ih =>
    rcases ih hlt hr with ⟨hn, hlength, hagain⟩ | ⟨p, hp, hinside⟩
    · refine .inl ⟨hn, ?_, List.forall_mem_cons.mpr ⟨rfl, hagain⟩⟩
      rw [List.length_cons]
      omega
    · exact .inr ⟨p, List.mem_cons_of_mem _ hp, hinside⟩

theorem sound (hb : ∀ b, LimitFree (begins b)) (hP : ∀ a, Sound limit (Pass a)) (b : β) :
    PassesSound limit (Passes limit kind begins Pass 0 b) where
  length_le h := by
    have hle := h.length_le (Nat.zero_le _)
    rwa [Nat.zero_add] at hle
  inBudget h p hp run hrun := by
    rcases h.of_mem hp with ⟨a, _, _, _, hpass, _⟩ | ⟨a, _, _, _, hpass⟩
    · exact (hP a).inBudget hpass run hrun
    · exact (hP a).inBudget hpass run hrun
  exhausted h hr := by
    have hends := h.exhausted hb hP (Nat.zero_le _) hr
    rwa [Nat.zero_add] at hends
  fails {_ n _ _} h p hp run hrun hfails := by
    rcases h.of_mem hp with ⟨a, _, _, _, hpass, rfl⟩ | ⟨a, _, _, _, hpass⟩
    · obtain ⟨_, hr⟩ := ((hP a).exhausted_iff hpass n).mpr ⟨run, hrun, hfails⟩
      cases hr
      exact ⟨_, rfl⟩
    · obtain ⟨_, hr⟩ := ((hP a).exhausted_iff hpass n).mpr ⟨run, hrun, hfails⟩
      cases hr

end Passes

namespace PassesSound

variable {α : Type} {limit : Nat} {x : Exec α}

theorem plain {x : Exec Flow} (hx : LimitFree x) : PassesSound limit (.plain x) where
  length_le h := by
    cases h
    exact Nat.zero_le _
  inBudget h := by
    cases h
    exact nofun
  exhausted h hr := by
    cases h
    exact absurd ⟨_, _, hr⟩ (hx _)
  fails h := by
    cases h
    exact nofun

theorem after (hx : LimitFree x) {F : α → BigStep PassRun Flow}
    (hF : ∀ a, PassesSound limit (F a)) : PassesSound limit (.bind (.plain x) F) where
  length_le h := by
    rcases BigStep.of_plain_bind h with ⟨e, t, _, _, rfl⟩ | ⟨a, t, h⟩
    · exact Nat.zero_le _
    · exact (hF a).length_le h
  inBudget h := by
    rcases BigStep.of_plain_bind h with ⟨e, t, _, _, rfl⟩ | ⟨a, t, h⟩
    · exact nofun
    · exact (hF a).inBudget h
  exhausted h hr := by
    rcases BigStep.of_plain_bind h with ⟨e, t, hs, rfl, _⟩ | ⟨a, t, h⟩
    · cases hr
      exact absurd ⟨_, _, hs⟩ (hx _)
    · exact (hF a).exhausted h hr
  fails h := by
    rcases BigStep.of_plain_bind h with ⟨e, t, _, _, rfl⟩ | ⟨a, t, h⟩
    · exact nofun
    · exact (hF a).fails h

end PassesSound

/-! ## Statements -/

section Loops

variable {limit : Nat} {body : BigStep LoopRun Flow} (h : Sound limit body)

include h

theorem whileRuns_sound {condition : Exec Value} (hc : LimitFree condition) :
    PassesSound limit (whileRuns limit body condition) := by
  refine Passes.sound (fun _ => .bind hc fun _ => .pure _) (fun _ => ?_) ()
  exact .bind h.inScope fun flow => .plain (.passEnd (.pure _) flow)

theorem repeatRuns_sound {condition : Exec Value} (hc : LimitFree condition) :
    PassesSound limit (repeatRuns limit body condition) := by
  refine Passes.sound (fun _ => .pure _) (fun _ => ?_) ()
  exact .inScope (.bind h fun flow => .plain (.passEnd (.bind hc fun _ => .pure _) flow))

theorem bodyWith_sound (x : Name) (v : Value) : Sound limit (bodyWith body x v) :=
  .inScope (.bind (.plain (.modify _)) fun _ => h)

theorem forInRuns_sound (x : Name) {source : Exec Value} (hs : LimitFree source) :
    PassesSound limit (forInRuns limit body x source) := by
  refine .after hs fun v => ?_
  cases v with
  | iter id =>
    refine Passes.sound (fun _ => .bind (.modifyGet _) fun _ => .pure _) (fun v => ?_) ()
    exact .bind (bodyWith_sound h x v) fun flow => .plain (.passEnd (.pure _) flow)
  | nil | bool _ | int _ | str _ | table _ | builtin _ => exact .plain (.throw (by simp))

theorem numericRuns_sound (x : Name) (start last step : Int64) :
    PassesSound limit (numericRuns limit body x start last step) := by
  refine Passes.sound (fun _ => .pure _) (fun current => ?_) start
  exact .bind (bodyWith_sound h x _) fun flow => .plain (.passEnd (.pure _) flow)

end Loops

mutual

theorem Stmt.runs_sound (limit : Nat) : (s : Stmt) → Sound limit (s.Runs limit)
  | .loop l => by
    rw [Stmt.Runs]
    exact .bind (.plain (.modify _)) fun _ => .execution (l.runs_sound limit) l.kind
  | .do b => by
    rw [Stmt.Runs]
    exact b.runs_sound limit
  | .if c t none => by
    rw [Stmt.Runs]
    refine .bind (.plain c.eval_limitFree) fun v => ?_
    split
    · exact t.runs_sound limit
    · exact .plain (.pure _)
  | .if c t (some e) => by
    rw [Stmt.Runs]
    refine .bind (.plain c.eval_limitFree) fun v => ?_
    split
    · exact t.runs_sound limit
    · exact e.runs_sound limit
  | .expr e => by
    rw [Stmt.Runs, Stmt.exec]
    exact .plain (.bind (.bind e.eval_limitFree fun _ => .pure _) fun _ => .pure _)
  | .local decl => by
    rw [Stmt.Runs, Stmt.exec]
    refine .plain (.bind ?_ fun _ => .pure _)
    exact .bind (Expr.evalAll_limitFree decl.values) fun _ => .modify _
  | .assign ts vs => by
    rw [Stmt.Runs, Stmt.exec]
    refine .plain (.bind (Expr.evalAll_limitFree vs) fun values => ?_)
    exact .bind (Expr.assignAll_limitFree ts values) fun _ => .pure _
  | .break => by
    rw [Stmt.Runs, Stmt.exec]
    exact .plain (.pure _)
  | .return vs => by
    rw [Stmt.Runs, Stmt.exec]
    exact .plain (.bind (Expr.evalAll_limitFree vs) fun _ => .pure _)

theorem Block.runs_sound (limit : Nat) : (b : Block) → Sound limit (b.Runs limit)
  | ⟨_, ss⟩ => by
    rw [Block.Runs]
    exact (Stmt.runsAll_sound limit ss).inScope

theorem Loop.runs_sound (limit : Nat) : (l : Loop) → PassesSound limit (l.Runs limit)
  | .while c ⟨_, ss⟩ => by
    rw [Loop.Runs]
    exact whileRuns_sound (Stmt.runsAll_sound limit ss) c.eval_limitFree
  | .repeat ⟨_, ss⟩ c => by
    rw [Loop.Runs]
    exact repeatRuns_sound (Stmt.runsAll_sound limit ss) c.eval_limitFree
  | .forIn x source ⟨_, ss⟩ => by
    rw [Loop.Runs]
    exact forInRuns_sound (Stmt.runsAll_sound limit ss) x source.toExpr.eval_limitFree
  | .numericFor x i l s ⟨_, ss⟩ => by
    rw [Loop.Runs]
    refine .after (evalBounds_limitFree i l s) fun bounds => ?_
    exact numericRuns_sound (Stmt.runsAll_sound limit ss) x _ _ _

theorem Stmt.runsAll_sound (limit : Nat) : (ss : List Stmt) → Sound limit (Stmt.RunsAll limit ss)
  | [] => by
    rw [Stmt.RunsAll]
    exact .plain (.pure _)
  | s :: ss => by
    rw [Stmt.RunsAll]
    refine .bind (s.runs_sound limit) fun flow => ?_
    cases flow with
    | normal => exact Stmt.runsAll_sound limit ss
    | broke => exact .plain (.pure _)
    | returned vs => exact .plain (.pure _)

end

theorem Block.programRuns_sound (limit : Nat) (b : Block) : Sound limit (b.ProgramRuns limit) := by
  refine .bind (b.runs_sound limit) fun flow => ?_
  cases flow with
  | normal => exact .plain (.pure _)
  | broke => exact .plain (.throw (by simp))
  | returned vs => exact .plain (.pure _)

/-- **Every program ends, and its loops keep to their budgets.** From every state a program has
exactly one run, which ends as the program does, with values or with an error. In each execution of
a loop in this run, at any depth, at most `limit` passes are begun. If it fails on its own budget,
the error names `limit`, and exactly `limit` passes were begun and ended normally. The program ends
with the error of a budget used up exactly when one of these executions fails on its own. -/
theorem runs_end_within_budget (limit : Nat) (b : Block) (s : State) :
    ∃ runs : List LoopRun,
      (∀ r runs', b.ProgramRuns limit s r runs' ↔ r = b.runProgram limit s ∧ runs' = runs) ∧
      (∀ run : LoopRun, run.Within runs →
        run.passes.length ≤ limit ∧
        ∀ n, run.FailsOn n →
          n = limit ∧ run.passes.length = limit ∧ ∀ p ∈ run.passes, p.ended = .again) ∧
      ∀ n, (∃ t, b.runProgram limit s = .error (.iterationLimit n) t) ↔
        ∃ run : LoopRun, run.Within runs ∧ run.FailsOn n := by
  have hagrees := b.runProgram_agrees limit
  have hsound := b.programRuns_sound limit
  obtain ⟨runs, hruns⟩ := hagrees.run s
  refine ⟨runs, fun r runs' => ⟨fun h => hagrees.unique h hruns, ?_⟩, fun run hrun => ?_,
    hsound.exhausted_iff hruns⟩
  · intro h
    obtain ⟨rfl, rfl⟩ := h
    exact hruns
  · have hbudget := hsound.inBudget hruns run hrun
    exact ⟨hbudget.length_le, fun n => hbudget.of_failsOn⟩

/-- With a budget of one pass, `steppedElements` fails on the budget of one of its loops. -/
theorem runs_end_within_budget_steppedElements :
    ∃ (runs : List LoopRun) (run : LoopRun),
      steppedElements.ProgramRuns 1 ({} : RunConfig).initial
        (steppedElements.runProgram 1 ({} : RunConfig).initial) runs ∧
      run.Within runs ∧ run.FailsOn 1 ∧ run.passes.length = 1 := by
  obtain ⟨runs, hruns, hbudget, hfails_iff⟩ :=
    runs_end_within_budget 1 steppedElements ({} : RunConfig).initial
  have hexhausted : Exhausted (steppedElements.runProgram 1 ({} : RunConfig).initial) := by
    decide +kernel
  obtain ⟨n, hn⟩ := hexhausted
  obtain ⟨run, hrun, hfails⟩ := (hfails_iff n).mp hn
  obtain ⟨rfl, hlength, _⟩ := (hbudget run hrun).2 n hfails
  exact ⟨runs, run, (hruns _ _).mpr ⟨rfl, rfl⟩, hrun, hfails, hlength⟩

end LoopLowering
