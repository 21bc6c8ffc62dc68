import LoopLowering.Run.Program

/- Runs of programs. A second semantics, which says what a run is and what it
   consists of. `Stmt.Runs`, `Block.Runs` and `Loop.Runs` relate the state in which a
   run starts to how it ends and to a record of the executions of loops in it, each
   with the passes that it began and each pass with the executions inside it.

   The rules for the passes of a loop (`Passes`) count the passes that were begun and
   compare the count with the limit before each pass. Nothing bounds the derivations
   of these rules in advance: a loop that never ended would have no run. -/
namespace LoopLowering

/-! ## Records of runs -/

/-- How a pass of a loop ended: the loop went on, it stopped, the program returned, or the pass
failed. -/
inductive PassEnding where
  | again
  | stop
  | returned
  | failed (error : RunError)
  deriving DecidableEq, Repr

mutual

/-- A pass of a loop: the executions of loops inside it, in order, and how it ended. -/
structure PassRun where
  inner : List LoopRun
  ended : PassEnding

/-- An execution of a loop: the passes that it began, in order, and its result. -/
structure LoopRun where
  kind : LoopKind
  passes : List PassRun
  result : Except RunError Flow

end

/-- The execution is one of the given ones or inside one of them, at any depth. -/
inductive LoopRun.Within (run : LoopRun) : List LoopRun → Prop where
  | here {runs : List LoopRun} : run ∈ runs → run.Within runs
  | inside {runs : List LoopRun} {outer : LoopRun} {p : PassRun} :
    outer ∈ runs → p ∈ outer.passes → run.Within p.inner → run.Within runs

namespace LoopRun

theorem not_within_nil (run : LoopRun) : ¬run.Within [] := by
  intro h
  cases h with
  | here h => cases h
  | inside h => cases h

theorem within_append {run : LoopRun} {runs runs' : List LoopRun} :
    run.Within (runs ++ runs') ↔ run.Within runs ∨ run.Within runs' := by
  constructor
  · intro h
    cases h with
    | here h => exact (List.mem_append.mp h).imp .here .here
    | inside h hp hrun => exact (List.mem_append.mp h).imp (.inside · hp hrun) (.inside · hp hrun)
  · intro h
    rcases h with (h | ⟨h, hp, hrun⟩) | (h | ⟨h, hp, hrun⟩)
    · exact .here (List.mem_append_left _ h)
    · exact .inside (List.mem_append_left _ h) hp hrun
    · exact .here (List.mem_append_right _ h)
    · exact .inside (List.mem_append_right _ h) hp hrun

theorem within_singleton {run outer : LoopRun} :
    run.Within [outer] ↔ run = outer ∨ ∃ p ∈ outer.passes, run.Within p.inner := by
  constructor
  · intro h
    cases h with
    | here h => exact .inl (List.mem_singleton.mp h)
    | inside h hp hrun =>
      cases List.mem_singleton.mp h
      exact .inr ⟨_, hp, hrun⟩
  · intro h
    rcases h with rfl | ⟨p, hp, hrun⟩
    · exact .here (List.mem_singleton_self _)
    · exact .inside (List.mem_singleton_self _) hp hrun

end LoopRun

/-- The execution failed on its own budget of `n` passes: that is its error, and it is not the error
of one of its passes. -/
def LoopRun.FailsOn (run : LoopRun) (n : Nat) : Prop :=
  run.result = .error (.iterationLimit n) ∧ ∀ p ∈ run.passes, ∀ e, p.ended ≠ .failed e

/-! ## Rules -/

/-- The runs of a computation: where a run starts, how it ends, and the record of what it ran. -/
abbrev BigStep (ρ α : Type) :=
  State → EStateM.Result RunError State α → List ρ → Prop

namespace BigStep

variable {ρ α β : Type}

/-- A computation that runs no loop. -/
inductive plain (x : Exec α) : BigStep ρ α
  | run (s : State) : plain x s (x s) []

/-- One computation after the other, unless the first fails. -/
inductive bind (x : BigStep ρ α) (f : α → BigStep ρ β) : BigStep ρ β
  | fails {s t : State} {e : RunError} {log : List ρ} :
    x s (.error e t) log → bind x f s (.error e t) log
  | goesOn {s t : State} {a : α} {r : EStateM.Result RunError State β} {log log' : List ρ} :
    x s (.ok a t) log → f a t r log' → bind x f s r (log ++ log')

inductive inScope (x : BigStep ρ α) : BigStep ρ α
  | ends {s t : State} {a : α} {log : List ρ} :
    x { s with env := s.env.openScope } (.ok a t) log →
      inScope x s (.ok a { t with env := t.env.closeScope }) log
  | fails {s t : State} {e : RunError} {log : List ρ} :
    x { s with env := s.env.openScope } (.error e t) log →
      inScope x s (.error e { t with env := t.env.closeScope }) log

theorem of_plain_bind {x : Exec α} {F : α → BigStep ρ β} {s : State}
    {r : EStateM.Result RunError State β} {log : List ρ} (h : (plain x).bind F s r log) :
    (∃ e t, x s = .error e t ∧ r = .error e t ∧ log = []) ∨ ∃ a t, F a t r log := by
  cases h with
  | fails h =>
    generalize hr : EStateM.Result.error _ _ = r' at h
    cases h
    exact .inl ⟨_, _, hr.symm, rfl, rfl⟩
  | goesOn h h' =>
    generalize EStateM.Result.ok _ _ = r' at h
    cases h
    exact .inr ⟨_, _, h'⟩

end BigStep

/-- The passes of a loop of which `used` were begun before. `begins` says whether a pass begins, and
with what. -/
inductive Passes {α β : Type} (limit : Nat) (kind : LoopKind) (begins : β → Exec (Option α))
    (pass : α → BigStep LoopRun (PassEnd β)) : Nat → β → BigStep PassRun Flow
  | testFails {used : Nat} {b : β} {s t : State} {e : RunError} :
    begins b s = .error e t → Passes limit kind begins pass used b s (.error e t) []
  | finished {used : Nat} {b : β} {s t : State} :
    begins b s = .ok none t → Passes limit kind begins pass used b s (finishLoop kind used t) []
  | refused {used : Nat} {b : β} {s t : State} {a : α} :
    begins b s = .ok (some a) t → limit ≤ used →
      Passes limit kind begins pass used b s (.error (.iterationLimit limit) t) []
  | failed {used : Nat} {b : β} {s t u : State} {a : α} {e : RunError} {inner : List LoopRun} :
    begins b s = .ok (some a) t → used < limit → pass a t (.error e u) inner →
      Passes limit kind begins pass used b s (.error e u) [⟨inner, .failed e⟩]
  | stopped {used : Nat} {b : β} {s t u : State} {a : α} {inner : List LoopRun} :
    begins b s = .ok (some a) t → used < limit → pass a t (.ok .stop u) inner →
      Passes limit kind begins pass used b s (finishLoop kind (used + 1) u) [⟨inner, .stop⟩]
  | returned {used : Nat} {b : β} {s t u : State} {a : α} {vs : List Value}
      {inner : List LoopRun} :
    begins b s = .ok (some a) t → used < limit → pass a t (.ok (.returned vs) u) inner →
      Passes limit kind begins pass used b s (.ok (.returned vs) u) [⟨inner, .returned⟩]
  | again {used : Nat} {b next : β} {s t u : State} {a : α} {inner : List LoopRun}
      {r : EStateM.Result RunError State Flow} {passes : List PassRun} :
    begins b s = .ok (some a) t → used < limit → pass a t (.ok (.again next) u) inner →
      Passes limit kind begins pass (used + 1) next u r passes →
      Passes limit kind begins pass used b s r (⟨inner, .again⟩ :: passes)

/-- The result of a run without the state. -/
def resultOf {α : Type} : EStateM.Result RunError State α → Except RunError α
  | .ok a _ => .ok a
  | .error e _ => .error e

theorem resultOf_eq_error {α : Type} {r : EStateM.Result RunError State α} {e : RunError} :
    resultOf r = .error e ↔ ∃ t, r = .error e t := by
  cases r with
  | ok a t => simp [resultOf]
  | error e' t => simp [resultOf]

theorem resultOf_eq_ok {α : Type} {r : EStateM.Result RunError State α} {a : α} :
    resultOf r = .ok a ↔ ∃ t, r = .ok a t := by
  cases r with
  | ok a' t => simp [resultOf]
  | error e t => simp [resultOf]

/-- An execution of a loop, put on record with its passes. -/
inductive Execution (kind : LoopKind) (passes : BigStep PassRun Flow) : BigStep LoopRun Flow
  | run {s : State} {r : EStateM.Result RunError State Flow} {log : List PassRun} :
    passes s r log → Execution kind passes s r [⟨kind, log, resultOf r⟩]

/-! ## Statements -/

section Loops

variable (limit : Nat) (body : BigStep LoopRun Flow)

def whileRuns (condition : Exec Value) : BigStep PassRun Flow :=
  Passes limit .while
    (fun () => do return if (← condition).truthy then some () else none)
    (fun () => body.inScope.bind fun flow => .plain (flow.passEnd (pure (.again ()))))
    0 ()

def repeatRuns (condition : Exec Value) : BigStep PassRun Flow :=
  Passes limit .repeat
    (fun () => pure (some ()))
    (fun () => .inScope <| body.bind fun flow =>
      .plain (flow.passEnd do return if (← condition).truthy then .stop else .again ()))
    0 ()

/-- The body of a loop with the loop's variable, in a scope of their own. -/
def bodyWith (x : Name) (v : Value) : BigStep LoopRun Flow :=
  .inScope (.bind (.plain (Exec.modifyEnv (·.declare x v))) fun _ => body)

def forInRuns (x : Name) (source : Exec Value) : BigStep PassRun Flow :=
  .bind (.plain source) fun
    | .iter id =>
      Passes limit .forIn
        (fun () => return (← Exec.nextValue id).filter (· ≠ .nil))
        (fun v => (bodyWith body x v).bind fun flow => .plain (flow.passEnd (pure (.again ()))))
        0 ()
    | v => .plain (throw (.notIterable v.type))

def numericRuns (x : Name) (start last step : Int64) : BigStep PassRun Flow :=
  Passes limit .numericFor
    (fun current => pure (if inBounds last step current then some current else none))
    (fun current => (bodyWith body x (.int current)).bind fun flow =>
      .plain (flow.passEnd (pure ((toWord? (current.toInt + step.toInt)).elim .stop .again))))
    0 start

end Loops

mutual

def Stmt.Runs (limit : Nat) : Stmt → BigStep LoopRun Flow
  | .loop l =>
    .bind (.plain (Exec.log (.entered l.kind))) fun _ => Execution l.kind (l.Runs limit)
  | .do b => b.Runs limit
  | .if c t none =>
    .bind (.plain c.eval) fun v => if v.truthy then t.Runs limit else .plain (pure .normal)
  | .if c t (some e) =>
    .bind (.plain c.eval) fun v => if v.truthy then t.Runs limit else e.Runs limit
  -- in the other statements there is no place for a loop
  | .expr e => .plain ((Stmt.expr e).exec limit)
  | .local decl => .plain ((Stmt.local decl).exec limit)
  | .assign ts vs => .plain ((Stmt.assign ts vs).exec limit)
  | .break => .plain (Stmt.break.exec limit)
  | .return vs => .plain ((Stmt.return vs).exec limit)

def Block.Runs (limit : Nat) : Block → BigStep LoopRun Flow
  | ⟨_, ss⟩ => .inScope (Stmt.RunsAll limit ss)

def Loop.Runs (limit : Nat) : Loop → BigStep PassRun Flow
  | .while c ⟨_, ss⟩ => whileRuns limit (Stmt.RunsAll limit ss) c.eval
  | .repeat ⟨_, ss⟩ c => repeatRuns limit (Stmt.RunsAll limit ss) c.eval
  | .forIn x source ⟨_, ss⟩ => forInRuns limit (Stmt.RunsAll limit ss) x source.eval
  | .numericFor x i l s ⟨_, ss⟩ =>
    .bind (.plain (evalBounds i l s)) fun (start, last, step) =>
      numericRuns limit (Stmt.RunsAll limit ss) x start last step

/-- The runs of statements one after the other, until one does not end normally. -/
def Stmt.RunsAll (limit : Nat) : List Stmt → BigStep LoopRun Flow
  | [] => .plain (pure .normal)
  | s :: ss => .bind (s.Runs limit) fun
    | .normal => Stmt.RunsAll limit ss
    | flow => .plain (pure flow)

end

/-- The runs of a block as a program. -/
def Block.ProgramRuns (limit : Nat) (b : Block) : BigStep LoopRun (List Value) :=
  .bind (b.Runs limit) fun
    | .normal => .plain (pure [])
    | .broke => .plain (throw .breakOutsideLoop)
    | .returned vs => .plain (pure vs)

/-! ## Runs and execution -/

/-- The computation `x` and the rules `X` agree: from every state there is exactly one run, and it
ends as `x` does. -/
structure Agrees {ρ α : Type} (x : Exec α) (X : BigStep ρ α) : Prop where
  run (s : State) : ∃ log, X s (x s) log
  unique {s : State} {r r' : EStateM.Result RunError State α} {log log' : List ρ} :
    X s r log → X s r' log' → r = r' ∧ log = log'

namespace Agrees

variable {ρ α β : Type}

theorem plain (x : Exec α) : Agrees x (.plain x : BigStep ρ α) where
  run s := ⟨[], .run s⟩
  unique h h' := by
    cases h
    cases h'
    exact ⟨rfl, rfl⟩

theorem bind {x : Exec α} {f : α → Exec β} {X : BigStep ρ α} {F : α → BigStep ρ β}
    (hx : Agrees x X) (hf : ∀ a, Agrees (f a) (F a)) : Agrees (x >>= f) (X.bind F) where
  run s := by
    obtain ⟨log, hlog⟩ := hx.run s
    show ∃ log, X.bind F s (EStateM.bind x f s) log
    unfold EStateM.bind
    cases hr : x s with
    | ok a t =>
      rw [hr] at hlog
      obtain ⟨log', hlog'⟩ := (hf a).run t
      exact ⟨log ++ log', .goesOn hlog hlog'⟩
    | error e t =>
      rw [hr] at hlog
      exact ⟨log, .fails hlog⟩
  unique h h' := by
    cases h with
    | fails h =>
      cases h' with
      | fails h' =>
        obtain ⟨hr, rfl⟩ := hx.unique h h'
        cases hr
        exact ⟨rfl, rfl⟩
      | goesOn h' _ => cases (hx.unique h h').1
    | goesOn h hrest =>
      cases h' with
      | fails h' => cases (hx.unique h h').1
      | goesOn h' hrest' =>
        obtain ⟨hr, rfl⟩ := hx.unique h h'
        cases hr
        obtain ⟨rfl, rfl⟩ := (hf _).unique hrest hrest'
        exact ⟨rfl, rfl⟩

theorem inScope {x : Exec α} {X : BigStep ρ α} (h : Agrees x X) :
    Agrees (Exec.inScope x) X.inScope where
  run s := by
    obtain ⟨log, hlog⟩ := h.run { s with env := s.env.openScope }
    unfold Exec.inScope
    cases hr : x { s with env := s.env.openScope } with
    | ok a t =>
      rw [hr] at hlog
      exact ⟨log, .ends hlog⟩
    | error e t =>
      rw [hr] at hlog
      exact ⟨log, .fails hlog⟩
  unique h₁ h₂ := by
    cases h₁ with
    | ends h₁ =>
      cases h₂ with
      | ends h₂ =>
        obtain ⟨hr, rfl⟩ := h.unique h₁ h₂
        cases hr
        exact ⟨rfl, rfl⟩
      | fails h₂ => cases (h.unique h₁ h₂).1
    | fails h₁ =>
      cases h₂ with
      | ends h₂ => cases (h.unique h₁ h₂).1
      | fails h₂ =>
        obtain ⟨hr, rfl⟩ := h.unique h₁ h₂
        cases hr
        exact ⟨rfl, rfl⟩

theorem execution {x : Exec Flow} {X : BigStep PassRun Flow} (h : Agrees x X) (kind : LoopKind) :
    Agrees x (Execution kind X) where
  run s := by
    obtain ⟨passes, hpasses⟩ := h.run s
    exact ⟨_, .run hpasses⟩
  unique h₁ h₂ := by
    obtain ⟨h₁⟩ := h₁
    obtain ⟨h₂⟩ := h₂
    obtain ⟨rfl, rfl⟩ := h.unique h₁ h₂
    exact ⟨rfl, rfl⟩

section Loops

variable {limit : Nat} {kind : LoopKind} {begins : β → Exec (Option α)}
  {pass : α → Exec (PassEnd β)} {Pass : α → BigStep LoopRun (PassEnd β)}
  (hp : ∀ a, Agrees (pass a) (Pass a))

include hp

theorem passes_run (left : Nat) {used : Nat} (h : used + left = limit) (b : β) (s : State) :
    ∃ log, Passes limit kind begins Pass used b s
      (runPasses limit kind begins pass left b s) log := by
  induction left generalizing used b s with
  | zero =>
    rw [runPasses]
    cases hb : begins b s with
    | error e t => exact ⟨_, .testFails hb⟩
    | ok test t =>
      cases test with
      | none =>
        have hused : limit - 0 = used := by omega
        dsimp only
        rw [hused]
        exact ⟨_, .finished hb⟩
      | some a => exact ⟨_, .refused hb (by omega)⟩
  | succ left ih =>
    rw [runPasses]
    cases hb : begins b s with
    | error e t => exact ⟨_, .testFails hb⟩
    | ok test t =>
      cases test with
      | none =>
        have hused : limit - (left + 1) = used := by omega
        dsimp only
        rw [hused]
        exact ⟨_, .finished hb⟩
      | some a =>
        obtain ⟨inner, hinner⟩ := (hp a).run t
        have hlt : used < limit := by omega
        dsimp only
        cases hr : pass a t with
        | error e u =>
          rw [hr] at hinner
          exact ⟨_, .failed hb hlt hinner⟩
        | ok ended u =>
          rw [hr] at hinner
          cases ended with
          | again next =>
            obtain ⟨passes, hpasses⟩ := ih (by omega : used + 1 + left = limit) next u
            exact ⟨_, .again hb hlt hinner hpasses⟩
          | stop =>
            have hused : limit - left = used + 1 := by omega
            dsimp only
            rw [hused]
            exact ⟨_, .stopped hb hlt hinner⟩
          | returned vs => exact ⟨_, .returned hb hlt hinner⟩

theorem passes_unique {used : Nat} {b : β} {s : State} {r r' : EStateM.Result RunError State Flow}
    {log log' : List PassRun} (h : Passes limit kind begins Pass used b s r log)
    (h' : Passes limit kind begins Pass used b s r' log') : r = r' ∧ log = log' := by
  have hpass : ∀ {a t r r' inner inner'},
      Pass a t r inner → Pass a t r' inner' → r = r' ∧ inner = inner' :=
    fun {a} => (hp a).unique
  -- at each turn the test, the count and the pass leave one rule that applies
  induction h generalizing r' log' with
  | testFails hb => cases h' <;> grind
  | finished hb => cases h' <;> grind
  | refused hb hle => cases h' <;> grind
  | failed hb hlt hpass => cases h' <;> grind
  | stopped hb hlt hpass => cases h' <;> grind
  | returned hb hlt hpass => cases h' <;> grind
  | again hb hlt hpass _ ih => cases h' <;> grind

theorem passes (b : β) :
    Agrees (runPasses limit kind begins pass limit b) (Passes limit kind begins Pass 0 b) where
  run := passes_run hp limit (Nat.zero_add limit) b
  unique := passes_unique hp

end Loops

end Agrees

section Loops

variable {limit : Nat} {body : Exec Flow} {Body : BigStep LoopRun Flow} (h : Agrees body Body)

include h

theorem whileLoop_agrees (condition : Exec Value) :
    Agrees (whileLoop limit condition body) (whileRuns limit Body condition) :=
  .passes (fun _ => .bind h.inScope fun _ => .plain _) ()

theorem repeatLoop_agrees (condition : Exec Value) :
    Agrees (repeatLoop limit body condition) (repeatRuns limit Body condition) :=
  .passes (fun _ => .inScope (.bind h fun _ => .plain _)) ()

theorem bodyWith_agrees (x : Name) (v : Value) :
    Agrees (Exec.inScope do Exec.modifyEnv (·.declare x v); body) (bodyWith Body x v) :=
  .inScope (.bind (.plain _) fun _ => h)

theorem forInLoop_agrees (x : Name) (source : Exec Value) :
    Agrees (forInLoop limit x source body) (forInRuns limit Body x source) := by
  refine .bind (.plain _) fun v => ?_
  cases v with
  | iter id => exact .passes (fun v => .bind (bodyWith_agrees h x v) fun _ => .plain _) ()
  | nil | bool _ | int _ | str _ | table _ | builtin _ => exact .plain _

theorem numericLoop_agrees (x : Name) (start last step : Int64) :
    Agrees (numericLoop limit x start last step body) (numericRuns limit Body x start last step) :=
  .passes (fun _ => .bind (bodyWith_agrees h x _) fun _ => .plain _) start

end Loops

mutual

/-- A statement has one run from every state, which ends as the statement does. -/
theorem Stmt.exec_agrees (limit : Nat) : (s : Stmt) → Agrees (s.exec limit) (s.Runs limit)
  | .loop l => by
    rw [Stmt.exec, Stmt.Runs]
    exact .bind (.plain _) fun _ => (l.exec_agrees limit).execution l.kind
  | .do b => by
    rw [Stmt.exec, Stmt.Runs]
    exact b.exec_agrees limit
  | .if c t none => by
    rw [Stmt.exec, Stmt.Runs]
    refine .bind (.plain _) fun v => ?_
    split
    · exact t.exec_agrees limit
    · exact .plain _
  | .if c t (some e) => by
    rw [Stmt.exec, Stmt.Runs]
    refine .bind (.plain _) fun v => ?_
    split
    · exact t.exec_agrees limit
    · exact e.exec_agrees limit
  | .expr _ | .local _ | .assign _ _ | .break | .return _ => by
    rw [Stmt.Runs]
    exact .plain _

theorem Block.exec_agrees (limit : Nat) : (b : Block) → Agrees (b.exec limit) (b.Runs limit)
  | ⟨_, ss⟩ => by
    rw [Block.exec, Block.Runs]
    exact (Stmt.execAll_agrees limit ss).inScope

theorem Loop.exec_agrees (limit : Nat) : (l : Loop) → Agrees (l.exec limit) (l.Runs limit)
  | .while c ⟨_, ss⟩ => by
    rw [Loop.exec, Loop.Runs]
    exact whileLoop_agrees (Stmt.execAll_agrees limit ss) _
  | .repeat ⟨_, ss⟩ c => by
    rw [Loop.exec, Loop.Runs]
    exact repeatLoop_agrees (Stmt.execAll_agrees limit ss) _
  | .forIn x source ⟨_, ss⟩ => by
    rw [Loop.exec, Loop.Runs]
    exact forInLoop_agrees (Stmt.execAll_agrees limit ss) x _
  | .numericFor x i l s ⟨_, ss⟩ => by
    rw [Loop.exec, Loop.Runs]
    exact .bind (.plain _) fun _ => numericLoop_agrees (Stmt.execAll_agrees limit ss) x _ _ _

theorem Stmt.execAll_agrees (limit : Nat) :
    (ss : List Stmt) → Agrees (Stmt.execAll limit ss) (Stmt.RunsAll limit ss)
  | [] => .plain _
  | s :: ss => by
    rw [Stmt.execAll, Stmt.RunsAll]
    refine .bind (s.exec_agrees limit) fun flow => ?_
    cases flow with
    | normal => exact Stmt.execAll_agrees limit ss
    | broke => exact .plain _
    | returned vs => exact .plain _

end

theorem Block.runProgram_agrees (limit : Nat) (b : Block) :
    Agrees (b.runProgram limit) (b.ProgramRuns limit) := by
  refine .bind (b.exec_agrees limit) fun flow => ?_
  cases flow with
  | normal => exact .plain _
  | broke => exact .plain _
  | returned vs => exact .plain _

end LoopLowering
