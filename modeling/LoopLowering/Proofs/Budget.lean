import LoopLowering.Proofs.Moves
import LoopLowering.Run.Program

/- The budget of passes. Every loop may run at most `limit` passes each time it is
   run, and a pass beyond that ends the program with an error. This module compares
   the runs of one program under two budgets: `Outlasts y x` says that `y` runs as
   `x` does from every state in which `x` does not end with that error. The relation
   is kept by sequencing, by scopes and by the passes of a loop, so it holds of a
   program under a larger and under a smaller budget (`Block.runProgram_outlasts`). -/
namespace LoopLowering

/-- The run ended because a loop was to begin a pass beyond its budget. -/
def Exhausted {α : Type} (r : EStateM.Result RunError State α) : Prop :=
  ∃ n t, r = .error (.iterationLimit n) t

instance decidableExhausted {α : Type} :
    (r : EStateM.Result RunError State α) → Decidable (Exhausted r)
  | .error (.iterationLimit n) t => isTrue ⟨n, t, rfl⟩
  | .ok _ _ => isFalse nofun
  | .error (.undefinedVariable _) _ | .error (.notCallable _) _ | .error (.notIterable _) _
  | .error (.notIndexable _) _ | .error (.binaryTypeMismatch ..) _
  | .error (.unaryTypeMismatch ..) _ | .error (.unsupportedOperator _) _
  | .error .integerOverflow _ | .error .divisionByZero _ | .error (.nonNumericBound ..) _
  | .error .zeroStep _ | .error .invalidAssignmentTarget _ | .error (.indexOutOfBounds _) _
  | .error .breakOutsideLoop _ => isFalse nofun

/-- From every state, `y` runs as `x` does, unless `x` ends because a budget is used up. -/
def Outlasts {α : Type} (y x : Exec α) : Prop :=
  ∀ s, Exhausted (x s) ∨ y s = x s

namespace Outlasts

variable {α β : Type}

theorem refl (x : Exec α) : Outlasts x x :=
  fun _ => .inr rfl

theorem of_limit (y : Exec α) (n : Nat) : Outlasts y (throw (.iterationLimit n)) :=
  fun s => .inl ⟨n, s, rfl⟩

theorem bind {x y : Exec α} {f g : α → Exec β} (hx : Outlasts y x)
    (hf : ∀ a, Outlasts (g a) (f a)) : Outlasts (y >>= g) (x >>= f) := by
  intro s
  show Exhausted (EStateM.bind x f s) ∨ EStateM.bind y g s = EStateM.bind x f s
  unfold EStateM.bind
  rcases hx s with ⟨n, t, hs⟩ | hs
  · rw [hs]
    exact .inl ⟨n, t, rfl⟩
  · rw [hs]
    cases x s with
    | ok a t => exact hf a t
    | error e t => exact .inr rfl

theorem inScope {x y : Exec α} (h : Outlasts y x) : Outlasts (Exec.inScope y) (Exec.inScope x) := by
  intro s
  unfold Exec.inScope
  rcases h { s with env := s.env.openScope } with ⟨n, t, hs⟩ | hs
  · rw [hs]
    exact .inl ⟨n, _, rfl⟩
  · rw [hs]
    exact .inr rfl

/-- The passes of a loop under two budgets that differ by `extra`. Both have run the same number of
passes, so the difference is the same for what is left of them. -/
theorem runPasses {limit extra : Nat} {kind : LoopKind} {begins : β → Exec (Option α)}
    {pass pass' : α → Exec (PassEnd β)} (hp : ∀ a, Outlasts (pass' a) (pass a)) (left : Nat)
    (b : β) :
    Outlasts (runPasses (limit + extra) kind begins pass' (left + extra) b)
      (runPasses limit kind begins pass left b) := by
  induction left generalizing b with
  | zero =>
    rw [runPasses_zero, Nat.zero_add]
    cases extra with
    | zero =>
      rw [Nat.add_zero, runPasses_zero]
      refine bind (refl _) fun test => ?_
      cases test with
      | none => exact refl _
      | some a => exact of_limit _ _
    | succ extra =>
      rw [runPasses_succ, Nat.add_sub_cancel]
      refine bind (refl _) fun test => ?_
      cases test with
      | none => exact refl _
      -- the smaller budget is used up here, so nothing is left to compare
      | some a => exact of_limit _ _
  | succ left ih =>
    rw [runPasses_succ, Nat.succ_add, runPasses_succ]
    refine bind (refl _) fun test => ?_
    cases test with
    | none =>
      have hpasses : limit + extra - (left + extra + 1) = limit - (left + 1) := by omega
      rw [hpasses]
      exact refl _
    | some a =>
      refine bind (hp a) fun ended => ?_
      cases ended with
      | again next => exact ih next
      | stop =>
        dsimp only
        rw [Nat.add_sub_add_right]
        exact refl _
      | returned vs => exact refl _

end Outlasts

section Loops

variable {limit : Nat} (extra : Nat) {body body' : Exec Flow} (hbody : Outlasts body' body)

include hbody

theorem whileLoop_outlasts (condition : Exec Value) :
    Outlasts (whileLoop (limit + extra) condition body') (whileLoop limit condition body) :=
  .runPasses (fun _ => .bind hbody.inScope fun _ => .refl _) limit ()

theorem repeatLoop_outlasts (condition : Exec Value) :
    Outlasts (repeatLoop (limit + extra) body' condition) (repeatLoop limit body condition) :=
  .runPasses (fun _ => .inScope (.bind hbody fun _ => .refl _)) limit ()

theorem forInLoop_outlasts (x : Name) (source : Exec Value) :
    Outlasts (forInLoop (limit + extra) x source body') (forInLoop limit x source body) := by
  refine .bind (.refl _) fun v => ?_
  cases v with
  | iter id =>
    refine .runPasses (fun v => ?_) limit ()
    exact .bind (.inScope (.bind (.refl _) fun _ => hbody)) fun _ => .refl _
  | nil | bool _ | int _ | str _ | table _ | builtin _ => exact .refl _

theorem numericLoop_outlasts (x : Name) (start last step : Int64) :
    Outlasts (numericLoop (limit + extra) x start last step body')
      (numericLoop limit x start last step body) := by
  refine .runPasses (fun current => ?_) limit start
  exact .bind (.inScope (.bind (.refl _) fun _ => hbody)) fun _ => .refl _

end Loops

mutual

theorem Stmt.exec_outlasts (limit extra : Nat) :
    (s : Stmt) → Outlasts (s.exec (limit + extra)) (s.exec limit)
  | .expr _ | .local _ | .assign _ _ | .break | .return _ => by
    rw [Stmt.exec, Stmt.exec]
    exact .refl _
  | .loop l => by
    rw [Stmt.exec, Stmt.exec]
    exact .bind (.refl _) fun _ => l.exec_outlasts limit extra
  | .do b => by
    rw [Stmt.exec, Stmt.exec]
    exact b.exec_outlasts limit extra
  | .if c t none => by
    rw [Stmt.exec, Stmt.exec]
    refine .bind (.refl _) fun v => ?_
    split
    · exact t.exec_outlasts limit extra
    · exact .refl _
  | .if c t (some e) => by
    rw [Stmt.exec, Stmt.exec]
    refine .bind (.refl _) fun v => ?_
    split
    · exact t.exec_outlasts limit extra
    · exact e.exec_outlasts limit extra

theorem Block.exec_outlasts (limit extra : Nat) :
    (b : Block) → Outlasts (b.exec (limit + extra)) (b.exec limit)
  | ⟨_, ss⟩ => by
    rw [Block.exec, Block.exec]
    exact .inScope (Stmt.execAll_outlasts limit extra ss)

theorem Loop.exec_outlasts (limit extra : Nat) :
    (l : Loop) → Outlasts (l.exec (limit + extra)) (l.exec limit)
  | .while c ⟨_, ss⟩ => by
    rw [Loop.exec, Loop.exec]
    exact whileLoop_outlasts extra (Stmt.execAll_outlasts limit extra ss) _
  | .repeat ⟨_, ss⟩ c => by
    rw [Loop.exec, Loop.exec]
    exact repeatLoop_outlasts extra (Stmt.execAll_outlasts limit extra ss) _
  | .forIn x source ⟨_, ss⟩ => by
    rw [Loop.exec, Loop.exec]
    exact forInLoop_outlasts extra (Stmt.execAll_outlasts limit extra ss) x _
  | .numericFor x i l s ⟨_, ss⟩ => by
    rw [Loop.exec, Loop.exec]
    refine .bind (.refl _) fun bounds => ?_
    exact numericLoop_outlasts extra (Stmt.execAll_outlasts limit extra ss) x _ _ _

theorem Stmt.execAll_outlasts (limit extra : Nat) :
    (ss : List Stmt) → Outlasts (Stmt.execAll (limit + extra) ss) (Stmt.execAll limit ss)
  | [] => .refl _
  | s :: ss => by
    rw [Stmt.execAll, Stmt.execAll]
    refine .bind (s.exec_outlasts limit extra) fun flow => ?_
    cases flow with
    | normal => exact Stmt.execAll_outlasts limit extra ss
    | broke => exact .refl _
    | returned vs => exact .refl _

end

theorem Block.runProgram_outlasts (limit extra : Nat) (b : Block) :
    Outlasts (b.runProgram (limit + extra)) (b.runProgram limit) :=
  .bind (b.exec_outlasts limit extra) fun _ => .refl _

/-- **A larger budget changes no run that did not use up the smaller one.** A program that ends with
values, or with any error but that of a budget used up, ends with the same values or the same error
under every larger budget, and in the same state: the variables, the tables, the iterators, the
lines printed and the log of the loops are those of the run under the smaller budget. -/
theorem larger_budget_keeps_run {limit limit' : Nat} (h : limit ≤ limit') (b : Block) (s : State)
    (hr : ¬Exhausted (b.runProgram limit s)) : b.runProgram limit' s = b.runProgram limit s := by
  obtain ⟨extra, rfl⟩ := Nat.exists_eq_add_of_le h
  exact (b.runProgram_outlasts limit extra s).resolve_left hr

/-- Prints the elements of a table, each after as many steps of an inner loop as it says. -/
def steppedElements : Block :=
  ⟨.bare, [
    .loop (.forIn "x" ⟨.ident Name.defaultAdapter, [.table [.int 1, .int 2]]⟩ ⟨.doEnd, [
      .local ⟨["i"], [.int 0]⟩,
      .loop (.repeat
        ⟨.bare, [.assign [.ident "i"] [.binary .add (.ident "i") (.int 1)]]⟩
        (.binary .ge (.ident "i") (.ident "x"))),
      .expr (.call (.ident "print") [.ident "x"])]⟩),
    .return [.int 3]]⟩

/-- Two passes are just enough for each of the loops in `steppedElements`. -/
theorem larger_budget_keeps_run_steppedElements :
    Exhausted (steppedElements.runProgram 1 ({} : RunConfig).initial) ∧
    ¬Exhausted (steppedElements.runProgram 2 ({} : RunConfig).initial) ∧
    steppedElements.runProgram 1000000 ({} : RunConfig).initial =
      steppedElements.runProgram 2 ({} : RunConfig).initial := by
  have hr : ¬Exhausted (steppedElements.runProgram 2 ({} : RunConfig).initial) := by
    decide +kernel
  exact ⟨by decide +kernel, hr, larger_budget_keeps_run (by decide) _ _ hr⟩

end LoopLowering
