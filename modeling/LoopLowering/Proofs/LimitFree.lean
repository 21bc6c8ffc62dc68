import LoopLowering.Proofs.Budget
import LoopLowering.Proofs.Endings

/- Computations without loops. Only a loop ends a run with the error of a budget that
   is used up: expressions, assignments and the bounds of a numeric `for` never end
   so (`Expr.eval_limitFree`, `Expr.assignAll_limitFree`, `evalBounds_limitFree`). -/
namespace LoopLowering

/-- No run of the computation ends with the error of a budget used up. -/
def LimitFree {α : Type} (x : Exec α) : Prop :=
  ∀ s, ¬Exhausted (x s)

abbrev NotLimit (e : RunError) : Prop := ∀ n, e ≠ .iterationLimit n

theorem limitFree_iff {α : Type} {x : Exec α} : LimitFree x ↔ FailsOnly NotLimit x := by
  constructor
  · intro h s
    have hs := h s
    cases hr : x s with
    | ok a t => trivial
    | error e t =>
      rintro n rfl
      rw [hr] at hs
      exact hs ⟨n, t, rfl⟩
  · rintro h s ⟨n, t, hr⟩
    exact h.failure hr n rfl

theorem FailsOnly.limitFree {α : Type} {x : Exec α} (h : FailsOnly NotControl x) : LimitFree x := by
  refine limitFree_iff.mpr (h.mono (fun e he n => ?_) fun _ _ => trivial)
  rintro rfl
  cases he

namespace LimitFree

variable {α β : Type}

theorem pure (a : α) : LimitFree (pure a : Exec α) :=
  limitFree_iff.mpr (.pure a)

theorem modify (f : State → State) : LimitFree (modify f : Exec PUnit) :=
  limitFree_iff.mpr (.modify f)

theorem modifyGet (f : State → α × State) : LimitFree (modifyGet f : Exec α) :=
  limitFree_iff.mpr (.modifyGet f)

theorem throw {e : RunError} (h : ∀ n, e ≠ .iterationLimit n) : LimitFree (throw e : Exec α) :=
  limitFree_iff.mpr (Ends.throw h)

theorem bind {x : Exec α} {f : α → Exec β} (hx : LimitFree x) (hf : ∀ a, LimitFree (f a)) :
    LimitFree (x >>= f) :=
  limitFree_iff.mpr (.bind (limitFree_iff.mp hx) fun a => limitFree_iff.mp (hf a))

theorem passEnd {next : Exec (PassEnd β)} (hn : LimitFree next) (flow : Flow) :
    LimitFree (flow.passEnd next) :=
  limitFree_iff.mpr (.passEnd (limitFree_iff.mp hn) flow)

end LimitFree

theorem Expr.eval_limitFree (e : Expr) : LimitFree e.eval :=
  e.eval_failsOnly.limitFree

theorem Expr.evalAll_limitFree (es : List Expr) : LimitFree (Expr.evalAll es) :=
  (Expr.evalAll_failsOnly es).limitFree

theorem Expr.assignAll_limitFree (ts : List Expr) (vs : List Value) :
    LimitFree (Expr.assignAll ts vs) :=
  (Expr.assignAll_failsOnly ts vs).limitFree

theorem evalBounds_limitFree (start limit : Expr) (step : Option Expr) :
    LimitFree (evalBounds start limit step) :=
  (evalBounds_failsOnly start limit step).limitFree

end LoopLowering
