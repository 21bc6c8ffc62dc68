import LoopLowering.Proofs.Arithmetic
import LoopLowering.Run.Program
import Mathlib.Data.List.Nodup

/- What a numeric `for` means. The values of its variable are an arithmetic
   progression: `start`, `start + step` and so on, as far as the limit, all computed
   without bounds (`progression`). They are fixed when the loop begins.
   `NumericFor.passes` runs a pass for each of them in turn.

   The loop itself has no list of values. It has a counter of 64 bits, which it
   compares with the limit and steps after each pass, and it ends where a step would
   leave the range. The counter stands at the head of what is left of the progression
   (`runPasses_progression`): a step that leaves the range leaves the progression as
   well, since the limit is in range. -/
namespace LoopLowering

/-- Whether the value is not beyond the limit, in the direction of the step. -/
def Reaches (limit step n : ℤ) : Prop :=
  (0 < step ∧ n ≤ limit) ∨ (step < 0 ∧ limit ≤ n)

/-- The values from `start` to the limit, in steps: as many as whole steps go into the distance, and
the first one. -/
def progression (start limit step : ℤ) : List ℤ :=
  (List.range (floorQuotient (limit - start) step + 1).toNat).map fun k : ℕ => start + k * step

namespace NumericFor

variable (limit : Nat) (x : Name) (body : Exec Flow)

/-- One pass: the body in a scope of its own, in which the variable has been declared. -/
def pass (n : ℤ) : Exec Flow := Exec.inScope do
  Exec.modifyEnv (·.declare x (.int (Int64.ofInt n)))
  body

/-- A pass for each of the values in turn, after `k` passes. Pass number `limit + 1` is an error. -/
def passes : Nat → List ℤ → Exec Flow
  | k, [] => finishLoop .numericFor k
  | k, n :: ns =>
    if k < limit then do
      match ← pass x body n with
      | .normal => passes (k + 1) ns
      | .broke => finishLoop .numericFor (k + 1)
      | .returned vs => pure (.returned vs)
    else throw (.iterationLimit limit)

end NumericFor

/-! ## The values -/

section Values

variable {start limit step n : ℤ}

theorem lt_toNat_iff (hstep : step ≠ 0) (k : ℕ) :
    k < (floorQuotient (limit - start) step + 1).toNat ↔ Reaches limit step (start + k * step) := by
  have hfloor : k < (floorQuotient (limit - start) step + 1).toNat ↔
      (k : ℚ) ≤ ((limit - start : ℤ) : ℚ) / step := by
    rw [← Int.cast_natCast, ← Int.le_floor, ← floorQuotient]
    omega
  rw [hfloor, Reaches]
  rcases lt_or_gt_of_ne hstep with hneg | hpos
  · have hq : (step : ℚ) < 0 := by exact_mod_cast hneg
    rw [le_div_iff_of_neg hq]
    norm_cast
    omega
  · have hq : (0 : ℚ) < step := by exact_mod_cast hpos
    rw [le_div_iff₀ hq]
    norm_cast
    omega

/-- **The values are those that reach the limit.** Value `k` is `k` steps from the start. -/
theorem getElem?_progression_iff (hstep : step ≠ 0) (k : ℕ) :
    (progression start limit step)[k]? = some n ↔
      n = start + k * step ∧ Reaches limit step n := by
  rw [progression, List.getElem?_map, Option.map_eq_some_iff]
  constructor
  · rintro ⟨j, hj, rfl⟩
    obtain ⟨hlt, rfl⟩ := List.getElem?_eq_some_iff.mp hj
    rw [List.length_range] at hlt
    rw [List.getElem_range]
    exact ⟨rfl, (lt_toNat_iff hstep k).mp hlt⟩
  · rintro ⟨rfl, hreach⟩
    exact ⟨k, List.getElem?_range ((lt_toNat_iff hstep k).mpr hreach), rfl⟩

theorem nodup_progression (hstep : step ≠ 0) : (progression start limit step).Nodup := by
  apply List.Nodup.map _ List.nodup_range
  intro j k hjk
  have hmul : (j : ℤ) * step = k * step := by
    simpa using hjk
  exact_mod_cast mul_right_cancel₀ hstep hmul

theorem progression_of_not_reaches (hstep : step ≠ 0) (h : ¬ Reaches limit step start) :
    progression start limit step = [] := by
  have hzero : ¬ 0 < (floorQuotient (limit - start) step + 1).toNat := by
    rw [lt_toNat_iff hstep]
    simpa using h
  rw [progression, Nat.eq_zero_of_not_pos hzero]
  rfl

/-- From a value that reaches the limit the progression goes on one step further. -/
theorem progression_of_reaches (hstep : step ≠ 0) (h : Reaches limit step start) :
    progression start limit step = start :: progression (start + step) limit step := by
  apply List.ext_getElem?
  intro k
  apply Option.ext
  intro n
  cases k with
  | zero =>
    rw [getElem?_progression_iff hstep, List.getElem?_cons_zero, Option.some_inj]
    constructor
    · rintro ⟨rfl, -⟩
      simp
    · rintro rfl
      exact ⟨by simp, h⟩
  | succ k =>
    have hnext : start + (k + 1 : ℕ) * step = start + step + k * step := by
      push_cast
      ring
    rw [List.getElem?_cons_succ, getElem?_progression_iff hstep, getElem?_progression_iff hstep, hnext]

end Values

/-! ## The counter -/

section Counter

variable (limit : Int64) {step current : Int64}

theorem inBounds_iff : inBounds limit step current = true ↔
    Reaches limit.toInt step.toInt current.toInt := by
  simp only [inBounds, Reaches, Bool.or_eq_true, Bool.and_eq_true, decide_eq_true_iff,
    Int64.lt_iff_toInt_lt, Int64.le_iff_toInt_le, Int64.toInt_zero]

/-- All values lie between the start and the limit. -/
theorem inRange_of_mem_progression {start : Int64} (hstep : step.toInt ≠ 0) {n : ℤ}
    (h : n ∈ progression start.toInt limit.toInt step.toInt) : InRange n := by
  obtain ⟨k, hk⟩ := List.mem_iff_getElem?.mp h
  obtain ⟨rfl, hreach⟩ := (getElem?_progression_iff hstep k).mp hk
  have hstart := inRange_toInt start
  have hlimit := inRange_toInt limit
  have hk : (0 : ℤ) ≤ k := Int.natCast_nonneg k
  rcases hreach with ⟨hpos, hle⟩ | ⟨hneg, hle⟩
  · have hup : 0 ≤ k * step.toInt := mul_nonneg hk hpos.le
    constructor <;> omega
  · have hdown : k * step.toInt ≤ 0 := mul_nonpos_of_nonneg_of_nonpos hk hneg.le
    constructor <;> omega

/-- A step that leaves the range leaves the progression. -/
theorem not_reaches_of_not_inRange (h : ¬ InRange (current.toInt + step.toInt)) :
    ¬ Reaches limit.toInt step.toInt (current.toInt + step.toInt) := by
  have hcurrent := inRange_toInt current
  have hlimit := inRange_toInt limit
  rintro (⟨hpos, hle⟩ | ⟨hneg, hle⟩)
  · apply h
    constructor <;> omega
  · apply h
    constructor <;> omega

end Counter

/-- **The counter runs through the progression.** With the counter at `current` after `k` passes, what
is left to run is a pass for each value from there on. -/
theorem runPasses_progression (budget : Nat) (x : Name) (limit : Int64) {step : Int64}
    (hstep : step ≠ 0) (body : Exec Flow) (left k : Nat) (hleft : left + k = budget)
    (current : Int64) :
    runPasses budget .numericFor
      (fun current => pure (if inBounds limit step current then some current else none))
      (fun current => do
        (← Exec.inScope do Exec.modifyEnv (·.declare x (.int current)); body).passEnd
          (pure ((toWord? (current.toInt + step.toInt)).elim .stop .again)))
      left current =
    NumericFor.passes budget x body k (progression current.toInt limit.toInt step.toInt) := by
  have hn : step.toInt ≠ 0 := toInt_ne_zero hstep
  induction left generalizing k current with
  | zero =>
    rw [runPasses_zero, pure_bind]
    by_cases hin : inBounds limit step current = true
    · rw [progression_of_reaches hn ((inBounds_iff limit).mp hin), NumericFor.passes, if_pos hin,
        if_neg (by omega)]
    · rw [progression_of_not_reaches hn (mt (inBounds_iff limit).mpr hin), NumericFor.passes,
        if_neg hin, ← hleft, Nat.zero_add]
  | succ left ih =>
    have hbegun : budget - (left + 1) = k := by omega
    have hended : budget - left = k + 1 := by omega
    rw [runPasses_succ, pure_bind, hbegun, hended]
    by_cases hin : inBounds limit step current = true
    · rw [progression_of_reaches hn ((inBounds_iff limit).mp hin), NumericFor.passes, if_pos hin,
        if_pos (by omega), NumericFor.pass, Int64.ofInt_toInt]
      simp only [bind_assoc]
      congr
      funext flow
      cases flow with
      | normal =>
        rw [Flow.passEnd, pure_bind]
        cases hnext : toWord? (current.toInt + step.toInt) with
        | none =>
          have hout := not_reaches_of_not_inRange limit (toWord?_eq_none_iff.mp hnext)
          rw [progression_of_not_reaches hn hout, NumericFor.passes]
          rfl
        | some next =>
          rw [← toWord?_eq_some_iff.mp hnext]
          exact ih (k + 1) (by omega) next
      | broke => rfl
      | returned vs => rfl
    · rw [progression_of_not_reaches hn (mt (inBounds_iff limit).mpr hin), NumericFor.passes,
        if_neg hin]

theorem numericLoop_eq (budget : Nat) (x : Name) (start limit : Int64) {step : Int64}
    (hstep : step ≠ 0) (body : Exec Flow) :
    numericLoop budget x start limit step body =
      NumericFor.passes budget x body 0 (progression start.toInt limit.toInt step.toInt) :=
  runPasses_progression budget x limit hstep body budget 0 rfl start

/-! ## The whole loop -/

/-- The bounds are evaluated one after the other; a step that is left out is one. -/
theorem evalBounds_apply {start limit : Expr} {step : Option Expr} {a b c : Int64} {s t u v : State}
    (hstart : start.eval s = .ok (.int a) t) (hlimit : limit.eval t = .ok (.int b) u)
    (hstep : step.elim (pure (.int 1)) Expr.eval u = .ok (.int c) v) (hc : c ≠ 0) :
    evalBounds start limit step s = .ok (a, b, c) v := by
  have hfirst : Bound.initial.eval start s = .ok a t := Exec.bind_ok hstart
  have hsecond : Bound.limit.eval limit t = .ok b u := Exec.bind_ok hlimit
  have hthird : step.elim (pure 1) Bound.step.eval u = .ok c v := by
    cases step with
    | none => cases hstep; rfl
    | some e => exact Exec.bind_ok hstep
  rw [evalBounds, Exec.bind_ok hfirst, Exec.bind_ok hsecond, Exec.bind_ok hthird, if_neg hc]
  rfl

/-- **A numeric `for` runs over its progression.** The bounds are evaluated once each, the initial value
first and the step last, to `a`, `b` and `c`. The loop then runs a pass for each value of the
progression: value `k` is `a + k * c`, for those `k` where this is not beyond `b`. Every value fits in
64 bits, so the variable is that integer, and no value comes twice. -/
theorem numericFor_runs_progression (limit : Nat) (x : Name) (start last : Expr)
    (step : Option Expr) (body : Block) {a b c : Int64} {s t u v : State}
    (hstart : start.eval s = .ok (.int a) t) (hlast : last.eval t = .ok (.int b) u)
    (hstep : step.elim (pure (.int 1)) Expr.eval u = .ok (.int c) v) (hc : c ≠ 0) :
    (Loop.numericFor x start last step body).exec limit s =
      NumericFor.passes limit x (Stmt.execAll limit body.statements) 0
        (progression a.toInt b.toInt c.toInt) v ∧
    (∀ (k : ℕ) (n : ℤ), (progression a.toInt b.toInt c.toInt)[k]? = some n ↔
      n = a.toInt + k * c.toInt ∧
        ((0 < c.toInt ∧ n ≤ b.toInt) ∨ (c.toInt < 0 ∧ b.toInt ≤ n))) ∧
    (∀ n ∈ progression a.toInt b.toInt c.toInt, (Int64.ofInt n).toInt = n) ∧
    (progression a.toInt b.toInt c.toInt).Nodup := by
  have hn : c.toInt ≠ 0 := toInt_ne_zero hc
  refine ⟨?_, fun k n => getElem?_progression_iff hn k, ?_, nodup_progression hn⟩
  · obtain ⟨delimiters, statements⟩ := body
    rw [Loop.exec, Exec.bind_ok (evalBounds_apply hstart hlast hstep hc)]
    show numericLoop limit x a b c (Stmt.execAll limit statements) v = _
    rw [numericLoop_eq limit x a b hc]
  · intro n hmem
    obtain ⟨hlow, hhigh⟩ := inRange_of_mem_progression b hn hmem
    exact Int64.toInt_ofInt_of_le hlow hhigh

/-- The loop `for i = m - 5, m, 4 do print(i) i = 0 end`, where `m` is the greatest integer. -/
def lastSteps : Loop :=
  .numericFor "i" (.int (Int64.maxValue - 5)) (.int Int64.maxValue) (some (.int 4)) (.doEnd [
    .expr (.call (.ident "print") [.ident "i"]),
    .set (.ident "i") (.int 0)])

theorem numericFor_runs_progression_lastSteps :
    lastSteps.exec 5 ({} : RunConfig).initial =
      NumericFor.passes 5 "i" (Stmt.execAll 5 lastSteps.body.statements) 0
        [Int64.maxValue.toInt - 5, Int64.maxValue.toInt - 1] ({} : RunConfig).initial := by
  have hstep : (4 : Int64) ≠ 0 := by decide
  obtain ⟨hrun, -, -, -⟩ := numericFor_runs_progression 5 "i" (.int (Int64.maxValue - 5))
    (.int Int64.maxValue) (some (.int 4)) lastSteps.body (s := ({} : RunConfig).initial) rfl rfl rfl
    hstep
  have hvalues : progression (Int64.maxValue - 5).toInt Int64.maxValue.toInt (4 : Int64).toInt =
      [Int64.maxValue.toInt - 5, Int64.maxValue.toInt - 1] := by
    decide +kernel
  rw [hvalues] at hrun
  exact hrun

end LoopLowering
