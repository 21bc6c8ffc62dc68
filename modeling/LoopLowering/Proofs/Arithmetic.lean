import LoopLowering.Proofs.Moves
import Mathlib.Data.Rat.Floor
import Mathlib.Tactic.Linarith

/- Exact arithmetic. The operators of the target language compute in 64 bits, step by
   step. `floorQuotient` and `floorRemainder` are what they stand for: the quotient of
   the integers, as a rational number, rounded down, and what is then left.

   Sums, differences, products and negations are exact or an overflow (`GivesInteger`). So
   is the quotient: its steps leave the range only where the quotient itself does
   (`floorDivide_eq`), which is at one pair of operands (`inRange_floorQuotient_iff`).
   The remainder always fits (`inRange_floorRemainder`), but it is computed through a
   multiple of the divisor, and that can be out of range (`remainder_eq`). -/
namespace LoopLowering

def floorQuotient (m n : ℤ) : ℤ := ⌊(m : ℚ) / n⌋

/-- What the quotient, rounded down, leaves. -/
def floorRemainder (m n : ℤ) : ℤ := m - floorQuotient m n * n

/-! ## Rounding down -/

section Rounding

variable {m n q : ℤ}

/-- The quotient rounded down is the integer that leaves a remainder between zero and the divisor. -/
theorem floorQuotient_eq_iff (hn : n ≠ 0) : floorQuotient m n = q ↔
    (0 ≤ m - q * n ∧ m - q * n < n) ∨ (n < m - q * n ∧ m - q * n ≤ 0) := by
  rw [floorQuotient, Int.floor_eq_iff]
  rcases lt_or_gt_of_ne hn with hneg | hpos
  · have hnq : (n : ℚ) < 0 := by exact_mod_cast hneg
    rw [le_div_iff_of_neg hnq, div_lt_iff_of_neg hnq]
    norm_cast
    constructor
    · rintro ⟨hle, hlt⟩
      right
      constructor <;> linarith
    · rintro (h | h)
      · omega
      · constructor <;> linarith
  · have hnq : (0 : ℚ) < n := by exact_mod_cast hpos
    rw [le_div_iff₀ hnq, div_lt_iff₀ hnq]
    norm_cast
    constructor
    · rintro ⟨hle, hlt⟩
      left
      constructor <;> linarith
    · rintro (h | h)
      · constructor <;> linarith
      · omega

/-- The remainder is zero or of the sign of the divisor, and smaller in magnitude. -/
theorem floorRemainder_bounds (m : ℤ) (hn : n ≠ 0) :
    (0 ≤ floorRemainder m n ∧ floorRemainder m n < n) ∨
      (n < floorRemainder m n ∧ floorRemainder m n ≤ 0) :=
  (floorQuotient_eq_iff hn).mp rfl

/-- Rounding down is rounding toward zero, but for an inexact quotient of operands that differ in
sign. -/
theorem floorQuotient_eq (m : ℤ) (hn : n ≠ 0) : floorQuotient m n =
    if m.tmod n ≠ 0 ∧ decide (m < 0) ≠ decide (n < 0) then m.tdiv n - 1 else m.tdiv n := by
  have hleft : m - m.tdiv n * n = m.tmod n := by
    rw [Int.tmod_def, mul_comm]
  have hsize : (m.tmod n).natAbs < n.natAbs := by
    rw [Int.natAbs_tmod]
    exact Nat.mod_lt _ (Int.natAbs_pos.mpr hn)
  -- the remainder of rounding toward zero has the sign of the dividend
  have hnonneg : 0 ≤ m → 0 ≤ m.tmod n := Int.tmod_nonneg n
  have hnonpos : m ≤ 0 → m.tmod n ≤ 0 := by
    intro hm
    have hneg := Int.tmod_nonneg n (Int.neg_nonneg_of_nonpos hm)
    rw [Int.neg_tmod] at hneg
    omega
  rw [floorQuotient_eq_iff hn]
  split
  · next hdown =>
    have hless : m - (m.tdiv n - 1) * n = m.tmod n + n := by
      rw [← hleft]
      ring
    rw [hless]
    have hsigns : ¬ (m < 0 ↔ n < 0) := by simpa using hdown.2
    omega
  · next hkeep =>
    rw [hleft]
    have hsigns : m.tmod n = 0 ∨ (m < 0 ↔ n < 0) := by
      by_cases hzero : m.tmod n = 0
      · exact .inl hzero
      · right
        simpa [hzero] using hkeep
    omega

theorem floorQuotient_mul (m n : ℤ) : floorQuotient m n * n = m - floorRemainder m n := by
  rw [floorRemainder]
  ring

end Rounding

/-! ## Ranges -/

section Ranges

variable {m n : ℤ} (hm : InRange m) (hn : n ≠ 0)
include hm hn

/-- Rounded toward zero, the quotient fits, but for the least integer divided by minus one. -/
theorem inRange_tdiv (hlast : ¬ (m = -0x8000000000000000 ∧ n = -1)) : InRange (m.tdiv n) := by
  have hsize : (m.tdiv n).natAbs = m.natAbs / n.natAbs := Int.natAbs_tdiv m n
  by_cases hone : n.natAbs = 1
  · have hunit : n = 1 ∨ n = -1 := by omega
    rcases hunit with rfl | rfl
    · rw [Int.tdiv_one]
      exact hm
    · rw [Int.tdiv_neg, Int.tdiv_one]
      constructor <;> omega
  · -- a divisor of magnitude two or more halves the magnitude
    have hhalf : m.natAbs / n.natAbs ≤ m.natAbs / 2 := Nat.div_le_div_left (by omega) (by decide)
    constructor <;> omega

/-- So does the quotient rounded down. -/
theorem inRange_floorQuotient_iff :
    InRange (floorQuotient m n) ↔ ¬ (m = -0x8000000000000000 ∧ n = -1) := by
  constructor
  · rintro hq ⟨rfl, rfl⟩
    have hout : floorQuotient (-0x8000000000000000) (-1) = 0x8000000000000000 := by
      rw [floorQuotient_eq_iff hn]
      omega
    omega
  · intro hlast
    obtain ⟨hlow, hhigh⟩ := inRange_tdiv hm hn hlast
    rw [floorQuotient_eq m hn]
    split
    · next hdown =>
      -- an inexact quotient is at most half of the dividend
      have hsize : (m.tdiv n).natAbs = m.natAbs / n.natAbs := Int.natAbs_tdiv m n
      have hunit : n.natAbs ≠ 1 := by
        intro hone
        apply hdown.1
        apply Int.natAbs_eq_zero.mp
        rw [Int.natAbs_tmod, hone, Nat.mod_one]
      have hhalf : m.natAbs / n.natAbs ≤ m.natAbs / 2 := Nat.div_le_div_left (by omega) (by decide)
      constructor <;> omega
    · exact ⟨hlow, hhigh⟩

omit hm in
/-- The remainder is as small as the divisor, so it always fits. -/
theorem inRange_floorRemainder (hrange : InRange n) : InRange (floorRemainder m n) := by
  rcases floorRemainder_bounds m hn with h | h
  · constructor <;> omega
  · constructor <;> omega

end Ranges

/-! ## Words -/

theorem checked_of_toInt {w : Int64} {n : ℤ} (h : w.toInt = n) : checked n = .ok w := by
  rw [checked, toWord?_eq_some_iff.mpr h]

theorem checked_of_not_inRange {n : ℤ} (h : ¬ InRange n) : checked n = .error .integerOverflow := by
  rw [checked, toWord?_eq_none_iff.mpr h]

theorem exists_toInt_eq {n : ℤ} (h : InRange n) : ∃ w : Int64, w.toInt = n :=
  ⟨Int64.ofInt n, Int64.toInt_ofInt_of_le h.1 h.2⟩

theorem least_over_minusOne_iff {a b : Int64} :
    a.toInt = -0x8000000000000000 ∧ b.toInt = -1 ↔ a = Int64.minValue ∧ b = -1 := by
  rw [← Int64.toInt_inj (x := a), ← Int64.toInt_inj (x := b)]
  rfl

/-- The steps of a remainder stay in range: the quotient does, and so does the multiple of the divisor
that the remainder is measured from. -/
def StepsFit (a b : Int64) : Prop :=
  ¬ (a = Int64.minValue ∧ b = -1) ∧ InRange (floorQuotient a.toInt b.toInt * b.toInt)

section Division

variable (a : Int64) {b : Int64} (hb : b ≠ 0)
include hb

theorem toInt_ne_zero : b.toInt ≠ 0 := by
  intro hzero
  exact hb (Int64.toInt_inj.mp hzero)

theorem inRange_quotient_iff :
    InRange (floorQuotient a.toInt b.toInt) ↔ ¬ (a = Int64.minValue ∧ b = -1) := by
  rw [inRange_floorQuotient_iff (inRange_toInt a) (toInt_ne_zero hb), least_over_minusOne_iff]

/-- **The quotient is exact or an overflow.** The steps that compute it leave the range only where it
does. -/
theorem floorDivide_eq : floorDivide a b = checked (floorQuotient a.toInt b.toInt) := by
  have hn : b.toInt ≠ 0 := toInt_ne_zero hb
  rw [floorDivide, if_neg hb]
  by_cases hlast : a.toInt = -0x8000000000000000 ∧ b.toInt = -1
  · have hout : ¬ InRange (floorQuotient a.toInt b.toInt) := by
      rw [inRange_floorQuotient_iff (inRange_toInt a) hn]
      exact not_not_intro hlast
    have hstep : ¬ InRange (a.toInt.tdiv b.toInt) := by
      rw [hlast.1, hlast.2]
      decide
    rw [checked_of_not_inRange hout, checked_of_not_inRange hstep]
    rfl
  · obtain ⟨q, hq⟩ := exists_toInt_eq (inRange_tdiv (inRange_toInt a) hn hlast)
    rw [checked_of_toInt hq, floorQuotient_eq _ hn, ← hq]
    simp only [Int64.lt_iff_toInt_lt, Int64.toInt_zero]
    show (if _ then checked (q.toInt - 1) else Except.ok q) = _
    split
    · rfl
    · rw [checked_of_toInt rfl]

/-- **The remainder is exact where its steps stay in range.** -/
theorem remainder_of_stepsFit (h : StepsFit a b) :
    remainder a b = checked (floorRemainder a.toInt b.toInt) := by
  obtain ⟨q, hq⟩ := exists_toInt_eq ((inRange_quotient_iff a hb).mpr h.1)
  obtain ⟨p, hp⟩ := exists_toInt_eq h.2
  rw [remainder, floorDivide_eq a hb, checked_of_toInt hq]
  show (checked (q.toInt * b.toInt) >>= fun p => checked (a.toInt - p.toInt)) = _
  rw [hq, checked_of_toInt hp]
  show checked (a.toInt - p.toInt) = _
  rw [hp, floorRemainder]

/-- Elsewhere it is an overflow, although the remainder itself would fit. -/
theorem remainder_of_not_stepsFit (h : ¬ StepsFit a b) :
    remainder a b = .error .integerOverflow := by
  rw [remainder, floorDivide_eq a hb]
  by_cases hrange : InRange (floorQuotient a.toInt b.toInt)
  · obtain ⟨q, hq⟩ := exists_toInt_eq hrange
    have hproduct : ¬ InRange (q.toInt * b.toInt) := by
      intro hp
      rw [hq] at hp
      exact h ⟨(inRange_quotient_iff a hb).mp hrange, hp⟩
    rw [checked_of_toInt hq]
    show (checked (q.toInt * b.toInt) >>= fun p => checked (a.toInt - p.toInt)) = _
    rw [checked_of_not_inRange hproduct]
    rfl
  · rw [checked_of_not_inRange hrange]
    rfl

end Division

/-! ## Operators -/

/-- The run ends in the state `t`: with the integer `n` if it fits in 64 bits, and with an overflow if
it does not. -/
def GivesInteger (n : ℤ) (t : State) (r : EStateM.Result RunError State Value) : Prop :=
  (∀ w : Int64, w.toInt = n → r = .ok (.int w) t) ∧ (¬ InRange n → r = .error .integerOverflow t)

theorem givesInteger_checked (n : ℤ) (t : State) :
    GivesInteger n t (Exec.ofExcept (Value.int <$> checked n) t) := by
  constructor
  · intro w hw
    rw [checked_of_toInt hw]
    rfl
  · intro hout
    rw [checked_of_not_inRange hout]
    rfl

section Operands

variable {l r : Expr} {a b : Int64} {s t u : State} (hl : l.eval s = .ok (.int a) t)
  (hr : r.eval t = .ok (.int b) u)
include hl

theorem Expr.eval_negative : (Expr.unary .neg l).eval s =
    Exec.ofExcept (Value.int <$> checked (-a.toInt)) t := by
  rw [Expr.eval, Exec.bind_ok hl]
  rfl

include hr

/-- An operator that computes with integers is applied to the values of its operands, after both. -/
theorem Expr.eval_arithmetic {op : BinaryOp} {compute : Int64 → Int64 → Except RunError Int64}
    (hop : ∀ x y, op.apply x y = op.arithmetic x y compute) (hboth : op.decidedBy (.int a) = false) :
    (Expr.binary op l r).eval s = Exec.ofExcept (Value.int <$> compute a b) u := by
  rw [Expr.eval_binary hl hr hboth, hop]
  rfl

theorem Expr.eval_floorDiv :
    (Expr.binary .floorDiv l r).eval s = Exec.ofExcept (Value.int <$> floorDivide a b) u :=
  Expr.eval_arithmetic hl hr (fun _ _ => rfl) rfl

theorem Expr.eval_mod :
    (Expr.binary .mod l r).eval s = Exec.ofExcept (Value.int <$> remainder a b) u :=
  Expr.eval_arithmetic hl hr (fun _ _ => rfl) rfl

/-- A remainder that there is leaves the dividend with the multiple that the quotient gives. -/
theorem quotient_and_remainder {x y : Value} {v w : State}
    (hx : (Expr.binary .floorDiv l r).eval s = .ok x v)
    (hy : (Expr.binary .mod l r).eval s = .ok y w) :
    ∃ q m : Int64, x = .int q ∧ y = .int m ∧ q.toInt * b.toInt + m.toInt = a.toInt := by
  rw [Expr.eval_floorDiv hl hr] at hx
  rw [Expr.eval_mod hl hr] at hy
  by_cases hb : b = 0
  · rw [floorDivide, if_pos hb] at hx
    cases hx
  · have hn := toInt_ne_zero hb
    by_cases hfit : StepsFit a b
    · obtain ⟨q, hq⟩ := exists_toInt_eq ((inRange_quotient_iff a hb).mpr hfit.1)
      obtain ⟨m, hm⟩ := exists_toInt_eq (inRange_floorRemainder (m := a.toInt) hn (inRange_toInt b))
      rw [floorDivide_eq a hb, checked_of_toInt hq] at hx
      rw [remainder_of_stepsFit a hb hfit, checked_of_toInt hm] at hy
      cases hx
      cases hy
      refine ⟨q, m, rfl, rfl, ?_⟩
      rw [hq, hm, floorQuotient_mul]
      ring
    · rw [remainder_of_not_stepsFit a hb hfit] at hy
      cases hy

end Operands

/-- **Arithmetic is exact or reports an overflow.** With operands that evaluate to `a` and `b`, a sum, a
difference, a product, a negation and a quotient are the integer that the operation has without
bounds, if that fits, and an overflow otherwise. The quotient is rounded down; a divisor of zero is an
error of its own. Where there are a quotient and a remainder, they make up the dividend. -/
theorem arithmetic_exact {l r : Expr} {a b : Int64} {s t u : State}
    (hl : l.eval s = .ok (.int a) t) (hr : r.eval t = .ok (.int b) u) :
    GivesInteger (a.toInt + b.toInt) u ((Expr.binary .add l r).eval s) ∧
    GivesInteger (a.toInt - b.toInt) u ((Expr.binary .sub l r).eval s) ∧
    GivesInteger (a.toInt * b.toInt) u ((Expr.binary .mul l r).eval s) ∧
    GivesInteger (-a.toInt) t ((Expr.unary .neg l).eval s) ∧
    (b ≠ 0 → GivesInteger ⌊(a.toInt : ℚ) / b.toInt⌋ u ((Expr.binary .floorDiv l r).eval s)) ∧
    (b = 0 → (Expr.binary .floorDiv l r).eval s = .error .divisionByZero u) ∧
    ∀ x y v w, (Expr.binary .floorDiv l r).eval s = .ok x v →
      (Expr.binary .mod l r).eval s = .ok y w →
      ∃ q m : Int64, x = .int q ∧ y = .int m ∧ q.toInt * b.toInt + m.toInt = a.toInt := by
  refine ⟨?_, ?_, ?_, ?_, ?_, ?_, ?_⟩
  · rw [Expr.eval_arithmetic hl hr (fun _ _ => rfl) rfl]
    exact givesInteger_checked _ u
  · rw [Expr.eval_arithmetic hl hr (fun _ _ => rfl) rfl]
    exact givesInteger_checked _ u
  · rw [Expr.eval_arithmetic hl hr (fun _ _ => rfl) rfl]
    exact givesInteger_checked _ u
  · rw [Expr.eval_negative hl]
    exact givesInteger_checked _ t
  · intro hb
    rw [Expr.eval_floorDiv hl hr, floorDivide_eq a hb]
    exact givesInteger_checked _ u
  · intro hb
    rw [Expr.eval_floorDiv hl hr, floorDivide, if_pos hb]
    rfl
  · intro x y v w hx hy
    exact quotient_and_remainder hl hr hx hy

theorem arithmetic_exact_least :
    (Expr.int Int64.minValue).eval {} = .ok (.int Int64.minValue) {} ∧
    (Expr.int 3).eval {} = .ok (.int 3) {} ∧
    (Expr.binary .sub (.int Int64.minValue) (.int 3)).eval {} = .error .integerOverflow {} ∧
    (Expr.binary .floorDiv (.int Int64.minValue) (.int 3)).eval {} =
      .ok (.int (-3074457345618258603)) {} := by
  have hleast : (Expr.int Int64.minValue).eval {} = .ok (.int Int64.minValue) {} := rfl
  have hthree : (Expr.int 3).eval {} = .ok (.int 3) {} := rfl
  obtain ⟨-, hsub, -, -, hdiv, -, -⟩ := arithmetic_exact hleast hthree
  refine ⟨hleast, hthree, hsub.2 (by decide), (hdiv (by decide)).1 _ ?_⟩
  have hfloor : floorQuotient Int64.minValue.toInt (3 : Int64).toInt = -3074457345618258603 :=
    (floorQuotient_eq_iff (by decide)).mpr (by decide)
  exact hfloor.symm

/-- **Where the remainder is exact.** With operands that evaluate to `a` and `b`, where `b` is not zero,
the remainder `m` that the quotient rounded down leaves is a word: it is zero or has the sign of `b`,
and it is smaller in magnitude. It is the result where the steps that compute it stay in range, and
otherwise there is an overflow. A divisor of zero is an error of its own. -/
theorem remainder_exact_iff {l r : Expr} {a b : Int64} {s t u : State}
    (hl : l.eval s = .ok (.int a) t) (hr : r.eval t = .ok (.int b) u) :
    (b = 0 → (Expr.binary .mod l r).eval s = .error .divisionByZero u) ∧
    (b ≠ 0 → ∃ m : Int64,
      m.toInt = a.toInt - ⌊(a.toInt : ℚ) / b.toInt⌋ * b.toInt ∧
      ((0 ≤ m.toInt ∧ m.toInt < b.toInt) ∨ (b.toInt < m.toInt ∧ m.toInt ≤ 0)) ∧
      ((Expr.binary .mod l r).eval s = .ok (.int m) u ↔ StepsFit a b) ∧
      ((Expr.binary .mod l r).eval s = .error .integerOverflow u ↔ ¬ StepsFit a b)) := by
  rw [Expr.eval_mod hl hr]
  constructor
  · intro hb
    rw [remainder, floorDivide, if_pos hb]
    rfl
  · intro hb
    have hn := toInt_ne_zero hb
    obtain ⟨m, hm⟩ := exists_toInt_eq (inRange_floorRemainder (m := a.toInt) hn (inRange_toInt b))
    refine ⟨m, hm, ?_, ?_⟩
    · rw [hm]
      exact floorRemainder_bounds a.toInt hn
    · by_cases hfit : StepsFit a b
      · rw [remainder_of_stepsFit a hb hfit, checked_of_toInt hm]
        exact ⟨iff_of_true rfl hfit, iff_of_false (by rintro ⟨⟩) (not_not_intro hfit)⟩
      · rw [remainder_of_not_stepsFit a hb hfit]
        exact ⟨iff_of_false (by rintro ⟨⟩) hfit, iff_of_true rfl hfit⟩

theorem remainder_exact_iff_seven :
    (Expr.int (-7)).eval {} = .ok (.int (-7)) {} ∧ (Expr.int 2).eval {} = .ok (.int 2) {} ∧
    StepsFit (-7) 2 ∧ (Expr.binary .mod (.int (-7)) (.int 2)).eval {} = .ok (.int 1) {} := by
  have hseven : (Expr.int (-7)).eval {} = .ok (.int (-7)) {} := rfl
  have htwo : (Expr.int 2).eval {} = .ok (.int 2) {} := rfl
  have hquotient : floorQuotient (-7 : Int64).toInt (2 : Int64).toInt = -4 :=
    (floorQuotient_eq_iff (by decide)).mpr (by decide)
  have hfit : StepsFit (-7) 2 := by
    refine ⟨by decide, ?_⟩
    rw [hquotient]
    decide
  obtain ⟨m, hm, -, hexact, -⟩ := (remainder_exact_iff hseven htwo).2 (by decide)
  have hone : m = 1 := by
    rw [← Int64.toInt_inj, hm]
    show (-7 : Int64).toInt - floorQuotient (-7 : Int64).toInt (2 : Int64).toInt * (2 : Int64).toInt = _
    rw [hquotient]
    decide
  rw [hone] at hexact
  exact ⟨hseven, htwo, hfit, hexact.mpr hfit⟩

/-- Divided by minus one the least integer leaves zero, and divided by three it leaves one. Both times
the remainder is reported as an overflow: the quotient by minus one does not fit, and neither does the
multiple of three that is next below the least integer. -/
theorem least_remainder_overflows :
    floorRemainder Int64.minValue.toInt (-1) = 0 ∧
    (Expr.binary .mod (.int Int64.minValue) (.int (-1))).eval {} = .error .integerOverflow {} ∧
    floorRemainder Int64.minValue.toInt 3 = 1 ∧
    (Expr.binary .mod (.int Int64.minValue) (.int 3)).eval {} = .error .integerOverflow {} := by
  have hminusOne : floorQuotient Int64.minValue.toInt (-1) = 0x8000000000000000 :=
    (floorQuotient_eq_iff (by decide)).mpr (by decide)
  have hthree : floorQuotient Int64.minValue.toInt 3 = -3074457345618258603 :=
    (floorQuotient_eq_iff (by decide)).mpr (by decide)
  refine ⟨?_, rfl, ?_, rfl⟩
  · rw [floorRemainder, hminusOne]
    decide
  · rw [floorRemainder, hthree]
    decide

end LoopLowering
