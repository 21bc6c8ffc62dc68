/- Integers of 64 bits. The integers of the target language are those from `-2^63`
   to `2^63 - 1`. A result is computed without bounds and then checked: `toWord?`
   gives the integer when it is in range and nothing otherwise. -/
namespace LoopLowering

/-- Whether an integer fits in 64 bits. -/
abbrev InRange (n : Int) : Prop :=
  -0x8000000000000000 ≤ n ∧ n < 0x8000000000000000

/-- The 64-bit integer of a value that fits. -/
def toWord? (n : Int) : Option Int64 :=
  if InRange n then some (Int64.ofInt n) else none

theorem inRange_toInt (w : Int64) : InRange w.toInt :=
  ⟨Int64.le_toInt w, Int64.toInt_lt w⟩

theorem toWord?_eq_some_iff {n : Int} {w : Int64} : toWord? n = some w ↔ w.toInt = n := by
  constructor
  · intro h
    unfold toWord? at h
    split at h
    case isTrue hn => cases h; exact Int64.toInt_ofInt_of_le hn.1 hn.2
    case isFalse => cases h
  · rintro rfl
    rw [toWord?, if_pos (inRange_toInt w), Int64.ofInt_toInt]

theorem toWord?_eq_none_iff {n : Int} : toWord? n = none ↔ ¬ InRange n := by
  simp [toWord?]

@[simp] theorem toWord?_toInt (w : Int64) : toWord? w.toInt = some w :=
  toWord?_eq_some_iff.2 rfl

end LoopLowering
