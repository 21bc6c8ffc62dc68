import LoopLowering.Proofs.Moves
import LoopLowering.Proofs.Streams
import Mathlib.Algebra.Order.Ring.Nat
import Mathlib.Data.List.Lex
import Mathlib.Data.String.Basic

/- Comparisons. Integers are ordered as integers and texts by their bytes, and values
   of other types have no order. `Value.Less` is this order. On the values that have it
   the six comparison operators all follow it: `<` is the order itself, the other three
   ordering operators are made from it, and equality is what is left when neither
   value is less.

   The bytes of texts are in the order of their code points (`utf8_lt_iff`), although a
   character may take up to four bytes: the first byte grows with the number of bytes
   (`leadByte_lt_of_ne`), and characters of as many bytes are numbers in base 64. -/
namespace LoopLowering

/-! ## The order of bytes -/

/-- The bytes that continue the character of a code point: its last digits in base 64. -/
def continuation (v : Nat) : Nat → List UInt8
  | 0 => []
  | k + 1 => UInt8.ofNat (v / 64 ^ k % 64 + 128) :: continuation v k

def continuations (v : Nat) : Nat :=
  if v ≤ 0x7f then 0 else if v ≤ 0x7ff then 1 else if v ≤ 0xffff then 2 else 3

/-- The mark in the first byte of a character that the given number of bytes continue. -/
def leadMark : Nat → Nat
  | 0 => 0
  | 1 => 0xc0
  | 2 => 0xe0
  | _ => 0xf0

/-- The first byte of the character of a code point: a mark and the leading digit in base 64. -/
def leadByte (v : Nat) : Nat :=
  leadMark (continuations v) + v / 64 ^ continuations v

theorem toNat_lt (c : Char) : c.toNat < 0x110000 := by
  have hvalid : c.toNat < 0xd800 ∨ 0xdfff < c.toNat ∧ c.toNat < 0x110000 := c.valid
  omega

theorem utf8EncodeChar_eq (c : Char) : String.utf8EncodeChar c =
    UInt8.ofNat (leadByte c.toNat) :: continuation c.toNat (continuations c.toNat) := by
  have hlt := toNat_lt c
  unfold String.utf8EncodeChar leadByte continuations
  rw [show c.val.toNat = c.toNat from rfl]
  dsimp only
  split
  · simp [leadMark, continuation]
  split
  · have hlead : c.toNat / 64 % 0x20 + 0xc0 = 0xc0 + c.toNat / 64 := by omega
    simp [leadMark, continuation, hlead]
  split
  · have hlead : c.toNat / 4096 % 0x10 + 0xe0 = 0xe0 + c.toNat / 4096 := by omega
    simp [leadMark, continuation, hlead]
  · have hlead : c.toNat / 262144 % 0x08 + 0xf0 = 0xf0 + c.toNat / 262144 := by omega
    simp [leadMark, continuation, hlead]

/-- A smaller number has a smaller quotient, or the same quotient and a smaller remainder. -/
theorem div_lt_or {v w : Nat} (h : v < w) (n : Nat) :
    v / n < w / n ∨ v / n = w / n ∧ v % n < w % n := by
  rcases Nat.lt_or_eq_of_le (Nat.div_le_div_right h.le) with hlt | heq
  · exact .inl hlt
  · right
    have hv := Nat.div_add_mod v n
    have hw := Nat.div_add_mod w n
    rw [heq] at hv
    exact ⟨heq, by omega⟩

/-- Characters that more bytes continue have greater code points and greater first bytes. -/
theorem leadByte_lt_of_ne {v w : Nat} (hvw : v < w) (hw : w < 0x110000)
    (hne : continuations v ≠ continuations w) : leadByte v < leadByte w := by
  unfold leadByte continuations at *
  split_ifs at * <;> simp only [leadMark] at * <;> omega

theorem leadByte_lt (w : Nat) (hw : w < 0x110000) : leadByte w < 256 := by
  unfold leadByte continuations
  split_ifs <;> simp only [leadMark] <;> omega

theorem leadByte_cases {v w : Nat} (hvw : v < w) (hw : w < 0x110000) :
    leadByte v < leadByte w ∨ leadByte v = leadByte w ∧ continuations v = continuations w ∧
      v % 64 ^ continuations v < w % 64 ^ continuations v := by
  by_cases hsame : continuations v = continuations w
  · unfold leadByte
    rw [← hsame]
    rcases div_lt_or hvw (64 ^ continuations v) with hlt | ⟨heq, hlt⟩
    · left
      omega
    · right
      exact ⟨by rw [heq], rfl, hlt⟩
  · exact .inl (leadByte_lt_of_ne hvw hw hsame)

theorem continuation_lt {v w k : Nat} (h : v % 64 ^ k < w % 64 ^ k) (as bs : List UInt8) :
    List.Lex (· < ·) (continuation v k ++ as) (continuation w k ++ bs) := by
  induction k with
  | zero =>
    simp [Nat.mod_one] at h
  | succ k ih =>
    rw [Nat.mod_pow_succ, Nat.mod_pow_succ] at h
    have hpos : 0 < 64 ^ k := Nat.pow_pos (by decide)
    have hv := Nat.mod_lt v hpos
    have hw := Nat.mod_lt w hpos
    rcases Nat.lt_trichotomy (v / 64 ^ k % 64) (w / 64 ^ k % 64) with hlt | heq | hgt
    · apply List.Lex.rel
      rw [UInt8.lt_iff_toNat_lt, UInt8.toNat_ofNat', UInt8.toNat_ofNat']
      omega
    · rw [continuation, continuation, heq]
      apply List.Lex.cons
      apply ih
      rw [heq] at h
      omega
    · have hmul := Nat.mul_le_mul_left (64 ^ k) (Nat.succ_le_of_lt hgt)
      rw [Nat.mul_succ] at hmul
      omega

/-- The bytes of characters are in the order of their code points, whatever follows them. -/
theorem utf8EncodeChar_lt {c d : Char} (h : c.toNat < d.toNat) (as bs : List UInt8) :
    List.Lex (· < ·) (String.utf8EncodeChar c ++ as) (String.utf8EncodeChar d ++ bs) := by
  have hd := leadByte_lt d.toNat (toNat_lt d)
  rw [utf8EncodeChar_eq, utf8EncodeChar_eq, List.cons_append, List.cons_append]
  rcases leadByte_cases h (toNat_lt d) with hlt | ⟨heq, hsame, hlt⟩
  · apply List.Lex.rel
    rw [UInt8.lt_iff_toNat_lt, UInt8.toNat_ofNat', UInt8.toNat_ofNat']
    omega
  · rw [heq, ← hsame]
    exact List.Lex.cons (continuation_lt hlt as bs)

theorem utf8_eq_flatMap (s : String) : utf8 s = s.toList.flatMap String.utf8EncodeChar := by
  rw [utf8, String.toUTF8_eq_toByteArray, ← String.utf8Encode_toList, List.utf8Encode,
    List.toList_data_toByteArray]

def codePoints (s : String) : List Nat :=
  s.toList.map Char.toNat

theorem bytes_lt_of_codes_lt {cs ds : List Char}
    (h : List.Lex (· < ·) (cs.map Char.toNat) (ds.map Char.toNat)) :
    List.Lex (· < ·) (cs.flatMap String.utf8EncodeChar) (ds.flatMap String.utf8EncodeChar) := by
  induction cs generalizing ds with
  | nil =>
    cases ds with
    | nil => cases h
    | cons d ds =>
      rw [List.flatMap_cons, utf8EncodeChar_eq]
      exact List.Lex.nil
  | cons c cs ih =>
    cases ds with
    | nil => cases h
    | cons d ds =>
      rw [List.flatMap_cons, List.flatMap_cons]
      rcases List.cons_lex_cons_iff.mp h with hlt | ⟨heq, hlt⟩
      · exact utf8EncodeChar_lt hlt _ _
      · rw [Char.toNat_inj.mp heq]
        exact List.Lex.append_left _ (ih hlt) _

theorem codePoints_lt_iff (s t : String) :
    List.Lex (· < ·) (codePoints s) (codePoints t) ↔ s < t := by
  rw [String.lt_iff_toList_lt, codePoints, codePoints]
  generalize s.toList = cs
  generalize t.toList = ds
  induction cs generalizing ds with
  | nil => cases ds <;> simp
  | cons c cs ih =>
    cases ds with
    | nil => simp
    | cons d ds =>
      rw [List.map_cons, List.map_cons, List.cons_lex_cons_iff, List.cons_lt_cons_iff, ih,
        Char.toNat_inj]
      rfl

/-- **The order of bytes is the order of code points.** -/
theorem utf8_lt_iff (s t : String) :
    List.Lex (· < ·) (utf8 s) (utf8 t) ↔ List.Lex (· < ·) (codePoints s) (codePoints t) := by
  have hforward (s t : String) (h : List.Lex (· < ·) (codePoints s) (codePoints t)) :
      List.Lex (· < ·) (utf8 s) (utf8 t) := by
    rw [utf8_eq_flatMap, utf8_eq_flatMap]
    exact bytes_lt_of_codes_lt h
  refine ⟨fun hbytes => ?_, hforward s t⟩
  rw [codePoints_lt_iff]
  rcases lt_trichotomy s t with hlt | rfl | hgt
  · exact hlt
  · exact absurd hbytes (List.lex_irrefl (fun b => UInt8.lt_irrefl b) _)
  · have hback := hforward t s ((codePoints_lt_iff t s).mpr hgt)
    exact absurd hback (List.lex_asymm UInt8.lt_asymm hbytes)

/-! ## The order of values -/

namespace Value

variable {a b c : Value}

/-- Values of one type that has an order: two integers or two texts. -/
def Ordered (a b : Value) : Prop :=
  a.type = b.type ∧ (a.type = .number ∨ a.type = .string)

/-- The order of values: that of the integers, and for texts that of their bytes. -/
def Less : Value → Value → Prop
  | .int m, .int n => m.toInt < n.toInt
  | .str s, .str t => List.Lex (· < ·) (utf8 s) (utf8 t)
  | _, _ => False

theorem ordered_iff : a.Ordered b ↔
    (∃ m n, a = .int m ∧ b = .int n) ∨ ∃ s t, a = .str s ∧ b = .str t := by
  cases a <;> cases b <;> simp [Ordered, type]

theorem Ordered.symm (h : a.Ordered b) : b.Ordered a :=
  ⟨h.1.symm, h.1 ▸ h.2⟩

theorem Less.ordered (h : a.Less b) : a.Ordered b := by
  unfold Less at h
  split at h
  · exact ordered_iff.mpr (.inl ⟨_, _, rfl, rfl⟩)
  · exact ordered_iff.mpr (.inr ⟨_, _, rfl, rfl⟩)
  · exact h.elim

theorem less_str_iff (s t : String) : (Value.str s).Less (.str t) ↔ s < t := by
  rw [Less, utf8_lt_iff, codePoints_lt_iff]

theorem Less.trans (hab : a.Less b) (hbc : b.Less c) : a.Less c := by
  rcases ordered_iff.mp hab.ordered with ⟨m, n, rfl, rfl⟩ | ⟨s, t, rfl, rfl⟩
  · rcases ordered_iff.mp hbc.ordered with ⟨_, k, ⟨⟩, rfl⟩ | ⟨_, _, ⟨⟩, _⟩
    exact Int.lt_trans hab hbc
  · rcases ordered_iff.mp hbc.ordered with ⟨_, _, ⟨⟩, _⟩ | ⟨_, u, ⟨⟩, rfl⟩
    rw [less_str_iff] at *
    exact lt_trans hab hbc

theorem Less.asymm (h : a.Less b) : ¬ b.Less a := by
  rcases ordered_iff.mp h.ordered with ⟨m, n, rfl, rfl⟩ | ⟨s, t, rfl, rfl⟩
  · exact Int.lt_asymm h
  · rw [less_str_iff] at *
    exact lt_asymm h

theorem Less.ne (h : a.Less b) : a ≠ b := by
  rintro rfl
  exact h.asymm h

theorem Ordered.trichotomy (h : a.Ordered b) : a.Less b ∨ a = b ∨ b.Less a := by
  rcases ordered_iff.mp h with ⟨m, n, rfl, rfl⟩ | ⟨s, t, rfl, rfl⟩
  · rw [Value.int.injEq, ← Int64.toInt_inj]
    exact Int.lt_trichotomy m.toInt n.toInt
  · rw [Value.str.injEq, less_str_iff, less_str_iff]
    exact lt_trichotomy s t

end Value

/-! ## Comparison operators -/

namespace BinaryOp

variable {a b : Value}

/-- The operators that compare by order. -/
def orderings : List BinaryOp := [.lt, .le, .gt, .ge]

/-- The operator gives true for the values. -/
def Holds (op : BinaryOp) (a b : Value) : Prop :=
  op.apply a b = .ok (.bool true)

theorem compare_of_ordered (h : a.Ordered b) : ∃ less greater : Bool,
    (less = true ↔ a.Less b) ∧ (greater = true ↔ b.Less a) ∧
    ∀ op holds, compare op a b holds = .ok (.bool (holds less greater)) := by
  rcases Value.ordered_iff.mp h with ⟨m, n, rfl, rfl⟩ | ⟨s, t, rfl, rfl⟩
  · refine ⟨decide (m < n), decide (n < m), ?_, ?_, fun op holds => rfl⟩
    · rw [decide_eq_true_iff]
      exact Int64.lt_iff_toInt_lt
    · rw [decide_eq_true_iff]
      exact Int64.lt_iff_toInt_lt
  · refine ⟨decide (s < t), decide (t < s), ?_, ?_, fun op holds => rfl⟩
    · rw [decide_eq_true_iff, Value.less_str_iff]
    · rw [decide_eq_true_iff, Value.less_str_iff]

theorem compare_of_not_ordered (h : ¬ a.Ordered b) (op : BinaryOp) (holds : Bool → Bool → Bool) :
    compare op a b holds = .error (.binaryTypeMismatch op a.type b.type) := by
  have hnone : order? a b = none := by
    unfold order?
    split
    · exact absurd (Value.ordered_iff.mpr (.inl ⟨_, _, rfl, rfl⟩)) h
    · exact absurd (Value.ordered_iff.mpr (.inr ⟨_, _, rfl, rfl⟩)) h
    · rfl
  rw [compare, hnone]
  rfl

theorem exists_apply_orderings (h : a.Ordered b) :
    ∀ op ∈ orderings, ∃ r, op.apply a b = .ok (.bool r) := by
  obtain ⟨less, greater, -, -, hcompare⟩ := compare_of_ordered h
  intro op hop
  simp only [orderings, List.mem_cons, List.not_mem_nil, or_false] at hop
  rcases hop with rfl | rfl | rfl | rfl
  all_goals exact ⟨_, hcompare _ _⟩

theorem apply_orderings_of_not_ordered (h : ¬ a.Ordered b) :
    ∀ op ∈ orderings, op.apply a b = .error (.binaryTypeMismatch op a.type b.type) := by
  intro op hop
  simp only [orderings, List.mem_cons, List.not_mem_nil, or_false] at hop
  rcases hop with rfl | rfl | rfl | rfl
  all_goals exact compare_of_not_ordered h _ _

theorem holds_lt_iff (h : a.Ordered b) : lt.Holds a b ↔ a.Less b := by
  obtain ⟨less, greater, hless, -, hcompare⟩ := compare_of_ordered h
  rw [← hless, Holds, apply, hcompare]
  simp

theorem less_of_holds_lt (hlt : lt.Holds a b) : a.Less b := by
  by_cases h : a.Ordered b
  · exact (holds_lt_iff h).mp hlt
  · rw [Holds, apply, compare_of_not_ordered h] at hlt
    cases hlt

theorem holds_gt_iff (h : a.Ordered b) : gt.Holds a b ↔ b.Less a := by
  obtain ⟨less, greater, -, hgreater, hcompare⟩ := compare_of_ordered h
  rw [← hgreater, Holds, apply, hcompare]
  simp

theorem holds_le_iff (h : a.Ordered b) : le.Holds a b ↔ ¬ b.Less a := by
  obtain ⟨less, greater, -, hgreater, hcompare⟩ := compare_of_ordered h
  rw [← hgreater, Holds, apply, hcompare]
  simp

theorem holds_ge_iff (h : a.Ordered b) : ge.Holds a b ↔ ¬ a.Less b := by
  obtain ⟨less, greater, hless, -, hcompare⟩ := compare_of_ordered h
  rw [← hless, Holds, apply, hcompare]
  simp

theorem holds_eq_iff (a b : Value) : eq.Holds a b ↔ a = b := by
  simp [Holds, apply]

/-- Of two ordered values the first is less, equal or greater, and only one of these. -/
theorem existsUnique_holds (h : a.Ordered b) : ∃! op, op ∈ [lt, eq, gt] ∧ op.Holds a b := by
  simp only [List.mem_cons, List.not_mem_nil, or_false]
  rcases h.trichotomy with hless | heq | hgreater
  · refine ⟨lt, ⟨.inl rfl, (holds_lt_iff h).mpr hless⟩, ?_⟩
    rintro op ⟨rfl | rfl | rfl, hop⟩
    · rfl
    · exact absurd ((holds_eq_iff a b).mp hop) hless.ne
    · exact absurd ((holds_gt_iff h).mp hop) hless.asymm
  · refine ⟨eq, ⟨.inr (.inl rfl), (holds_eq_iff a b).mpr heq⟩, ?_⟩
    rintro op ⟨rfl | rfl | rfl, hop⟩
    · exact absurd heq ((holds_lt_iff h).mp hop).ne
    · rfl
    · exact absurd heq.symm ((holds_gt_iff h).mp hop).ne
  · refine ⟨gt, ⟨.inr (.inr rfl), (holds_gt_iff h).mpr hgreater⟩, ?_⟩
    rintro op ⟨rfl | rfl | rfl, hop⟩
    · exact absurd ((holds_lt_iff h).mp hop) hgreater.asymm
    · exact absurd ((holds_eq_iff a b).mp hop).symm hgreater.ne
    · rfl

theorem holds_le_iff_or (h : a.Ordered b) : le.Holds a b ↔ lt.Holds a b ∨ eq.Holds a b := by
  rw [holds_le_iff h, holds_lt_iff h, holds_eq_iff]
  constructor
  · intro hnot
    rcases h.trichotomy with hless | heq | hgreater
    · exact .inl hless
    · exact .inr heq
    · exact absurd hgreater hnot
  · rintro (hless | heq) hgreater
    · exact hless.asymm hgreater
    · exact hgreater.ne heq.symm

end BinaryOp

/-- **Comparisons follow one order.** Two integers, or two texts, are compared: exactly one of `<`, `==`
and `>` is true, `<=` is `<` or `==`, `>=` and `>` are `<=` and `<` the other way round, and `<` is
transitive. On integers `<` is their order; on texts it is the lexicographic order of the bytes, which
is that of the code points. Between all other values the four operators fail with both types
named. Equality and its negation never fail. In an expression the operators are applied to the values
of the operands. -/
theorem comparisons_follow_order :
    (∀ a b : Value, a.Ordered b →
      (∀ op ∈ BinaryOp.orderings, ∃ r, op.apply a b = .ok (.bool r)) ∧
      (∃! op, op ∈ [BinaryOp.lt, .eq, .gt] ∧ op.Holds a b) ∧
      (BinaryOp.le.Holds a b ↔ BinaryOp.lt.Holds a b ∨ BinaryOp.eq.Holds a b) ∧
      (BinaryOp.ge.Holds a b ↔ BinaryOp.le.Holds b a) ∧
      (BinaryOp.gt.Holds a b ↔ BinaryOp.lt.Holds b a)) ∧
    (∀ a b c, BinaryOp.lt.Holds a b → BinaryOp.lt.Holds b c → BinaryOp.lt.Holds a c) ∧
    (∀ m n, BinaryOp.lt.Holds (.int m) (.int n) ↔ m.toInt < n.toInt) ∧
    (∀ s t, (BinaryOp.lt.Holds (.str s) (.str t) ↔ List.Lex (· < ·) (utf8 s) (utf8 t)) ∧
      (List.Lex (· < ·) (utf8 s) (utf8 t) ↔ List.Lex (· < ·) (codePoints s) (codePoints t))) ∧
    (∀ a b : Value, ¬ a.Ordered b → ∀ op ∈ BinaryOp.orderings,
      op.apply a b = .error (.binaryTypeMismatch op a.type b.type)) ∧
    (∀ a b, ∃ r, BinaryOp.eq.apply a b = .ok (.bool r) ∧ BinaryOp.ne.apply a b = .ok (.bool (!r)) ∧
      (r = true ↔ a = b)) ∧
    ∀ op ∈ BinaryOp.eq :: .ne :: BinaryOp.orderings, ∀ (l r : Expr) (a b : Value) (s t u : State),
      l.eval s = .ok a t → r.eval t = .ok b u →
      (Expr.binary op l r).eval s = Exec.ofExcept (op.apply a b) u := by
  refine ⟨?_, ?_, ?_, ?_, ?_, ?_, ?_⟩
  · intro a b h
    refine ⟨BinaryOp.exists_apply_orderings h, BinaryOp.existsUnique_holds h,
      BinaryOp.holds_le_iff_or h, ?_, ?_⟩
    · rw [BinaryOp.holds_ge_iff h, BinaryOp.holds_le_iff h.symm]
    · rw [BinaryOp.holds_gt_iff h, BinaryOp.holds_lt_iff h.symm]
  · intro a b c hab hbc
    have hless := (BinaryOp.less_of_holds_lt hab).trans (BinaryOp.less_of_holds_lt hbc)
    exact (BinaryOp.holds_lt_iff hless.ordered).mpr hless
  · intro m n
    exact BinaryOp.holds_lt_iff (Value.ordered_iff.mpr (.inl ⟨m, n, rfl, rfl⟩))
  · intro s t
    exact ⟨BinaryOp.holds_lt_iff (Value.ordered_iff.mpr (.inr ⟨s, t, rfl, rfl⟩)), utf8_lt_iff s t⟩
  · intro a b h
    exact BinaryOp.apply_orderings_of_not_ordered h
  · intro a b
    refine ⟨decide (a = b), rfl, ?_, decide_eq_true_iff⟩
    simp [BinaryOp.apply]
  · intro op hop l r a b s t u hl hr
    apply Expr.eval_binary hl hr
    simp only [BinaryOp.orderings, List.mem_cons, List.not_mem_nil, or_false] at hop
    rcases hop with rfl | rfl | rfl | rfl | rfl | rfl
    all_goals rfl

end LoopLowering
