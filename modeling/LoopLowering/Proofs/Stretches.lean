import LoopLowering.Proofs.ReadBack

/- The text of an expression, cut into tokens. The lexer takes the longest token at
   each place, so what it finds depends on what stands side by side in the text: a
   minus sign before another one begins a comment, a numeral takes a dot in, and two
   words without a blank are one.

   `chars_cut` and `cut_longest` say how any text is cut: nothing is lost, and each
   stretch goes on as far as it can. The text of an expression is cut at the places
   where one piece was written after another (`Expr.cut_text`). -/
namespace LoopLowering

open Fragment (lexemesOf tokensOf)

/-! ## Cuts of a text -/

theorem Pending.chars_stretch {p : Pending} {read : List Char} {s : Stretch}
    (h : p.stretch read = some s) : s.chars = read := by
  obtain ⟨ts, -, hs⟩ := Option.map_eq_some_iff.mp h
  rw [← hs]
  cases ts.head? <;> rfl

theorem Pending.chars_cutFrom {p : Pending} {read cs : List Char} {ss : List Stretch}
    (h : p.cutFrom read cs = some ss) : ss.flatMap Stretch.chars = read ++ cs := by
  induction cs generalizing p read ss with
  | nil =>
    obtain ⟨s, hs, rfl⟩ := Option.map_eq_some_iff.mp h
    simp [chars_stretch hs]
  | cons c cs ih =>
    rw [cutFrom] at h
    split at h
    · simpa using ih h
    · obtain ⟨s, hs, hrest⟩ := Option.bind_eq_some_iff.mp h
      obtain ⟨rest, hcut, rfl⟩ := Option.map_eq_some_iff.mp hrest
      simp [chars_stretch hs, ih hcut]

/-- Nothing is lost: a text is made up of its stretches. -/
theorem chars_cut {cs : List Char} {ss : List Stretch} (h : cut cs = some ss) :
    ss.flatMap Stretch.chars = cs := by
  cases cs with
  | nil =>
    cases h
    rfl
  | cons c cs => exact Pending.chars_cutFrom h

/-- The stretch is read from its characters, and what comes after it does not extend it. -/
def Stretch.EndsBefore (s : Stretch) (rest : List Char) : Prop :=
  ∃ p : Pending, Pending.reading s.chars = some p ∧ p.stretch s.chars = some s ∧
    ∀ c ∈ rest.head?, p.extend c = none

theorem Pending.reading_append {p q : Pending} {cs : List Char} {c : Char}
    (h : reading cs = some p) (hc : p.extend c = some q) : reading (cs ++ [c]) = some q := by
  cases cs with
  | nil => cases h
  | cons d ds =>
    rw [List.cons_append, reading, extendAll_append h, extendAll_cons hc]
    rfl

theorem Pending.cutFrom_longest {p : Pending} {read cs : List Char} {ss before after : List Stretch}
    {s : Stretch} (hread : reading read = some p) (h : p.cutFrom read cs = some ss)
    (hss : ss = before ++ s :: after) : s.EndsBefore (after.flatMap Stretch.chars) := by
  induction cs generalizing p read ss before with
  | nil =>
    obtain ⟨s', hs, rfl⟩ := Option.map_eq_some_iff.mp h
    obtain ⟨rfl, rfl, rfl⟩ : before = [] ∧ s = s' ∧ after = [] := by
      cases before <;> simp_all
    have hchars := chars_stretch hs
    exact ⟨p, hchars ▸ hread, hchars.symm ▸ hs, by simp⟩
  | cons c cs ih =>
    rw [cutFrom] at h
    split at h
    · next q hq => exact ih (reading_append hread hq) h hss
    · next hstop =>
      obtain ⟨s', hs, hrest⟩ := Option.bind_eq_some_iff.mp h
      obtain ⟨rest, hcut, rfl⟩ := Option.map_eq_some_iff.mp hrest
      cases before with
      | nil =>
        obtain ⟨rfl, rfl⟩ := List.cons.inj hss
        have hchars := chars_stretch hs
        refine ⟨p, hchars ▸ hread, hchars.symm ▸ hs, ?_⟩
        -- the character that ended the stretch is the first one of the next
        rw [chars_cutFrom hcut]
        intro d hd
        cases hd
        exact hstop
      | cons b bs => exact ih rfl hcut (List.cons.inj hss).2

/-- Each stretch of a text goes on as far as it can. -/
theorem cut_longest {cs : List Char} {ss before after : List Stretch} {s : Stretch}
    (h : cut cs = some ss) (hss : ss = before ++ s :: after) :
    s.EndsBefore (after.flatMap Stretch.chars) := by
  cases cs with
  | nil =>
    cases h
    simp at hss
  | cons c cs => exact Pending.cutFrom_longest rfl h hss

/-- Nothing that would make a numeral longer stands after it. -/
theorem Stretch.EndsBefore.numeral {n : Nat} {cs rest : List Char}
    (h : (Stretch.token (.numeral n) cs).EndsBefore rest) :
    ∀ c ∈ rest.head?, c ≠ '.' ∧ isNameChar c = false := by
  obtain ⟨p, -, hs, hstop⟩ := h
  obtain ⟨ds, rfl⟩ : ∃ ds, p = .numeral ds := by
    cases p with
    | numeral ds => exact ⟨ds, rfl⟩
    | word ds =>
      simp only [Pending.stretch, Pending.finish, wordToken] at hs
      split at hs <;> simp at hs
    | _ => simp [Pending.stretch, Pending.finish] at hs
  intro c hc
  have hno := hstop c hc
  simp [Pending.extend] at hno
  exact ⟨hno.2, by simpa using hno.1⟩

/-! ## The text of an expression -/

def Expr.lexemes (e : Expr) : List Lexeme :=
  lexemesOf TextStyle.inline.indentSize (e.layout 0)

/-- The text of an expression is cut into the pieces that it was put together from. -/
theorem Expr.cut_text {e : Expr} (h : e.isWellNamed = true) :
    cut e.text.toList = some (e.lexemes.map Lexeme.stretch) ∧
      ∀ l ∈ e.lexemes, l.isProper = true := by
  obtain ⟨first, last, htidy, -⟩ := e.layout_tidy TextStyle.inline.indentSize h 0
  have htext : e.text.toList = e.lexemes.flatMap Lexeme.chars ++ [] := by
    rw [List.append_nil]
    show (Fragment.textOf TextStyle.inline.indentSize (e.layout 0 ++ [])).toList = _
    rw [List.append_nil, Fragment.toList_textOf]
    rfl
  have hcut := @cut_lexemes e.lexemes htidy.proper htidy.isChain [] (by simp)
  rw [← htext] at hcut
  exact ⟨by simpa [cut] using hcut, htidy.proper⟩

theorem Lexeme.isWhitespace_of_blank {c : Char} (h : (Lexeme.blank c).isProper = true) :
    c.isWhitespace = true := by
  have hstart : Pending.start c = .nothing := of_decide_eq_true h
  unfold Pending.start at hstart
  split at hstart
  · cases hstart
  split at hstart
  · cases hstart
  split at hstart
  · assumption
  split at hstart
  · cases hstart
  · cases hsign : Sign.ofChar? c <;> simp [hsign] at hstart

/-- Every numeral that a fragment writes is an integer of 64 bits. -/
theorem Fragment.numeral_lt {n k : Nat} {f : Fragment}
    (h : .token (.numeral k) ∈ f.lexemes n) : k < 0x8000000000000000 := by
  have hpath (xs : List Name) : .token (.numeral k) ∉ pathLexemes xs := by
    cases xs <;> simp [pathLexemes]
  cases f with
  | integer m =>
    simp only [lexemes, integerLexemes] at h
    split at h
    · exact absurd h (hpath _)
    · next hmin =>
      have hlt := natAbs_lt hmin
      split at h <;> simp at h <;> omega
  | name x => exact absurd h (hpath _)
  | binaryOp op => cases op <;> simp [lexemes, BinaryOp.token] at h
  | unaryOp op => cases op <;> simp [lexemes, UnaryOp.token] at h
  | symbol s => cases s <;> simp [lexemes, Symbol.lexemes] at h
  | word _ | quoted _ | space | newline | indent _ => simp [lexemes] at h

/-- **The text of an expression is read as it was meant.** The lexer finds the names, words, operators,
brackets, numerals and strings that the layout of the expression has. It cuts the text into
stretches; each token is the whole of one stretch, written as the token is spelled, and all else is a
single blank, so no two tokens are merged, none is split and no comment begins. Every numeral is an
integer of 64 bits, and neither a dot nor a character of a name follows it. -/
theorem text_cut_as_meant (e : Expr) (h : e.isWellNamed = true) :
    tokenize e.text = some (tokensOf (e.layout 0)) ∧
    ∃ ss, cut e.text.toList = some ss ∧
      ss.flatMap Stretch.chars = e.text.toList ∧
      ss.filterMap Stretch.token? = tokensOf (e.layout 0) ∧
      (∀ t cs, .token t cs ∈ ss → cs = t.spelling) ∧
      (∀ cs, .skipped cs ∈ ss → ∃ c, cs = [c] ∧ c.isWhitespace = true) ∧
      ∀ (before : List Stretch) (n : Nat) cs after, ss = before ++ .token (.numeral n) cs :: after →
        (n : Int) ≤ Int64.maxValue.toInt ∧
        ∀ c ∈ (after.flatMap Stretch.chars).head?, c ≠ '.' ∧ isNameChar c = false := by
  obtain ⟨hcut, hproper⟩ := e.cut_text h
  refine ⟨e.tokenize_text h, _, hcut, chars_cut hcut, ?_, ?_, ?_, ?_⟩
  · have hread : Pending.run .nothing e.text.toList = _ := e.tokenize_text h
    rw [run_nothing_eq_cut, hcut] at hread
    exact Option.some.inj hread
  · intro t cs hmem
    obtain ⟨l, -, hl⟩ := List.mem_map.mp hmem
    cases l <;> cases hl
    rfl
  · intro cs hmem
    obtain ⟨l, hl, heq⟩ := List.mem_map.mp hmem
    cases l with
    | token t => cases heq
    | blank c =>
      cases heq
      exact ⟨c, rfl, Lexeme.isWhitespace_of_blank (hproper _ hl)⟩
  · intro before n cs after hss
    constructor
    · have hmem : .token (.numeral n) cs ∈ e.lexemes.map Lexeme.stretch := by
        rw [hss]
        simp
      obtain ⟨l, hl, heq⟩ := List.mem_map.mp hmem
      obtain ⟨f, -, hf⟩ := List.mem_flatMap.mp hl
      cases l <;> cases heq
      have hlt := Fragment.numeral_lt hf
      rw [Int64.toInt_maxValue]
      omega
    · exact (cut_longest hcut hss).numeral

/-- Signs and numerals next to what they could run into: minus signs in a row, a numeral before the
dots of a concatenation, and one that a member is taken of. -/
def closeSigns : Expr :=
  .binary .concat (.unary .neg (.unary .neg (.int (-7)))) (.member (.int 1) "x")

theorem text_cut_as_meant_closeSigns :
    closeSigns.isWellNamed = true ∧ closeSigns.text = "- - -7 .. (1).x" ∧
    tokenize closeSigns.text = some [.sign .minus, .sign .minus, .sign .minus, .numeral 7,
      .sign .concat, .sign .openParen, .numeral 1, .sign .closeParen, .sign .dot, .name "x"] ∧
    ∃ ss, cut closeSigns.text.toList = some ss ∧
      ∀ cs, .skipped cs ∈ ss → ∃ c, cs = [c] ∧ c.isWhitespace = true := by
  obtain ⟨htokens, ss, hcut, -, -, -, hblanks, -⟩ := text_cut_as_meant closeSigns (by decide)
  exact ⟨by decide, by decide, htokens.trans (by decide), ss, hcut, hblanks⟩

end LoopLowering
