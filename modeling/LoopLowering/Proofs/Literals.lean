import LoopLowering.Proofs.Spelling

/- String literals. `readLiteral` reads the literal at the beginning of a text by the
   rules that the lexer has for strings: a backslash is followed by the letter of an
   escape, a quote, another backslash or up to three digits of a code, of which it
   takes as many as there are, and the first quote that is not escaped ends the
   literal.

   The literal of a string is read back as the string, whatever text follows
   (`readLiteral_text`). It has no line ends and no null character in it, and its
   inner quotes are all escaped (`guarded_escaped`). -/
namespace LoopLowering

/-! ## Reading -/

/-- The string of which some characters have been read, and the text after its closing quote. -/
def Pending.readString : Pending → List Char → Option (String × String)
  | .closed cs, rest => some (String.ofList cs, String.ofList rest)
  | _, [] => none
  | p, c :: rest => (p.extend c).bind fun q => q.readString rest

/-- The string of the literal at the beginning of a text, and the text after it. -/
def readLiteral (text : String) : Option (String × String) :=
  match text.toList with
  | '"' :: cs => Pending.readString (.quoted []) cs
  | _ => none

theorem Pending.readString_extend {p q : Pending} {c : Char} (h : p.extend c = some q)
    (cs : List Char) : p.readString (c :: cs) = q.readString cs := by
  cases p with
  | closed s => simp [extend] at h
  | _ => simp [readString, h]

theorem Pending.readString_extendAll {p q : Pending} {cs : List Char}
    (h : p.extendAll cs = some q) (rest : List Char) :
    p.readString (cs ++ rest) = q.readString rest := by
  induction cs generalizing p with
  | nil =>
    cases h
    rfl
  | cons c cs ih =>
    obtain ⟨r, hr, hq⟩ := Option.bind_eq_some_iff.mp h
    rw [List.cons_append, readString_extend hr, ih hq]

/-- The characters of a string as they stand in its literal. -/
def escaped (s : String) : List Char :=
  s.toList.flatMap fun c => (escapeChar c).toList

theorem Expr.toList_text_str (s : String) : (Expr.str s).text.toList = '"' :: escaped s ++ ['"'] := by
  have htext : (Expr.str s).text = Fragment.textOf TextStyle.inline.indentSize [.quoted s] := rfl
  rw [htext, Fragment.toList_textOf]
  simp [Fragment.lexemesOf, Fragment.lexemes, Lexeme.chars, Token.spelling, escaped]

/-- A literal is read to its end, and what follows it is left. -/
theorem readLiteral_text (s t : String) : readLiteral ((Expr.str s).text ++ t) = some (s, t) := by
  have hchars : ((Expr.str s).text ++ t).toList = '"' :: (escaped s ++ '"' :: t.toList) := by
    simp [Expr.toList_text_str]
  have hinner : Pending.extendAll (.quoted []) (escaped s) = some (.quoted s.toList) :=
    Pending.extendAll_quoted [] s.toList
  have hclose : Pending.extend (.quoted s.toList) '"' = some (.closed s.toList) := rfl
  rw [readLiteral, hchars]
  show Pending.readString (.quoted []) (escaped s ++ '"' :: t.toList) = _
  rw [Pending.readString_extendAll hinner, Pending.readString_extend hclose, Pending.readString,
    String.ofList_toList, String.ofList_toList]

-- a null character before a digit, and a backslash before the closing quote
example : readLiteral "\"\\0001\\\\\"\"" = some ("\x001\\", "\"") := by decide

/-! ## What a literal looks like -/

def backslashesAtEnd (cs : List Char) : Nat :=
  (cs.reverse.takeWhile (· == '\\')).length

/-- After an even number of backslashes, characters end with backslashes as they do on their own, but
for an even number. -/
theorem backslashesAtEnd_append {cs : List Char} (h : backslashesAtEnd cs % 2 = 0)
    (ds : List Char) : backslashesAtEnd (cs ++ ds) % 2 = backslashesAtEnd ds % 2 := by
  unfold backslashesAtEnd at h ⊢
  rw [List.reverse_append, List.takeWhile_append]
  split
  · next hall =>
    rw [List.length_append, hall]
    omega
  · rfl

/-- Quotes are escaped: an odd number of backslashes stands before each of them, and an even number at
the end, where a quote would not be escaped. -/
structure Guarded (cs : List Char) : Prop where
  quotes : ∀ before after, cs = before ++ '"' :: after → backslashesAtEnd before % 2 = 1
  ends : backslashesAtEnd cs % 2 = 0

namespace Guarded

theorem of_notMem {cs : List Char} (hquote : '"' ∉ cs) (hends : backslashesAtEnd cs % 2 = 0) :
    Guarded cs := by
  refine ⟨?_, hends⟩
  intro before after heq
  apply absurd _ hquote
  rw [heq]
  simp

theorem append {cs ds : List Char} (hc : Guarded cs) (hd : Guarded ds) : Guarded (cs ++ ds) := by
  constructor
  · intro before after heq
    rcases List.append_eq_append_iff.mp heq with ⟨inner, hbefore, hds⟩ | ⟨inner, hcs, hafter⟩
    · rw [hbefore, backslashesAtEnd_append hc.ends]
      exact hd.quotes inner after hds
    · cases inner with
      | nil =>
        -- a quote that begins the second part would have no backslash before it
        have hfirst := hd.quotes [] after hafter.symm
        cases hfirst
      | cons c inner =>
        obtain ⟨rfl, -⟩ := List.cons.inj hafter
        exact hc.quotes before inner hcs
  · rw [backslashesAtEnd_append hc.ends]
    exact hd.ends

end Guarded

theorem guarded_escapeChar (c : Char) : Guarded (escapeChar c).toList := by
  unfold escapeChar
  split
  case h_2 =>
    constructor
    · intro before after heq
      match before with
      | [] => simp at heq
      | [b] =>
        obtain ⟨rfl, -⟩ : '\\' = b ∧ _ := by simpa using heq
        rfl
      | b :: b' :: before => simp at heq
    · decide
  case h_7 hbackslash hquote _ _ _ _ =>
    rw [Char.toString_eq_singleton, String.toList_singleton]
    apply Guarded.of_notMem
    · simpa using fun heq => hquote heq.symm
    · have hne : (c == '\\') = false := beq_eq_false_iff_ne.mpr hbackslash
      simp [backslashesAtEnd, hne]
  all_goals exact Guarded.of_notMem (by decide) (by decide)

/-- Inner quotes are escaped, and the closing one is not. -/
theorem guarded_escaped (s : String) : Guarded (escaped s) := by
  unfold escaped
  induction s.toList with
  | nil => exact Guarded.of_notMem (by simp) rfl
  | cons c cs ih => exact (guarded_escapeChar c).append ih

/-- **Literals are read back as their strings.** In front of any text, the literal of a string is read to
its end as that string, and the text is left. Between its quotes it has no line feed, no carriage
return and no null character, and every quote there is escaped, which the closing one is not. So
different strings have different literals. -/
theorem literal_read_back (s : String) :
    (∀ t, readLiteral ((Expr.str s).text ++ t) = some (s, t)) ∧
    (∃ inner, (Expr.str s).text.toList = '"' :: inner ++ ['"'] ∧
      (∀ c ∈ inner, c ≠ '\n' ∧ c ≠ '\r' ∧ c ≠ '\x00') ∧
      (∀ before after, inner = before ++ '"' :: after → backslashesAtEnd before % 2 = 1) ∧
      backslashesAtEnd inner % 2 = 0) ∧
    ∀ s', (Expr.str s').text = (Expr.str s).text → s' = s := by
  refine ⟨readLiteral_text s, ⟨escaped s, Expr.toList_text_str s, ?_, ?_⟩, ?_⟩
  · intro c hc
    obtain ⟨d, -, hd⟩ := List.mem_flatMap.mp hc
    exact plain_of_mem_escapeChar hd
  · exact ⟨(guarded_escaped s).quotes, (guarded_escaped s).ends⟩
  · intro s' heq
    have hread := readLiteral_text s' ""
    rw [heq, readLiteral_text] at hread
    simpa using hread.symm

end LoopLowering
