import LoopLowering.Text
import LoopLowering.Proofs.Lexer

/- The tokens of rendered expressions. `Fragment.lexemes` says which tokens and
   blanks a fragment is meant to write: a dotted path is names with dots between
   them, a negative integer is a minus sign and a numeral, and the least integer is
   the path `math.mininteger`. The text of fragments is that of their lexemes
   (`Fragment.toList_textOf`).

   In the layout of an expression all neighbours are apart (`Expr.layout_tidy`), so
   the lexer finds the tokens that were meant (`Expr.tokenize_text`). -/
namespace LoopLowering

/-! ## Fragments as lexemes -/

/-- The names of a dotted path. -/
def Name.parts (x : Name) : List Name :=
  (x.toList.splitOn '.').map String.ofList

/-- Whether a text is a path of proper names. -/
def Name.isPath (x : Name) : Bool :=
  x.parts.all Name.isProper

def BinaryOp.token : BinaryOp → Token
  | .or => .word .or
  | .and => .word .and
  | .lt => .sign .lt
  | .le => .sign .le
  | .gt => .sign .gt
  | .ge => .sign .ge
  | .eq => .sign .eq
  | .ne => .sign .ne
  | .concat => .sign .concat
  | .add => .sign .plus
  | .sub => .sign .minus
  | .mul => .sign .times
  | .div => .sign .divide
  | .floorDiv => .sign .floorDiv
  | .mod => .sign .mod
  | .pow => .sign .pow

def UnaryOp.token : UnaryOp → Token
  | .not => .word .not
  | .neg => .sign .minus
  | .len => .sign .len

def Symbol.lexemes : Symbol → List Lexeme
  | .openParen => [.token (.sign .openParen)]
  | .closeParen => [.token (.sign .closeParen)]
  | .openBracket => [.token (.sign .openBracket)]
  | .closeBracket => [.token (.sign .closeBracket)]
  | .openBrace => [.token (.sign .openBrace)]
  | .closeBrace => [.token (.sign .closeBrace)]
  | .dot => [.token (.sign .dot)]
  | .comma => [.token (.sign .comma)]
  | .clauseComma => [.token (.sign .comma), .blank ' ']
  | .assign => [.blank ' ', .token (.sign .assign), .blank ' ']

/-- The names with dots between them. -/
def pathLexemes : List Name → List Lexeme
  | [] => []
  | x :: xs => .token (.name x) :: xs.flatMap fun y => [.token (.sign .dot), .token (.name y)]

def integerLexemes (n : Int64) : List Lexeme :=
  if n = Int64.minValue then pathLexemes ["math", "mininteger"]
  else if n < 0 then [.token (.sign .minus), .token (.numeral n.toInt.natAbs)]
  else [.token (.numeral n.toInt.natAbs)]

namespace Fragment

/-- The tokens and blanks that the fragment writes, with the given width of a level of
indentation. -/
def lexemes (indentSize : Nat) : Fragment → List Lexeme
  | .word k => [.token (.word k)]
  | .name x => pathLexemes x.parts
  | .integer n => integerLexemes n
  | .quoted s => [.token (.quoted s)]
  | .binaryOp op => [.token op.token]
  | .unaryOp op => [.token op.token]
  | .symbol s => s.lexemes
  | .space => [.blank ' ']
  | .newline => [.blank '\n']
  | .indent depth => List.replicate (depth * indentSize) (.blank ' ')

def lexemesOf (indentSize : Nat) (fs : List Fragment) : List Lexeme :=
  fs.flatMap (lexemes indentSize)

end Fragment

theorem flatMap_chars_pathLexemes (xs : List Name) :
    (pathLexemes xs).flatMap Lexeme.chars = ['.'].intercalate (xs.map String.toList) := by
  cases xs with
  | nil => rfl
  | cons x xs =>
    induction xs generalizing x with
    | nil => simp [pathLexemes, Lexeme.chars, Token.spelling]
    | cons y ys ih =>
      have hrest := ih y
      simp only [pathLexemes, List.flatMap_cons, List.map_cons] at hrest ⊢
      rw [List.intercalate_cons_cons, ← hrest]
      simp [Lexeme.chars, Token.spelling, Sign.spelling]

theorem flatMap_chars_parts (x : Name) : (pathLexemes x.parts).flatMap Lexeme.chars = x.toList := by
  have hid : String.toList ∘ String.ofList = id := funext fun cs => String.toList_ofList
  rw [flatMap_chars_pathLexemes, Name.parts, List.map_map, hid, List.map_id,
    List.intercalate_splitOn]

theorem flatMap_chars_integerLexemes (n : Int64) :
    (integerLexemes n).flatMap Lexeme.chars = (integerText n).toList := by
  unfold integerLexemes integerText
  split
  · decide
  rw [Int.toString_eq_repr, Int.repr_eq_if]
  split
  case isTrue h =>
    have hneg : n.toInt < 0 := Int64.lt_iff_toInt_lt.mp h
    have habs : (-n.toInt).toNat = n.toInt.natAbs := by omega
    rw [if_neg (Int.not_le.mpr hneg), habs, Nat.repr_eq_ofList_toDigits]
    simp [Lexeme.chars, Token.spelling, Sign.spelling]
  case isFalse h =>
    have hnonneg : 0 ≤ n.toInt := Int.not_lt.mp fun hneg => h (Int64.lt_iff_toInt_lt.mpr hneg)
    have habs : n.toInt.toNat = n.toInt.natAbs := by omega
    rw [if_pos hnonneg, habs, Nat.repr_eq_ofList_toDigits]
    simp [Lexeme.chars, Token.spelling]

theorem BinaryOp.spelling_token (op : BinaryOp) : op.token.spelling = op.symbol.toList := by
  cases op <;> decide

theorem UnaryOp.spelling_token (op : UnaryOp) : op.token.spelling = op.symbol.toList := by
  cases op <;> decide

theorem Symbol.flatMap_chars_lexemes (s : Symbol) :
    s.lexemes.flatMap Lexeme.chars = s.text.toList := by
  cases s <;> decide

theorem Emit.toList_textOf (es : List Emit) :
    (Emit.textOf es).toList = es.flatMap fun e => e.toText.toList := by
  rw [Emit.textOf, String.toList_join, List.flatMap_map]

theorem Fragment.flatMap_chars_lexemes (indentSize : Nat) (f : Fragment) :
    (f.emits indentSize).flatMap (fun e => e.toText.toList) =
      (f.lexemes indentSize).flatMap Lexeme.chars := by
  cases f with
  | word k => simp [emits, lexemes, Emit.toText, Lexeme.chars, Token.spelling]
  | name x => simp [emits, lexemes, Emit.toText, flatMap_chars_parts]
  | integer n => simp [emits, lexemes, Emit.toText, flatMap_chars_integerLexemes]
  | quoted s =>
    simp [emits, lexemes, Emit.toText, Lexeme.chars, Token.spelling, List.flatMap_map]
  | binaryOp op => simp [emits, lexemes, Emit.toText, Lexeme.chars, op.spelling_token]
  | unaryOp op => simp [emits, lexemes, Emit.toText, Lexeme.chars, op.spelling_token]
  | symbol s => simp [emits, lexemes, Emit.toText, s.flatMap_chars_lexemes]
  | space => rfl
  | newline => rfl
  | indent depth => simp [emits, lexemes, Emit.toText, List.flatMap_replicate, Lexeme.chars]

theorem Fragment.toList_textOf (indentSize : Nat) (fs : List Fragment) :
    (Fragment.textOf indentSize fs).toList =
      (Fragment.lexemesOf indentSize fs).flatMap Lexeme.chars := by
  rw [textOf, Emit.toList_textOf, emitsAll, lexemesOf, List.flatMap_assoc, List.flatMap_assoc]
  congr 1
  funext f
  exact f.flatMap_chars_lexemes indentSize

/-! ## Neighbours -/

namespace Pending

/-- No sign but the dot goes on with a character of a name. -/
theorem extendSign_nameChar {s : Sign} (hs : s ≠ .dot) {c : Char} (hc : isNameChar c = true) :
    extendSign s c = none := by
  unfold extendSign
  split <;> first | rfl | exact absurd hc (by decide) | exact absurd rfl hs

theorem extendSign_nameStart (s : Sign) {c : Char} (hc : isNameStart c = true) :
    extendSign s c = none := by
  by_cases hs : s = .dot
  · have hdot : c ≠ '.' := by
      rintro rfl
      cases hc
    have hdigit : c.isDigit = false := by
      refine Bool.eq_false_iff.mpr fun h => ?_
      rw [isNameStart_of_isDigit h] at hc
      cases hc
    rw [hs, extendSign, hdigit]
    · rfl
    · exact hdot
  · exact extendSign_nameChar hs (by rw [isNameChar, hc, Bool.true_or])

end Pending

namespace Lexeme

/-- Whether none of the characters extends the piece. -/
def StopsAt (cs : List Char) (l : Lexeme) : Prop :=
  ∀ t, l = .token t → ∀ c ∈ cs, t.pending.extend c = none

theorem StopsAt.apart {cs : List Char} {l m : Lexeme} (h : l.StopsAt cs)
    (hm : ∀ c ∈ m.chars.head?, c ∈ cs) : Apart l m :=
  fun t ht c hc => h t ht c (hm c hc)

theorem apart_blank (c : Char) (m : Lexeme) : Apart (.blank c) m :=
  fun _ ht => by cases ht

/-- The sequence of pieces from the first to the last of them can be read back: each of them can, and
neighbours are apart. -/
inductive Tidy : Lexeme → Lexeme → List Lexeme → Prop
  | single {l : Lexeme} (h : l.isProper = true) : Tidy l l [l]
  | append {a b c d : Lexeme} {ls ms : List Lexeme} (hls : Tidy a b ls) (hbc : Apart b c)
      (hms : Tidy c d ms) : Tidy a d (ls ++ ms)

theorem Tidy.ends {a b : Lexeme} {ls : List Lexeme} (h : Tidy a b ls) :
    ls.head? = some a ∧ ls.getLast? = some b := by
  induction h with
  | single _ => exact ⟨rfl, rfl⟩
  | append _ _ _ ih₁ ih₂ =>
    rw [List.head?_append, List.getLast?_append, ih₁.1, ih₂.2]
    exact ⟨rfl, rfl⟩

theorem Tidy.proper {a b : Lexeme} {ls : List Lexeme} (h : Tidy a b ls) :
    ∀ l ∈ ls, l.isProper = true := by
  induction h with
  | single h => exact List.forall_mem_singleton.mpr h
  | append _ _ _ ih₁ ih₂ => exact List.forall_mem_append.mpr ⟨ih₁, ih₂⟩

theorem Tidy.isChain {a b : Lexeme} {ls : List Lexeme} (h : Tidy a b ls) : ls.IsChain Apart := by
  induction h with
  | single _ => exact .singleton _
  | append hls hbc hms ih₁ ih₂ =>
    refine List.isChain_append.mpr ⟨ih₁, ih₂, ?_⟩
    rw [hls.ends.2, hms.ends.1]
    rintro _ ⟨⟩ _ ⟨⟩
    exact hbc

theorem Tidy.tokenize {a b : Lexeme} {ls : List Lexeme} (h : Tidy a b ls) :
    Pending.run .nothing (ls.flatMap chars) = some (ls.filterMap token?) :=
  tokenize_lexemes h.proper h.isChain

end Lexeme

/-! ## Layouts of expressions -/

/-- The characters that may follow any expression: those of closing brackets, the comma and the
blank. -/
def closers : List Char := [')', ']', '\x7d', ',', ' ']

/-- The characters that begin a suffix. -/
def suffixers : List Char := ['(', '[', '.']

theorem stopsAt_word (cs : List Char) :
    ∀ c ∈ closers ++ suffixers, Pending.extend (.word cs) c = none := by
  have hall : (closers ++ suffixers).all (!isNameChar ·) = true := by decide
  intro c hc
  have hno : isNameChar c = false := by simpa using List.all_eq_true.mp hall c hc
  rw [Pending.extend, hno]
  rfl

theorem stopsAt_numeral (cs : List Char) :
    ∀ c ∈ closers, Pending.extend (.numeral cs) c = none := by
  have hall : closers.all (fun c => !(isNameChar c || c == '.')) = true := by decide
  intro c hc
  have hno : (isNameChar c || c == '.') = false := by simpa using List.all_eq_true.mp hall c hc
  rw [Pending.extend, hno]
  rfl

/-- How the layout of an expression at a level begins and ends. It may follow a bracket; it may follow
a minus sign, unless it has one itself and the level lets it stand first. Closing brackets, commas and
blanks may follow it, and suffixes as well if the expression takes them. -/
structure Expr.Fits (e : Expr) (level : Nat) (first last : Lexeme) : Prop where
  bracket : Lexeme.Apart (.token (.sign .openBracket)) first
  minus : UnaryOp.precedence ≤ level → (e.leadsWithMinus = true → UnaryOp.precedence < level) →
    Lexeme.Apart (.token (.sign .minus)) first
  closes : last.StopsAt closers
  suffix : e.takesSuffix = true → last.StopsAt suffixers

namespace Lexeme

/-- A sign that no character extends may have anything after it. -/
theorem apart_sign {s : Sign} (h : ∀ c, Pending.extendSign s c = none) (m : Lexeme) :
    Apart (.token (.sign s)) m := by
  rintro _ ⟨⟩ c _
  exact h c

theorem stopsAt_sign {s : Sign} (h : ∀ c, Pending.extendSign s c = none) (cs : List Char) :
    StopsAt cs (.token (.sign s)) := by
  rintro _ ⟨⟩ c _
  exact h c

theorem apart_sign_word (s : Sign) {t : Token} (h : isWord t.spelling = true) :
    Apart (.token (.sign s)) (.token t) := by
  rintro _ ⟨⟩ c hc
  change c ∈ t.spelling.head? at hc
  generalize t.spelling = cs at h hc
  cases cs with
  | nil => cases h
  | cons d ds =>
    cases hc
    exact Pending.extendSign_nameStart s (Bool.and_eq_true_iff.mp h).1

theorem apart_sign_numeral {s : Sign} (hs : s ≠ .dot) (n : Nat) :
    Apart (.token (.sign s)) (.token (.numeral n)) := by
  rintro _ ⟨⟩ c hc
  have hdigit := Nat.isDigit_of_mem_toDigits (by decide) (by decide) (List.mem_of_head? hc)
  exact Pending.extendSign_nameChar hs (Pending.isNameChar_of_isDigit hdigit)

theorem Tidy.enclose {o a b c : Lexeme} {ls : List Lexeme} (h : Tidy a b ls)
    (ho : o.isProper = true) (hoa : Apart o a) (hbc : Apart b c) (hc : c.isProper = true) :
    Tidy o c ([o] ++ ls ++ [c]) :=
  .append (.append (.single ho) hoa h) hbc (.single hc)

end Lexeme

open Lexeme

theorem Expr.fits_parens (e : Expr) (level : Nat) :
    e.Fits level (.token (.sign .openParen)) (.token (.sign .closeParen)) where
  bracket := by
    rintro _ ⟨⟩ _ ⟨⟩
    rfl
  minus _ _ := by
    rintro _ ⟨⟩ _ ⟨⟩
    rfl
  closes := stopsAt_sign (fun _ => rfl) _
  suffix _ := stopsAt_sign (fun _ => rfl) _

theorem Expr.fits_words (e : Expr) (level : Nat) {t u : Token} (ht : isWord t.spelling = true)
    {cs : List Char} (hu : u.pending = .word cs) : e.Fits level (.token t) (.token u) where
  bracket := apart_sign_word _ ht
  minus _ _ := apart_sign_word _ ht
  closes := by
    rintro _ ⟨⟩ c hc
    rw [hu]
    exact stopsAt_word cs c (List.mem_append_left _ hc)
  suffix _ := by
    rintro _ ⟨⟩ c hc
    rw [hu]
    exact stopsAt_word cs c (List.mem_append_right _ hc)

namespace Fragment

theorem lexemesOf_append (n : Nat) (fs gs : List Fragment) :
    lexemesOf n (fs ++ gs) = lexemesOf n fs ++ lexemesOf n gs :=
  List.flatMap_append

theorem lexemesOf_cons (n : Nat) (f : Fragment) (fs : List Fragment) :
    lexemesOf n (f :: fs) = f.lexemes n ++ lexemesOf n fs :=
  List.flatMap_cons

theorem lexemesOf_parenthesised (n : Nat) (fs : List Fragment) :
    lexemesOf n (parenthesised fs) =
      [.token (.sign .openParen)] ++ lexemesOf n fs ++ [.token (.sign .closeParen)] := by
  rw [parenthesised, lexemesOf_append, lexemesOf_cons]
  rfl

end Fragment

open Fragment (lexemesOf lexemesOf_append lexemesOf_cons lexemesOf_parenthesised)

theorem tidy_parenthesised {n : Nat} {fs : List Fragment} {a b : Lexeme}
    (h : Tidy a b (lexemesOf n fs)) (hb : b.StopsAt closers) :
    Tidy (.token (.sign .openParen)) (.token (.sign .closeParen))
      (lexemesOf n (parenthesised fs)) := by
  rw [lexemesOf_parenthesised]
  refine h.enclose rfl (apart_sign (fun _ => rfl) a) (hb.apart ?_) rfl
  rintro _ ⟨⟩
  decide

theorem Expr.target_tidy {n : Nat} {t : Expr}
    (ht : ∀ level, ∃ a b, Tidy a b (lexemesOf n (t.layout level)) ∧ t.Fits level a b) :
    ∃ a b, Tidy a b (lexemesOf n (parenthesisedIf (!t.takesSuffix) (t.layout 0))) ∧
      Apart (.token (.sign .openBracket)) a ∧ Apart (.token (.sign .minus)) a ∧
      b.StopsAt suffixers := by
  cases hs : t.takesSuffix with
  | false =>
    obtain ⟨a, b, hab, hfits⟩ := ht 0
    have hparens := t.fits_parens 9
    exact ⟨_, _, tidy_parenthesised hab hfits.closes, hparens.bracket,
      hparens.minus (by decide) (fun _ => by decide), stopsAt_sign (fun _ => rfl) _⟩
  | true =>
    -- the layout does not depend on the level, so it is that at the highest one
    have hlayout : t.layout 0 = t.layout 9 := by
      cases t with
      | ident _ | member _ _ | index _ _ | call _ _ | paren _ => simp only [Expr.layout]
      | nil | bool _ | int _ | str _ | binary _ _ _ | unary _ _ | table _ => cases hs
    obtain ⟨a, b, hab, hfits⟩ := ht 9
    rw [← hlayout] at hab
    exact ⟨a, b, hab, hfits.bracket, hfits.minus (by decide) (fun _ => by decide), hfits.suffix hs⟩

mutual

/-- Whether the names of an expression can be read back: identifiers are paths of proper names, and
members are proper names. -/
def Expr.isWellNamed : Expr → Bool
  | .nil | .bool _ | .int _ | .str _ => true
  | .ident x => x.isPath
  | .member t x => t.isWellNamed && x.isProper
  | .index t k => t.isWellNamed && k.isWellNamed
  | .call c as => c.isWellNamed && Expr.areWellNamed as
  | .binary _ l r => l.isWellNamed && r.isWellNamed
  | .unary _ e => e.isWellNamed
  | .paren e => e.isWellNamed
  | .table es => Expr.areWellNamed es

def Expr.areWellNamed : List Expr → Bool
  | [] => true
  | e :: es => e.isWellNamed && Expr.areWellNamed es

end

theorem Name.parts_ne_nil (x : Name) : x.parts ≠ [] := by
  rw [Name.parts]
  exact fun h => List.splitOn_ne_nil _ _ (List.map_eq_nil_iff.mp h)

theorem isNameChar_of_mem {cs : List Char} (h : isWord cs = true) {c : Char} (hc : c ∈ cs) :
    isNameChar c = true := by
  cases cs with
  | nil => cases hc
  | cons d ds =>
    obtain ⟨hd, hds⟩ := Bool.and_eq_true_iff.mp h
    rcases List.mem_cons.mp hc with rfl | hc
    · rw [isNameChar, hd, Bool.true_or]
    · exact List.all_eq_true.mp hds c hc

theorem Name.parts_of_isProper {x : Name} (h : x.isProper = true) : x.parts = [x] := by
  have hdot : '.' ∉ x.toList := by
    intro hmem
    cases isNameChar_of_mem (Bool.and_eq_true_iff.mp h).1 hmem
  rw [Name.parts, List.splitOn_eq_singleton hdot, List.map_singleton, String.ofList_toList]

theorem tidy_pathLexemes {xs : List Name} (hne : xs ≠ []) (h : ∀ x ∈ xs, x.isProper = true) :
    ∃ x y, Tidy (.token (.name x)) (.token (.name y)) (pathLexemes xs) ∧ x.isProper = true := by
  cases xs with
  | nil => exact absurd rfl hne
  | cons x xs =>
    induction xs generalizing x with
    | nil => exact ⟨x, x, .single (h x List.mem_cons_self), h x List.mem_cons_self⟩
    | cons y ys ih =>
      obtain ⟨hx, hys⟩ := List.forall_mem_cons.mp h
      obtain ⟨y', z, hrest, hy'⟩ := ih y (List.cons_ne_nil y ys) hys
      have hname : Apart (.token (.name x)) (.token (.sign .dot)) := by
        rintro _ ⟨⟩ c ⟨⟩
        exact stopsAt_word _ _ (by decide)
      have hdot : Apart (.token (.sign .dot)) (.token (.name y')) :=
        apart_sign_word _ (Bool.and_eq_true_iff.mp hy').1
      refine ⟨x, z, ?_, hx⟩
      have hfirst : Tidy _ _ [.token (.name x)] := .single hx
      exact .append (.append hfirst hname (.single rfl)) hdot hrest

theorem tidy_name {n : Nat} {x : Name} (h : x.isPath = true) :
    ∃ y z, Tidy (.token (.name y)) (.token (.name z)) (lexemesOf n [.name x]) ∧
      isWord (Token.name y).spelling = true := by
  obtain ⟨y, z, hpath, hy⟩ := tidy_pathLexemes x.parts_ne_nil (List.all_eq_true.mp h)
  refine ⟨y, z, ?_, (Bool.and_eq_true_iff.mp hy).1⟩
  rw [lexemesOf_cons]
  exact (List.append_nil (pathLexemes x.parts)).symm ▸ hpath

theorem Name.isPath_of_isProper {x : Name} (h : x.isProper = true) : x.isPath = true := by
  rw [Name.isPath, Name.parts_of_isProper h, List.all_cons, h]
  rfl

theorem Expr.fits_numeral {e : Expr} (he : e.takesSuffix = false) (level k : Nat) :
    e.Fits level (.token (.numeral k)) (.token (.numeral k)) where
  bracket := apart_sign_numeral (by decide) k
  minus _ _ := apart_sign_numeral (by decide) k
  closes := by
    rintro _ ⟨⟩
    exact stopsAt_numeral _
  suffix h := by
    rw [he] at h
    cases h

theorem Expr.int_tidy (n : Nat) (m : Int64) (level : Nat) :
    ∃ first last, Tidy first last (lexemesOf n ((Expr.int m).layout level)) ∧
      (Expr.int m).Fits level first last := by
  have hlexemes : lexemesOf n [.integer m] = integerLexemes m := List.append_nil _
  have hnumeral := Expr.fits_numeral (e := .int m) rfl level m.toInt.natAbs
  rw [Expr.layout]
  cases hm : (Expr.int m).leadsWithMinus with
  | true =>
    obtain ⟨hneg, hmin⟩ := Bool.and_eq_true_iff.mp hm
    have htidy : Tidy (.token (.sign .minus)) (.token (.numeral m.toInt.natAbs))
        (lexemesOf n [.integer m]) := by
      rw [hlexemes, integerLexemes, if_neg (bne_iff_ne.mp hmin), if_pos (of_decide_eq_true hneg)]
      exact .append (.single rfl) (apart_sign_numeral (by decide) _) (.single rfl)
    -- the sign stands first at a level that lets it, and within parentheses at a higher one
    by_cases hlevel : UnaryOp.precedence < level
    · rw [decide_eq_true hlevel]
      exact ⟨_, _, tidy_parenthesised htidy hnumeral.closes, Expr.fits_parens _ _⟩
    · rw [decide_eq_false hlevel]
      refine ⟨_, _, htidy, ?_, fun _ h => absurd (h hm) hlevel, hnumeral.closes, hnumeral.suffix⟩
      rintro _ ⟨⟩ _ ⟨⟩
      rfl
  | false =>
    rw [Bool.false_and, parenthesisedIf, if_neg Bool.false_ne_true, hlexemes, integerLexemes]
    by_cases hmin : m = Int64.minValue
    · obtain ⟨y, z, hpath, hy⟩ := tidy_pathLexemes (List.cons_ne_nil "math" ["mininteger"])
        (by decide)
      rw [if_pos hmin]
      exact ⟨_, _, hpath, Expr.fits_words _ _ (Bool.and_eq_true_iff.mp hy).1 rfl⟩
    · have hneg : ¬ m < 0 := by
        intro h
        rw [Expr.leadsWithMinus, decide_eq_true h, Bool.true_and, bne_eq_false_iff_eq] at hm
        exact hmin hm
      rw [if_neg hmin, if_neg hneg]
      exact ⟨_, _, .single rfl, hnumeral⟩

theorem Expr.fits_quoted (s : String) (level : Nat) :
    (Expr.str s).Fits level (.token (.quoted s)) (.token (.quoted s)) where
  bracket := by
    rintro _ ⟨⟩ _ ⟨⟩
    rfl
  minus _ _ := by
    rintro _ ⟨⟩ _ ⟨⟩
    rfl
  closes := by
    rintro _ ⟨⟩ _ _
    rfl
  suffix h := by cases h

theorem tidy_enclosed {n : Nat} {es : List Expr} {o c : Sign}
    (ho : ∀ d, Pending.extendSign o d = none) (hc : ∀ d ∈ c.spelling.head?, d ∈ closers)
    (hes : es ≠ [] → ∃ a b, Tidy a b (lexemesOf n (commaSeparated (Expr.layouts es))) ∧
      b.StopsAt closers) :
    Tidy (.token (.sign o)) (.token (.sign c))
      ([.token (.sign o)] ++ lexemesOf n (commaSeparated (Expr.layouts es)) ++
        [.token (.sign c)]) := by
  cases es with
  | nil => exact .append (.single rfl) (apart_sign ho _) (.single rfl)
  | cons e es =>
    obtain ⟨a, b, hab, hb⟩ := hes (List.cons_ne_nil e es)
    exact hab.enclose rfl (apart_sign ho a) (hb.apart hc) rfl

theorem BinaryOp.isProper_token (op : BinaryOp) : op.token.isProper = true := by
  cases op <;> rfl

/-- Of the binary operators only exponentiation binds tighter than the unary ones. -/
theorem BinaryOp.leftLevel_of_unary {op : BinaryOp} (h : UnaryOp.precedence ≤ op.precedence) :
    op.leftLevel = 9 := by
  cases op <;> first | rfl | exact absurd h (by decide)

/-- A binary operator stands between blanks. -/
theorem apart_binaryOp (op : BinaryOp) : Apart (.token op.token) (.blank ' ') := by
  rintro _ ⟨⟩ _ ⟨⟩
  cases op <;> rfl

theorem UnaryOp.isProper_token (op : UnaryOp) : op.token.isProper = true := by
  cases op <;> rfl

theorem apart_unaryOp_blank (op : UnaryOp) : Apart (.token op.token) (.blank ' ') := by
  rintro _ ⟨⟩ _ ⟨⟩
  cases op <;> rfl

/-- A unary operator without a blank after it: not the word, and not two minus signs. -/
theorem apart_unaryOp {op : UnaryOp} {e : Expr} {a b : Lexeme}
    (hblank : (op == .not || e.leadsWithMinus) = false) (h : e.Fits UnaryOp.precedence a b) :
    Apart (.token op.token) a := by
  obtain ⟨hnot, hminus⟩ := Bool.or_eq_false_iff.mp hblank
  cases op with
  | not => cases hnot
  | neg => exact h.minus (Nat.le_refl _) fun htrue => by rw [hminus] at htrue; cases htrue
  | len => exact apart_sign (fun _ => rfl) a

theorem apart_bracket_unaryOp (op : UnaryOp) :
    Apart (.token (.sign .openBracket)) (.token op.token) := by
  cases op with
  | not => exact apart_sign_word _ (isWord_text .not)
  | neg | len =>
    rintro _ ⟨⟩ _ ⟨⟩
    rfl

theorem apart_minus_unaryOp {op : UnaryOp} (h : op ≠ .neg) :
    Apart (.token (.sign .minus)) (.token op.token) := by
  cases op with
  | not => exact apart_sign_word _ (isWord_text .not)
  | neg => exact absurd rfl h
  | len =>
    rintro _ ⟨⟩ _ ⟨⟩
    rfl

mutual

/-- The layout of an expression is tidy, and it begins and ends so that it fits its place. -/
theorem Expr.layout_tidy (n : Nat) : (e : Expr) → e.isWellNamed = true → (level : Nat) →
    ∃ first last, Tidy first last (lexemesOf n (e.layout level)) ∧ e.Fits level first last
  | .nil, _, level => by
    rw [Expr.layout]
    exact ⟨_, _, .single (l := .token (.word .nil)) rfl, Expr.fits_words _ _ rfl rfl⟩
  | .bool b, _, level => by
    rw [Expr.layout]
    exact ⟨_, _, .single (l := .token (.word (if b then .true else .false))) rfl,
      Expr.fits_words _ _ (isWord_text _) rfl⟩
  | .int m, _, level => Expr.int_tidy n m level
  | .str s, _, level => by
    rw [Expr.layout]
    exact ⟨_, _, .single (l := .token (.quoted s)) rfl, Expr.fits_quoted s level⟩
  | .ident x, h, level => by
    obtain ⟨y, z, hpath, hy⟩ := tidy_name (n := n) h
    rw [Expr.layout]
    exact ⟨_, _, hpath, Expr.fits_words _ _ hy rfl⟩
  | .member t x, h, level => by
    obtain ⟨ht, hx⟩ := Bool.and_eq_true_iff.mp h
    obtain ⟨a, b, htarget, hbracket, hminus, hb⟩ := Expr.target_tidy (t.layout_tidy n ht)
    obtain ⟨y, z, hname, hy⟩ := tidy_name (n := n) (Name.isPath_of_isProper hx)
    have hfits := Expr.fits_words (.member t x) level hy (u := .name z) rfl
    have hdot : Apart b (.token (.sign .dot)) := hb.apart (by rintro _ ⟨⟩; decide)
    have hsuffix : Tidy (.token (.sign .dot)) _ (lexemesOf n [.symbol .dot, .name x]) :=
      .append (.single rfl) (apart_sign_word _ hy) hname
    rw [Expr.layout, lexemesOf_append]
    exact ⟨a, _, .append htarget hdot hsuffix, hbracket, fun _ _ => hminus, hfits.closes,
      hfits.suffix⟩
  | .index t k, h, level => by
    obtain ⟨ht, hk⟩ := Bool.and_eq_true_iff.mp h
    obtain ⟨a, b, htarget, hbracket, hminus, hb⟩ := Expr.target_tidy (t.layout_tidy n ht)
    obtain ⟨c, d, hkey, hfits⟩ := k.layout_tidy n hk 0
    have hopen : Apart b (.token (.sign .openBracket)) := hb.apart (by rintro _ ⟨⟩; decide)
    have hclose : Apart d (.token (.sign .closeBracket)) :=
      hfits.closes.apart (by rintro _ ⟨⟩; decide)
    have hsuffix := hkey.enclose rfl hfits.bracket hclose rfl
    refine ⟨a, .token (.sign .closeBracket), ?_, hbracket, fun _ _ => hminus,
      stopsAt_sign (fun _ => rfl) _, fun _ => stopsAt_sign (fun _ => rfl) _⟩
    rw [Expr.layout, List.append_assoc, lexemesOf_append, lexemesOf_append, lexemesOf_cons]
    exact .append htarget hopen hsuffix
  | .call c as, h, level => by
    obtain ⟨hc, has⟩ := Bool.and_eq_true_iff.mp h
    obtain ⟨a, b, htarget, hbracket, hminus, hb⟩ := Expr.target_tidy (c.layout_tidy n hc)
    have hopen : Apart b (.token (.sign .openParen)) := hb.apart (by rintro _ ⟨⟩; decide)
    have hsuffix := tidy_enclosed (o := .openParen) (c := .closeParen) (fun _ => rfl)
      (by rintro _ ⟨⟩; decide) (Expr.layouts_tidy n as has)
    refine ⟨a, .token (.sign .closeParen), ?_, hbracket, fun _ _ => hminus,
      stopsAt_sign (fun _ => rfl) _, fun _ => stopsAt_sign (fun _ => rfl) _⟩
    rw [Expr.layout, lexemesOf_append, lexemesOf_parenthesised]
    exact .append htarget hopen hsuffix
  | .binary op l r, h, level => by
    obtain ⟨hl, hr⟩ := Bool.and_eq_true_iff.mp h
    obtain ⟨a, b, hab, hleft⟩ := l.layout_tidy n hl op.leftLevel
    obtain ⟨c, d, hcd, hright⟩ := r.layout_tidy n hr op.rightLevel
    have hop : Tidy (.blank ' ') (.blank ' ') (lexemesOf n [.space, .binaryOp op, .space]) :=
      .append (.single rfl) (apart_blank _ _)
        (.append (.single op.isProper_token) (apart_binaryOp op) (.single rfl))
    have htidy : Tidy a d (lexemesOf n
        (l.layout op.leftLevel ++ [.space, .binaryOp op, .space] ++ r.layout op.rightLevel)) := by
      rw [lexemesOf_append, lexemesOf_append]
      exact .append (.append hab (hleft.closes.apart (by rintro _ ⟨⟩; decide)) hop)
        (apart_blank _ _) hcd
    rw [Expr.layout]
    by_cases hlevel : op.precedence < level
    · rw [decide_eq_true hlevel]
      exact ⟨_, _, tidy_parenthesised htidy hright.closes, Expr.fits_parens _ _⟩
    · rw [decide_eq_false hlevel]
      refine ⟨a, d, htidy, hleft.bracket, fun hprec _ => ?_, hright.closes, fun h => by cases h⟩
      -- only exponentiation is left here, and no minus sign stands in front of its left operand
      have hpow : op.leftLevel = 9 := BinaryOp.leftLevel_of_unary (hprec.trans (Nat.not_lt.mp hlevel))
      rw [hpow] at hleft
      exact hleft.minus (by decide) fun _ => by decide
  | .unary op e, h, level => by
    obtain ⟨a, b, hab, hfits⟩ := e.layout_tidy n h UnaryOp.precedence
    have hop : Tidy (.token op.token) (.token op.token) (lexemesOf n [.unaryOp op]) :=
      .single op.isProper_token
    have htidy : Tidy (.token op.token) b (lexemesOf n (.unaryOp op ::
        (if op == .not || e.leadsWithMinus then [.space] else []) ++
          e.layout UnaryOp.precedence)) := by
      rw [lexemesOf_append]
      -- a blank stands where the operand would extend the operator
      cases hblank : op == .not || e.leadsWithMinus with
      | true =>
        exact .append (.append hop (apart_unaryOp_blank op) (.single rfl)) (apart_blank _ _) hab
      | false => exact .append hop (apart_unaryOp hblank hfits) hab
    rw [Expr.layout]
    by_cases hlevel : UnaryOp.precedence < level
    · rw [decide_eq_true hlevel]
      exact ⟨_, _, tidy_parenthesised htidy hfits.closes, Expr.fits_parens _ _⟩
    · rw [decide_eq_false hlevel]
      refine ⟨_, b, htidy, apart_bracket_unaryOp op, fun _ hminus => ?_, hfits.closes,
        fun h => by cases h⟩
      exact apart_minus_unaryOp fun hneg => hlevel (hminus (beq_iff_eq.mpr hneg))
  | .paren e, h, level => by
    obtain ⟨a, b, hab, hfits⟩ := e.layout_tidy n h 0
    rw [Expr.layout]
    exact ⟨_, _, tidy_parenthesised hab hfits.closes, Expr.fits_parens _ _⟩
  | .table es, h, level => by
    have hitems := tidy_enclosed (o := .openBrace) (c := .closeBrace) (fun _ => rfl)
      (by rintro _ ⟨⟩; decide) (Expr.layouts_tidy n es h)
    refine ⟨.token (.sign .openBrace), .token (.sign .closeBrace), ?_, ?_, fun _ _ => ?_,
      stopsAt_sign (fun _ => rfl) _, fun h => by cases h⟩
    · rw [Expr.layout, lexemesOf_append, lexemesOf_cons]
      exact hitems
    · rintro _ ⟨⟩ _ ⟨⟩
      rfl
    · rintro _ ⟨⟩ _ ⟨⟩
      rfl

theorem Expr.layouts_tidy (n : Nat) : (es : List Expr) → Expr.areWellNamed es = true → es ≠ [] →
    ∃ first last, Tidy first last (lexemesOf n (commaSeparated (Expr.layouts es))) ∧
      last.StopsAt closers
  | [], _, hne => absurd rfl hne
  | [e], h, _ => by
    obtain ⟨a, b, hab, hfits⟩ := e.layout_tidy n (Bool.and_eq_true_iff.mp h).1 0
    exact ⟨a, b, hab, hfits.closes⟩
  | e :: e' :: es, h, _ => by
    obtain ⟨he, hes⟩ := Bool.and_eq_true_iff.mp h
    obtain ⟨a, b, hab, hfits⟩ := e.layout_tidy n he 0
    obtain ⟨c, d, hcd, hd⟩ := Expr.layouts_tidy n (e' :: es) hes (List.cons_ne_nil _ _)
    have hcomma : Apart b (.token (.sign .comma)) := hfits.closes.apart (by rintro _ ⟨⟩; decide)
    have hrest : Tidy (.token (.sign .comma)) d
        (lexemesOf n (.symbol .comma :: .space :: commaSeparated (Expr.layouts (e' :: es)))) :=
      .append (.single rfl) (apart_sign (fun _ => rfl) _)
        (.append (.single rfl) (apart_blank _ _) hcd)
    refine ⟨a, d, ?_, hd⟩
    show Tidy a d (lexemesOf n (e.layout 0 ++ _))
    rw [lexemesOf_append]
    exact .append hab hcomma hrest

end

def Fragment.tokensOf (fs : List Fragment) : List Token :=
  (lexemesOf 0 fs).filterMap token?

theorem Fragment.filterMap_lexemesOf (n : Nat) (fs : List Fragment) :
    (lexemesOf n fs).filterMap token? = Fragment.tokensOf fs := by
  have h (n : Nat) (f : Fragment) :
      (f.lexemes n).filterMap token? = (f.lexemes 0).filterMap token? := by
    cases f with
    | indent depth =>
      rw [lexemes, lexemes, List.filterMap_replicate_of_none rfl,
        List.filterMap_replicate_of_none rfl]
    | _ => rfl
  induction fs with
  | nil => rfl
  | cons f fs ih =>
    rw [tokensOf, lexemesOf_cons, lexemesOf_cons, List.filterMap_append, List.filterMap_append, h n,
      ih]
    rfl

/-- **The text of an expression is read as the tokens it is meant to write.** -/
theorem Expr.tokenize_text {e : Expr} (h : e.isWellNamed = true) :
    tokenize e.text = some (Fragment.tokensOf (e.layout 0)) := by
  obtain ⟨a, b, htidy, -⟩ := e.layout_tidy TextStyle.inline.indentSize h 0
  have htext : e.text = Fragment.textOf TextStyle.inline.indentSize (e.layout 0) := by
    show Fragment.textOf TextStyle.inline.indentSize (e.layout 0 ++ []) = _
    rw [List.append_nil]
  rw [tokenize, htext, Fragment.toList_textOf, htidy.tokenize, Fragment.filterMap_lexemesOf]

end LoopLowering
