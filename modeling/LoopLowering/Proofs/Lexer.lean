import LoopLowering.Keyword
import LoopLowering.Layout.Fragment
import Mathlib.Data.List.Chain

/- Tokens of the target language. The lexer reads a text one character at a time and
   keeps the token that is being read (`Pending`). A token goes on as long as a
   character can extend it, so it is the longest one; `--` begins a comment, and a
   numeral takes letters and dots in, so that one which runs into other characters
   is refused.

   `Lexeme` is a token or a blank as a printer writes it. Two of them may stand side
   by side when the second cannot extend the first (`Apart`), and a text whose
   neighbours are all apart is read as its tokens (`tokenize_lexemes`). `Stretch` is a
   part of the text that was read as one token or skipped, and such a text is cut into
   stretches at the ends of its lexemes (`cut_lexemes`). -/
namespace LoopLowering

/-! ## Tokens -/

/-- An operator or punctuation mark of the target language. -/
inductive Sign where
  | plus | minus | times | divide | floorDiv | mod | pow | len
  | ampersand | tilde | bar | shiftLeft | shiftRight
  | eq | ne | le | ge | lt | gt | assign
  | openParen | closeParen | openBrace | closeBrace | openBracket | closeBracket
  | label | semicolon | colon | comma | dot | concat | dots
  deriving DecidableEq, Repr

def Sign.spelling : Sign → List Char
  | .plus => ['+'] | .minus => ['-'] | .times => ['*'] | .divide => ['/'] | .floorDiv => ['/', '/']
  | .mod => ['%'] | .pow => ['^'] | .len => ['#']
  | .ampersand => ['&'] | .tilde => ['~'] | .bar => ['|']
  | .shiftLeft => ['<', '<'] | .shiftRight => ['>', '>']
  | .eq => ['=', '='] | .ne => ['~', '='] | .le => ['<', '='] | .ge => ['>', '=']
  | .lt => ['<'] | .gt => ['>'] | .assign => ['=']
  | .openParen => ['('] | .closeParen => [')']
  | .openBrace => ['\x7b'] | .closeBrace => ['\x7d']
  | .openBracket => ['['] | .closeBracket => [']']
  | .label => [':', ':'] | .semicolon => [';'] | .colon => [':'] | .comma => [',']
  | .dot => ['.'] | .concat => ['.', '.'] | .dots => ['.', '.', '.']

/-- The mark that a character is on its own. -/
def Sign.ofChar? : Char → Option Sign
  | '+' => some .plus | '-' => some .minus | '*' => some .times | '/' => some .divide
  | '%' => some .mod | '^' => some .pow | '#' => some .len
  | '&' => some .ampersand | '~' => some .tilde | '|' => some .bar
  | '<' => some .lt | '>' => some .gt | '=' => some .assign
  | '(' => some .openParen | ')' => some .closeParen
  | '\x7b' => some .openBrace | '\x7d' => some .closeBrace
  | '[' => some .openBracket | ']' => some .closeBracket
  | ';' => some .semicolon | ':' => some .colon | ',' => some .comma | '.' => some .dot
  | _ => none

inductive Token where
  | word (k : Keyword)
  | name (x : Name)
  | numeral (n : Nat)
  | quoted (s : String)
  | sign (s : Sign)
  deriving DecidableEq, Repr

/-- Whether a name may begin with the character. -/
def isNameStart (c : Char) : Bool :=
  c.isAlpha || c == '_'

/-- Whether a name may go on with the character. -/
def isNameChar (c : Char) : Bool :=
  isNameStart c || c.isDigit

/-- Whether characters spell a word: a name or a reserved word. -/
def isWord : List Char → Bool
  | [] => false
  | c :: cs => isNameStart c && cs.all isNameChar

/-- Whether a text is a name that the target language does not reserve. -/
def Name.isProper (x : Name) : Bool :=
  isWord x.toList && !isReserved x

/-- The token of a word: a reserved word or a name. -/
def wordToken (cs : List Char) : Token :=
  match Keyword.ofText? (String.ofList cs) with
  | some k => .word k
  | none => .name (String.ofList cs)

/-! ## The lexer -/

/-- What is being read: nothing, or a token of which the given characters have been read. Within a
string the characters are those it stands for, with the digits of a code that is not complete. -/
inductive Pending where
  | nothing
  | word (cs : List Char)
  | numeral (cs : List Char)
  | sign (s : Sign)
  | quoted (cs : List Char)
  | escape (cs : List Char)
  | code (cs digits : List Char)
  | closed (cs : List Char)
  | comment
  | stuck
  deriving DecidableEq, Repr

namespace Pending

/-- What the character begins when nothing is being read. -/
def start (c : Char) : Pending :=
  if isNameStart c then .word [c]
  else if c.isDigit then .numeral [c]
  else if c.isWhitespace then .nothing
  else if c = '"' then .quoted []
  else (Sign.ofChar? c).elim .stuck .sign

/-- A sign and the character that follows it, where they belong together. Long brackets are not
read. -/
def extendSign : Sign → Char → Option Pending
  | .minus, '-' => some .comment
  | .divide, '/' => some (.sign .floorDiv)
  | .lt, '<' => some (.sign .shiftLeft)
  | .lt, '=' => some (.sign .le)
  | .gt, '>' => some (.sign .shiftRight)
  | .gt, '=' => some (.sign .ge)
  | .assign, '=' => some (.sign .eq)
  | .tilde, '=' => some (.sign .ne)
  | .colon, ':' => some (.sign .label)
  | .dot, '.' => some (.sign .concat)
  | .dot, c => if c.isDigit then some (.numeral ['.', c]) else none
  | .concat, '.' => some (.sign .dots)
  | .openBracket, '[' => some .stuck
  | .openBracket, '=' => some .stuck
  | _, _ => none

/-- Within a string, the next character. -/
def extendQuoted (cs : List Char) (c : Char) : Pending :=
  if c = '"' then .closed cs
  else if c = '\\' then .escape cs
  else if c = '\n' ∨ c = '\r' then .stuck
  else .quoted (cs ++ [c])

/-- Within a string, the character after a backslash. -/
def extendEscape (cs : List Char) : Char → Pending
  | '\\' => .quoted (cs ++ ['\\'])
  | '"' => .quoted (cs ++ ['"'])
  | 'n' => .quoted (cs ++ ['\n'])
  | 't' => .quoted (cs ++ ['\t'])
  | 'r' => .quoted (cs ++ ['\r'])
  | c => if c.isDigit then .code cs [c] else .stuck

/-- Within a string, the end of a code; the codes of single bytes above 127 are no characters. -/
def closeCode (cs digits : List Char) : Pending :=
  let n := Nat.ofDigitChars 10 digits 0
  if n < 128 then .quoted (cs ++ [Char.ofNat n]) else .stuck

/-- Within a string, the character after the digits of a code, of which there are three at most. -/
def extendCode (cs digits : List Char) (c : Char) : Pending :=
  if c.isDigit then
    if digits.length < 2 then .code cs (digits ++ [c]) else closeCode cs (digits ++ [c])
  else
    match closeCode cs digits with
    | .quoted cs => extendQuoted cs c
    | p => p

/-- What is being read after one more character, when that belongs to it. -/
def extend : Pending → Char → Option Pending
  | .nothing, _ => none
  | .word cs, c => if isNameChar c then some (.word (cs ++ [c])) else none
  -- letters and dots do not end a numeral; what they make of it is refused at its end
  | .numeral cs, c => if isNameChar c || c == '.' then some (.numeral (cs ++ [c])) else none
  | .sign s, c => extendSign s c
  | .quoted cs, c => some (extendQuoted cs c)
  | .escape cs, c => some (extendEscape cs c)
  | .code cs digits, c => some (extendCode cs digits c)
  | .closed _, _ => none
  | .comment, c => some (if c = '\n' then .nothing else .comment)
  | .stuck, _ => some .stuck

/-- What has been read when it ends here, unless it cannot end here. -/
def finish : Pending → Option (List Token)
  | .nothing => some []
  | .word cs => some [wordToken cs]
  | .numeral cs => if cs.all Char.isDigit then some [.numeral (Nat.ofDigitChars 10 cs 0)] else none
  | .sign s => some [.sign s]
  | .quoted _ => none
  | .escape _ => none
  | .code _ _ => none
  | .closed cs => some [.quoted (String.ofList cs)]
  | .comment => some []
  | .stuck => none

/-- The tokens of a text, the first of which is being read. -/
def run : Pending → List Char → Option (List Token)
  | p, [] => p.finish
  | p, c :: cs =>
    match p.extend c with
    | some q => run q cs
    | none => p.finish.bind fun ts => (run (start c) cs).map (ts ++ ·)

end Pending

def tokenize (text : String) : Option (List Token) :=
  Pending.run .nothing text.toList

namespace Pending

theorem run_extend {p q : Pending} {c : Char} (h : p.extend c = some q) (cs : List Char) :
    run p (c :: cs) = run q cs := by
  rw [run, h]

theorem run_nothing (c : Char) (cs : List Char) : run .nothing (c :: cs) = run (start c) cs := by
  show (run (start c) cs).map ([] ++ ·) = _
  simp

/-- A token ends where the text cannot extend it. -/
theorem run_finish {p : Pending} {ts : List Token} (hfinish : p.finish = some ts)
    {cs : List Char} (hstop : ∀ c ∈ cs.head?, p.extend c = none) :
    run p cs = (run .nothing cs).map (ts ++ ·) := by
  cases cs with
  | nil => rw [run, hfinish, run, finish, Option.map_some, List.append_nil]
  | cons c cs => rw [run, hstop c rfl, hfinish, run_nothing]; rfl

/-- What is being read after characters that all belong to it. -/
def extendAll : Pending → List Char → Option Pending
  | p, [] => some p
  | p, c :: cs => (p.extend c).bind (extendAll · cs)

/-- What is being read after the characters of one piece, of which the first one begins it. -/
def reading : List Char → Option Pending
  | [] => none
  | c :: cs => (start c).extendAll cs

theorem extendAll_cons {p q : Pending} {c : Char} (h : p.extend c = some q) (cs : List Char) :
    p.extendAll (c :: cs) = q.extendAll cs := by
  rw [extendAll, h, Option.bind_some]

theorem extendAll_append {p q : Pending} {cs : List Char} (h : p.extendAll cs = some q)
    (ds : List Char) : p.extendAll (cs ++ ds) = q.extendAll ds := by
  induction cs generalizing p with
  | nil =>
    cases h
    rfl
  | cons c cs ih =>
    obtain ⟨r, hr, hq⟩ := Option.bind_eq_some_iff.mp h
    rw [List.cons_append, extendAll_cons hr, ih hq]

theorem run_extendAll {p q : Pending} {cs : List Char} (h : p.extendAll cs = some q)
    (rest : List Char) : run p (cs ++ rest) = run q rest := by
  induction cs generalizing p with
  | nil =>
    cases h
    rfl
  | cons c cs ih =>
    obtain ⟨r, hr, hq⟩ := Option.bind_eq_some_iff.mp h
    rw [List.cons_append, run_extend hr, ih hq]

theorem run_reading {p : Pending} {cs : List Char} (h : reading cs = some p) (rest : List Char) :
    run .nothing (cs ++ rest) = run p rest := by
  cases cs with
  | nil => cases h
  | cons c cs => rw [List.cons_append, run_nothing, run_extendAll h]

theorem reading_sign (s : Sign) : reading s.spelling = some (.sign s) := by
  cases s <;> rfl

theorem extendAll_word (cs : List Char) {ds : List Char} (h : ∀ d ∈ ds, isNameChar d = true) :
    extendAll (.word cs) ds = some (.word (cs ++ ds)) := by
  induction ds generalizing cs with
  | nil => rw [extendAll, List.append_nil]
  | cons d ds ih =>
    have hd : extend (.word cs) d = some (.word (cs ++ [d])) :=
      if_pos (h d List.mem_cons_self)
    rw [extendAll_cons hd, ih _ fun x hx => h x (List.mem_cons_of_mem d hx), List.append_assoc,
      List.singleton_append]

theorem isNameChar_of_isDigit {c : Char} (h : c.isDigit = true) : isNameChar c = true := by
  rw [isNameChar, h, Bool.or_true]

theorem extendAll_numeral (cs : List Char) {ds : List Char} (h : ∀ d ∈ ds, d.isDigit = true) :
    extendAll (.numeral cs) ds = some (.numeral (cs ++ ds)) := by
  induction ds generalizing cs with
  | nil => rw [extendAll, List.append_nil]
  | cons d ds ih =>
    have hd : extend (.numeral cs) d = some (.numeral (cs ++ [d])) := by
      rw [extend, isNameChar_of_isDigit (h d List.mem_cons_self), Bool.true_or, if_pos rfl]
    rw [extendAll_cons hd, ih _ fun x hx => h x (List.mem_cons_of_mem d hx), List.append_assoc,
      List.singleton_append]

/-- A character as it is written in a string stands for itself. -/
theorem extendAll_escapeChar (cs : List Char) (c : Char) :
    extendAll (.quoted cs) (escapeChar c).toList = some (.quoted (cs ++ [c])) := by
  unfold escapeChar
  split
  case h_7 hbackslash hquote hnewline _ hreturn _ =>
    have hplain : extend (.quoted cs) c = some (.quoted (cs ++ [c])) := by
      rw [extend, extendQuoted, if_neg hquote, if_neg hbackslash,
        if_neg (not_or.mpr ⟨hnewline, hreturn⟩)]
    rw [Char.toString_eq_singleton, String.toList_singleton, extendAll_cons hplain, extendAll]
  -- the third digit completes the code of the null character, so what follows is not a part of it
  all_goals rfl

theorem extendAll_quoted (cs s : List Char) :
    extendAll (.quoted cs) (s.flatMap fun c => (escapeChar c).toList) =
      some (.quoted (cs ++ s)) := by
  induction s generalizing cs with
  | nil => rw [List.flatMap_nil, extendAll, List.append_nil]
  | cons c s ih =>
    rw [List.flatMap_cons, extendAll_append (extendAll_escapeChar cs c), ih, List.append_assoc,
      List.singleton_append]

end Pending

/-! ## Tokens as they are written -/

/-- Line ends and the null character are not written as they are. -/
theorem plain_of_mem_escapeChar {c d : Char} (h : d ∈ (escapeChar c).toList) :
    d ≠ '\n' ∧ d ≠ '\r' ∧ d ≠ '\x00' := by
  unfold escapeChar at h
  split at h
  case h_7 _ _ hnewline _ hreturn hnull =>
    rw [Char.toString_eq_singleton, String.toList_singleton, List.mem_singleton] at h
    rw [h]
    exact ⟨hnewline, hreturn, hnull⟩
  all_goals
    simp at h
    grind

theorem isWord_text (k : Keyword) : isWord k.text.toList = true := by
  cases k <;> decide

theorem Keyword.ofText?_text (k : Keyword) : Keyword.ofText? k.text = some k := by
  cases k <;> decide

theorem isNameStart_of_isDigit {c : Char} (h : c.isDigit = true) : isNameStart c = false := by
  have halpha : c.isAlpha = false := by
    delta Char.isDigit at h
    delta Char.isAlpha Char.isUpper Char.isLower
    grind
  have hne : c ≠ '_' := by
    rintro rfl
    cases h
  rw [isNameStart, halpha, Bool.false_or, beq_eq_false_iff_ne]
  exact hne

namespace Token

def spelling : Token → List Char
  | .word k => k.text.toList
  | .name x => x.toList
  | .numeral n => Nat.toDigits 10 n
  | .quoted s => '"' :: s.toList.flatMap (fun c => (escapeChar c).toList) ++ ['"']
  | .sign s => s.spelling

/-- The token when all of its characters have been read. -/
def pending : Token → Pending
  | .word k => .word k.text.toList
  | .name x => .word x.toList
  | .numeral n => .numeral (Nat.toDigits 10 n)
  | .quoted s => .closed s.toList
  | .sign s => .sign s

/-- Whether the token can be read back: a name must be a proper one. -/
def isProper : Token → Bool
  | .name x => x.isProper
  | _ => true

theorem reading_isWord {cs : List Char} (h : isWord cs = true) :
    Pending.reading cs = some (.word cs) := by
  cases cs with
  | nil => cases h
  | cons c cs =>
    obtain ⟨hc, hcs⟩ := Bool.and_eq_true_iff.mp h
    rw [Pending.reading, Pending.start, if_pos hc,
      Pending.extendAll_word _ (List.all_eq_true.mp hcs), List.singleton_append]

theorem reading_toDigits (n : Nat) :
    Pending.reading (Nat.toDigits 10 n) = some (.numeral (Nat.toDigits 10 n)) := by
  have hdigits : ∀ d ∈ Nat.toDigits 10 n, d.isDigit = true :=
    fun d hd => Nat.isDigit_of_mem_toDigits (by decide) (by decide) hd
  cases hn : Nat.toDigits 10 n with
  | nil => exact absurd hn Nat.toDigits_ne_nil
  | cons d ds =>
    rw [hn] at hdigits
    have hd := hdigits d List.mem_cons_self
    rw [Pending.reading, Pending.start, if_neg (by rw [isNameStart_of_isDigit hd]; decide),
      if_pos hd, Pending.extendAll_numeral _ fun x hx => hdigits x (List.mem_cons_of_mem d hx),
      List.singleton_append]

theorem reading_spelling {t : Token} (h : t.isProper = true) :
    Pending.reading t.spelling = some t.pending := by
  cases t with
  | word k => exact reading_isWord (isWord_text k)
  | name x => exact reading_isWord (Bool.and_eq_true_iff.mp h).1
  | numeral n => exact reading_toDigits n
  | quoted s => exact Pending.extendAll_append (Pending.extendAll_quoted [] s.toList) ['"']
  | sign s => exact Pending.reading_sign s

theorem run_spelling {t : Token} (h : t.isProper = true) (rest : List Char) :
    Pending.run .nothing (t.spelling ++ rest) = Pending.run t.pending rest :=
  Pending.run_reading (reading_spelling h) rest

theorem finish_pending {t : Token} (h : t.isProper = true) : t.pending.finish = some [t] := by
  cases t with
  | word k => 
    rw [pending, Pending.finish, wordToken, String.ofList_toList, k.ofText?_text]
  | name x =>
    have hx : Keyword.ofText? x = none := by
      have hfree := (Bool.and_eq_true_iff.mp h).2
      simpa [isReserved] using hfree
    rw [pending, Pending.finish, wordToken, String.ofList_toList, hx]
  | numeral n =>
    have hdigits : (Nat.toDigits 10 n).all Char.isDigit = true :=
      List.all_eq_true.mpr fun d hd => Nat.isDigit_of_mem_toDigits (by decide) (by decide) hd
    rw [pending, Pending.finish, if_pos hdigits, Nat.ofDigitChars_ten_toDigits]
  | quoted s => rw [pending, Pending.finish, String.ofList_toList]
  | sign s => rfl

end Token

/-! ## Stretches of text -/

/-- A stretch of text as the lexer takes it: the characters of one token, or a blank or a comment, which
is skipped. -/
inductive Stretch where
  | token (t : Token) (chars : List Char)
  | skipped (chars : List Char)
  deriving DecidableEq, Repr

namespace Stretch

def chars : Stretch → List Char
  | .token _ cs => cs
  | .skipped cs => cs

def token? : Stretch → Option Token
  | .token t _ => some t
  | .skipped _ => none

end Stretch

namespace Pending

/-- The characters of what is being read as a stretch that ends here. -/
def stretch (p : Pending) (read : List Char) : Option Stretch :=
  p.finish.map fun ts => ts.head?.elim (.skipped read) (.token · read)

/-- The stretches of a text, of the first of which some characters have been read. -/
def cutFrom : Pending → List Char → List Char → Option (List Stretch)
  | p, read, [] => (p.stretch read).map ([·])
  | p, read, c :: cs =>
    match p.extend c with
    | some q => cutFrom q (read ++ [c]) cs
    | none => (p.stretch read).bind fun s => (cutFrom (start c) [c] cs).map (s :: ·)

end Pending

/-- The stretches of a text, which are cut as the lexer reads it. -/
def cut : List Char → Option (List Stretch)
  | [] => some []
  | c :: cs => Pending.cutFrom (.start c) [c] cs

namespace Pending

theorem cutFrom_extendAll {p q : Pending} {cs : List Char} (h : p.extendAll cs = some q)
    (read rest : List Char) : p.cutFrom read (cs ++ rest) = q.cutFrom (read ++ cs) rest := by
  induction cs generalizing p read with
  | nil =>
    cases h
    rw [List.nil_append, List.append_nil]
  | cons c cs ih =>
    obtain ⟨r, hr, hq⟩ := Option.bind_eq_some_iff.mp h
    rw [List.cons_append, cutFrom, hr]
    simp only [ih hq, List.append_assoc, List.singleton_append]

theorem cutFrom_stop {p : Pending} {read rest : List Char}
    (hstop : ∀ c ∈ rest.head?, p.extend c = none) :
    p.cutFrom read rest = (p.stretch read).bind fun s => (cut rest).map (s :: ·) := by
  cases rest with
  | nil =>
    rw [cutFrom, cut]
    cases p.stretch read <;> rfl
  | cons c cs => rw [cutFrom, hstop c rfl]; rfl

/-- What ends is one token or nothing at all. -/
theorem finish_eq_stretch (p : Pending) (read : List Char) :
    p.finish = (p.stretch read).map fun s => s.token?.toList := by
  cases p with
  | numeral cs =>
    rw [stretch, finish]
    split <;> rfl
  | _ => rfl

/-- The lexer reads the tokens of the stretches. -/
theorem run_eq_cutFrom (p : Pending) (read cs : List Char) :
    p.run cs = (p.cutFrom read cs).map (List.filterMap Stretch.token?) := by
  induction cs generalizing p read with
  | nil =>
    rw [run, cutFrom, p.finish_eq_stretch read]
    cases p.stretch read with
    | none => rfl
    | some s => cases s <;> rfl
  | cons c cs ih =>
    rw [run, cutFrom]
    cases p.extend c with
    | some q => exact ih q (read ++ [c])
    | none =>
      dsimp only
      rw [p.finish_eq_stretch read, ih (start c) [c]]
      cases p.stretch read with
      | none => rfl
      | some s => cases s <;> cases cutFrom (start c) [c] cs <;> rfl

end Pending

theorem cut_reading {p : Pending} {cs rest : List Char} (h : Pending.reading cs = some p)
    (hstop : ∀ c ∈ rest.head?, p.extend c = none) :
    cut (cs ++ rest) = (p.stretch cs).bind fun s => (cut rest).map (s :: ·) := by
  cases cs with
  | nil => cases h
  | cons c cs =>
    rw [List.cons_append, cut, Pending.cutFrom_extendAll h, Pending.cutFrom_stop hstop]
    rfl

theorem run_nothing_eq_cut (cs : List Char) :
    Pending.run .nothing cs = (cut cs).map (List.filterMap Stretch.token?) := by
  cases cs with
  | nil => rfl
  | cons c cs => rw [Pending.run_nothing, cut, Pending.run_eq_cutFrom]

/-! ## Texts -/

/-- A piece of text: a token, or a blank between tokens. -/
inductive Lexeme where
  | token (t : Token)
  | blank (c : Char)
  deriving DecidableEq, Repr

namespace Lexeme

def chars : Lexeme → List Char
  | .token t => t.spelling
  | .blank c => [c]

def token? : Lexeme → Option Token
  | .token t => some t
  | .blank _ => none

/-- Whether the piece can be read back: a blank must begin no token. -/
def isProper : Lexeme → Bool
  | .token t => t.isProper
  | .blank c => Pending.start c = .nothing

/-- Two pieces that may stand side by side: the second cannot extend the first. -/
def Apart (l m : Lexeme) : Prop :=
  ∀ t, l = .token t → ∀ c ∈ m.chars.head?, t.pending.extend c = none

theorem head?_chars_append {l : Lexeme} (h : l.isProper = true) (rest : List Char) :
    (l.chars ++ rest).head? = l.chars.head? := by
  have hne : l.chars ≠ [] := by
    cases l with
    | blank c => exact List.cons_ne_nil _ _
    | token t =>
      -- the empty text has no token
      intro hnil
      have hrun := Token.run_spelling h []
      rw [show t.spelling = [] from hnil, List.nil_append, Pending.run, Pending.run,
        Token.finish_pending h] at hrun
      cases hrun
  exact List.head?_append_of_ne_nil _ hne

/-- The piece when all of its characters have been read. -/
def pending : Lexeme → Pending
  | .token t => t.pending
  | .blank _ => .nothing

theorem reading_chars {l : Lexeme} (h : l.isProper = true) :
    Pending.reading l.chars = some l.pending := by
  cases l with
  | token t => exact Token.reading_spelling h
  | blank c => exact congrArg some (of_decide_eq_true h)

def stretch : Lexeme → Stretch
  | .token t => .token t t.spelling
  | .blank c => .skipped [c]

theorem stretch_pending {l : Lexeme} (h : l.isProper = true) :
    l.pending.stretch l.chars = some l.stretch := by
  cases l with
  | token t => rw [pending, Pending.stretch, Token.finish_pending h]; rfl
  | blank c => rfl

theorem token?_stretch (l : Lexeme) : l.stretch.token? = l.token? := by
  cases l <;> rfl

end Lexeme

/-- **Texts are cut where they were put together.** A text of pieces whose neighbours are all apart, in
front of a text that does not extend the last of them, is cut into these pieces: no two are merged,
none is split and no comment begins. -/
theorem cut_lexemes {ls : List Lexeme} (hproper : ∀ l ∈ ls, l.isProper = true)
    (hapart : ls.IsChain Lexeme.Apart) {rest : List Char}
    (hrest : ∀ l ∈ ls.getLast?, ∀ c ∈ rest.head?, l.pending.extend c = none) :
    cut (ls.flatMap Lexeme.chars ++ rest) =
      (cut rest).map (ls.map Lexeme.stretch ++ ·) := by
  -- after each piece nothing is being read, since its neighbour does not extend it
  induction ls with
  | nil => simp
  | cons l ls ih =>
    obtain ⟨hnext, htail⟩ := List.isChain_cons.mp hapart
    obtain ⟨hl, hls⟩ := List.forall_mem_cons.mp hproper
    have hstop : ∀ c ∈ (ls.flatMap Lexeme.chars ++ rest).head?, l.pending.extend c = none := by
      intro c hc
      cases ls with
      | nil => exact hrest l rfl c hc
      | cons m ls =>
        rw [List.flatMap_cons, List.append_assoc,
          Lexeme.head?_chars_append (hls m List.mem_cons_self)] at hc
        cases l with
        | token t => exact hnext m rfl t rfl c hc
        | blank b => rfl
    have hcut : cut (ls.flatMap Lexeme.chars ++ rest) =
        (cut rest).map (ls.map Lexeme.stretch ++ ·) := by
      apply ih hls htail
      intro m hm
      exact hrest m (by rw [List.getLast?_cons, hm]; rfl)
    rw [List.flatMap_cons, List.append_assoc, cut_reading (Lexeme.reading_chars hl) hstop,
      Lexeme.stretch_pending hl, hcut, Option.bind_some, Option.map_map]
    rfl

/-- **Texts are read as their tokens.** A text of pieces whose neighbours are all apart is read as
the tokens among them. -/
theorem run_lexemes {ls : List Lexeme} (hproper : ∀ l ∈ ls, l.isProper = true)
    (hapart : ls.IsChain Lexeme.Apart) (rest : List Char)
    (hrest : ∀ l ∈ ls.getLast?, ∀ c ∈ rest.head?, l.pending.extend c = none) :
    Pending.run .nothing (ls.flatMap Lexeme.chars ++ rest) =
      (Pending.run .nothing rest).map (ls.filterMap Lexeme.token? ++ ·) := by
  have htokens : (ls.map Lexeme.stretch).filterMap Stretch.token? = ls.filterMap Lexeme.token? := by
    rw [List.filterMap_map]
    exact congrArg (List.filterMap · ls) (funext Lexeme.token?_stretch)
  simp only [run_nothing_eq_cut, cut_lexemes hproper hapart hrest, Option.map_map]
  congr 1
  funext ss
  simp [htokens]

theorem tokenize_lexemes {ls : List Lexeme} (hproper : ∀ l ∈ ls, l.isProper = true)
    (hapart : ls.IsChain Lexeme.Apart) :
    Pending.run .nothing (ls.flatMap Lexeme.chars) = some (ls.filterMap Lexeme.token?) := by
  have hrun := run_lexemes hproper hapart [] (by simp)
  simpa [Pending.run, Pending.finish] using hrun

end LoopLowering
