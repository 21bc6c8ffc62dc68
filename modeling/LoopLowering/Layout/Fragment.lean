import LoopLowering.Expr
import LoopLowering.Keyword
import LoopLowering.Output.Emit

/- Fragments of rendered text. A rendered tree is a list of fragments: reserved
   words, names, literals, operators and punctuation, with the blanks, line ends and
   indentation between them. `Fragment.emits` turns each into output. -/
namespace LoopLowering

/-- Punctuation. An assignment sign comes with blanks around it, and the comma between the clauses
of a numeric `for` with one after it. -/
inductive Symbol where
  | openParen | closeParen
  | openBracket | closeBracket
  | openBrace | closeBrace
  | dot | comma | clauseComma | assign
  deriving DecidableEq, Repr

def Symbol.text : Symbol → String
  | .openParen => "("
  | .closeParen => ")"
  | .openBracket => "["
  | .closeBracket => "]"
  | .openBrace => "\x7b"
  | .closeBrace => "\x7d"
  | .dot => "."
  | .comma => ","
  | .clauseComma => ", "
  | .assign => " = "

/-- A piece of rendered text. -/
inductive Fragment where
  | word (k : Keyword)
  | name (x : Name)
  | integer (n : Int64)
  | quoted (s : String)
  | binaryOp (op : BinaryOp)
  | unaryOp (op : UnaryOp)
  | symbol (s : Symbol)
  | space
  | newline
  | indent (depth : Nat)
  deriving DecidableEq, Repr

/-- The text of an integer. The least one has no literal of its own. -/
def integerText (n : Int64) : String :=
  if n = Int64.minValue then "math.mininteger" else toString n.toInt

/-- A character as it stands inside a string literal. The code of the null character has three
digits, so a digit that follows is not read as a part of it. -/
def escapeChar : Char → String
  | '\\' => "\\\\"
  | '"' => "\\\""
  | '\n' => "\\n"
  | '\t' => "\\t"
  | '\r' => "\\r"
  | '\x00' => "\\000"
  | c => c.toString

namespace Fragment

/-- The steps in which the fragment is put out, with the given width of one level of indentation.
A string literal goes out character by character. -/
def emits (indentSize : Nat) : Fragment → List Emit
  | .word k => [.text k.text]
  | .name x => [.text x]
  | .integer n => [.text (integerText n)]
  | .quoted s => .text "\"" :: s.toList.map (.text ∘ escapeChar) ++ [.text "\""]
  | .binaryOp op => [.text op.symbol]
  | .unaryOp op => [.text op.symbol]
  | .symbol s => [.text s.text]
  | .space => [.spaces 1]
  | .newline => [.newline]
  | .indent depth => [.spaces (depth * indentSize)]

def emitsAll (indentSize : Nat) (fs : List Fragment) : List Emit :=
  fs.flatMap (emits indentSize)

def textOf (indentSize : Nat) (fs : List Fragment) : String :=
  Emit.textOf (emitsAll indentSize fs)

@[simp] theorem textOf_nil (n : Nat) : textOf n [] = "" := rfl

@[simp] theorem textOf_append (n : Nat) (fs gs : List Fragment) :
    textOf n (fs ++ gs) = textOf n fs ++ textOf n gs := by
  rw [textOf, emitsAll, List.flatMap_append, Emit.textOf_append]; rfl

def name? : Fragment → Option Name
  | .name x => some x
  | _ => none

/-- Whether nothing but indentation stands on the current line after the fragment, given whether
this is so before it. -/
def leavesFresh (fresh : Bool) : Fragment → Bool
  | .newline => true
  | .indent _ => fresh
  | _ => false

def leaveFresh (fresh : Bool) (fs : List Fragment) : Bool :=
  fs.foldl leavesFresh fresh

end Fragment

def parenthesised (fs : List Fragment) : List Fragment :=
  .symbol .openParen :: fs ++ [.symbol .closeParen]

/-- The fragments, between parentheses when `wrap` holds. -/
def parenthesisedIf (wrap : Bool) (fs : List Fragment) : List Fragment :=
  if wrap then parenthesised fs else fs

/-- The items of a list with a comma and a blank between neighbours. -/
def commaSeparated : List (List Fragment) → List Fragment
  | [] => []
  | [item] => item
  | item :: next :: rest =>
    item ++ .symbol .comma :: .space :: commaSeparated (next :: rest)

end LoopLowering
