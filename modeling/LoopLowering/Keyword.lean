/- Reserved words of the target language. A name of the target language is any text;
   a program may only use those that are not reserved. `Keyword` lists the reserved
   words, `Keyword.text` spells them, and `isReserved` recognises a spelling. -/
namespace LoopLowering

/-- A reserved word of the target language. -/
inductive Keyword where
  | «and» | «break» | «do» | «else» | «elseif» | «end» | «false» | «for» | «function» | «goto» | «if»
  | «in» | «local» | «nil» | «not» | «or» | «repeat» | «return» | «then» | «true» | «until»
  | «while»
  deriving DecidableEq, Repr

namespace Keyword

def text : Keyword → String
  | .and => "and"
  | .break => "break"
  | .do => "do"
  | .else => "else"
  | .elseif => "elseif"
  | .end => "end"
  | .false => "false"
  | .for => "for"
  | .function => "function"
  | .goto => "goto"
  | .if => "if"
  | .in => "in"
  | .local => "local"
  | .nil => "nil"
  | .not => "not"
  | .or => "or"
  | .repeat => "repeat"
  | .return => "return"
  | .then => "then"
  | .true => "true"
  | .until => "until"
  | .while => "while"

/-- Every reserved word, in alphabetical order. -/
def all : List Keyword :=
  [.and, .break, .do, .else, .elseif, .end, .false, .for, .function, .goto, .if, .in, .local, .nil,
    .not, .or, .repeat, .return, .then, .true, .until, .while]

theorem mem_all (k : Keyword) : k ∈ all := by
  cases k <;> decide

/-- The reserved word that a text spells, if it spells one. -/
def ofText? (s : String) : Option Keyword :=
  all.find? fun k => k.text == s

end Keyword

def isReserved (s : String) : Bool :=
  (Keyword.ofText? s).isSome

theorem isReserved_iff {s : String} : isReserved s = true ↔ ∃ k : Keyword, k.text = s := by
  simp [isReserved, Keyword.ofText?, Keyword.mem_all]

end LoopLowering
