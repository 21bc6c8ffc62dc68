/- Names. Identifiers and dotted paths of the target language. A dotted path such as
   `System.each` is one name. The empty text stands for a name that is not there. -/
namespace LoopLowering

/-- The text of an identifier or of a dotted path. -/
abbrev Name := String

namespace Name

def isAbsent (n : Name) : Bool :=
  n.isEmpty

/-- The name as diagnostics show it. -/
def describe (n : Name) : String :=
  "Ident(" ++ n ++ ")"

/-- The adapter that turns a collection into an iterator, unless another one is asked for. -/
def defaultAdapter : Name := "System.each"

end Name

end LoopLowering
