/- Emitted text. Text leaves the renderer in small steps (`Emit`). A buffer that
   collects text appends what each step adds to it (`Emit.toText`). -/
namespace LoopLowering

/-- One step of output: a text, the end of a line, or a number of spaces. -/
inductive Emit where
  | text (s : String)
  | newline
  | spaces (count : Nat)
  deriving DecidableEq, Repr

namespace Emit

/-- The text that the step adds to a buffer. -/
def toText : Emit → String
  | .text s => s
  | .newline => "\n"
  | .spaces n => String.ofList (List.replicate n ' ')

def textOf (es : List Emit) : String :=
  String.join (es.map toText)

@[simp] theorem textOf_nil : textOf [] = "" := rfl

@[simp] theorem textOf_append (es es' : List Emit) :
    textOf (es ++ es') = textOf es ++ textOf es' := by
  rw [textOf, List.map_append, String.join_append, textOf, textOf]

end Emit

/-- The text with a newline at its end, unless it is empty or has one. -/
def withFinalNewline (s : String) : String :=
  if s.isEmpty || s.toList.getLast? == some '\n' then s else s.push '\n'

end LoopLowering
