import LoopLowering.Layout.Stmt
import LoopLowering.Node

/- The text of a program. Nodes are written one after the other, each where the one
   before it left the line; the whole may get a newline at its end. -/
namespace LoopLowering

/-- How text is written: the width of a level of indentation, and whether the text ends in a
newline. -/
structure TextStyle where
  indentSize : Nat := 4
  finalNewline : Bool := true
  deriving DecidableEq, Repr

def Node.layout (fresh : Bool) : Node → List Fragment
  | .chunk b => b.chunkLayout fresh
  | .block b => b.layout 0 fresh
  | .stmt s => s.layout 0 fresh
  | .expr e => e.layout 0
  | .loop l => l.layout 0
  | .call c => c.layout
  | .name x => [.name x]

/-- The layout of nodes one after the other; `fresh` says whether the line is fresh at the start. -/
def Node.layoutAll (fresh : Bool) : List Node → List Fragment
  | [] => []
  | n :: ns =>
    let fs := n.layout fresh
    fs ++ Node.layoutAll (Fragment.leaveFresh fresh fs) ns

/-- The text of nodes as it stands, without a newline added at its end. -/
def Node.rawText (style : TextStyle) (nodes : List Node) : String :=
  Fragment.textOf style.indentSize (Node.layoutAll true nodes)

def Node.textAll (style : TextStyle) (nodes : List Node) : String :=
  let text := Node.rawText style nodes
  if style.finalNewline then withFinalNewline text else text

def Block.programText (style : TextStyle) (b : Block) : String :=
  Node.textAll style [.chunk b]

/-- The style of text that is part of a line. -/
def TextStyle.inline : TextStyle :=
  { finalNewline := false }

/-- The text of a statement, without a newline at its end. -/
def Stmt.text (s : Stmt) : String :=
  Node.textAll .inline [.stmt s]

def Expr.text (e : Expr) : String :=
  Node.textAll .inline [.expr e]

end LoopLowering
