import LoopLowering.Layout.Expr
import LoopLowering.Stmt

/- Layout of statements. One statement stands on each line, and the statements of a
   block one level deeper than the block. The layout of a block begins at the end of
   the header that introduces it. A block without delimiters ends on a fresh line,
   where the surrounding statement goes on. -/
namespace LoopLowering

/-- The word that opens a block, after a blank unless the line is fresh. -/
def Delimiters.opening (d : Delimiters) (fresh : Bool) : List Fragment :=
  match d.openWord? with
  | some w => if fresh then [.word w] else [.space, .word w]
  | none => []

def Delimiters.closing (d : Delimiters) : List Fragment :=
  match d.closeWord? with
  | some w => [.word w]
  | none => []

def Declaration.layout (d : Declaration) : List Fragment :=
  .word .local :: .space :: commaSeparated (d.names.map fun x => [.name x]) ++
    if d.values.isEmpty then [] else .symbol .assign :: Expr.layoutList d.values

mutual

/-- The layout of a statement at a depth of indentation; `fresh` says whether nothing else stands
on its line. -/
def Stmt.layout (depth : Nat) (fresh : Bool) : Stmt → List Fragment
  | .expr e => e.layout 0
  | .local d => d.layout
  | .assign ts vs => Expr.layoutList ts ++ .symbol .assign :: Expr.layoutList vs
  | .loop l => l.layout depth
  | .do b => b.layout depth fresh
  | .if c t none =>
    .word .if :: .space :: c.layout 0 ++ .space :: .word .then :: t.layout depth false ++ [.word .end]
  | .if c t (some e) =>
    .word .if :: .space :: c.layout 0 ++ .space :: .word .then :: t.layout depth false ++
      .word .else :: e.layout depth false ++ [.word .end]
  | .break => [.word .break]
  | .return vs => .word .return :: if vs.isEmpty then [] else .space :: Expr.layoutList vs

/-- The layout of a block whose header stands at the given depth. -/
def Block.layout (depth : Nat) (fresh : Bool) : Block → List Fragment
  | ⟨d, ss⟩ =>
    d.opening fresh ++ Stmt.layoutLines (depth + 1) ss ++ .newline :: .indent depth :: d.closing

def Loop.layout (depth : Nat) : Loop → List Fragment
  | .while c b => .word .while :: .space :: c.layout 0 ++ b.layout depth false
  | .repeat b c => .word .repeat :: b.layout depth false ++ .word .until :: .space :: c.layout 0
  | .forIn x s b =>
    [.word .for, .space, .name x, .space, .word .in, .space] ++ s.layout ++ b.layout depth false
  | .numericFor x i l none b =>
    [.word .for, .space, .name x, .symbol .assign] ++ i.layout 0 ++
      .symbol .clauseComma :: l.layout 0 ++ b.layout depth false
  | .numericFor x i l (some s) b =>
    [.word .for, .space, .name x, .symbol .assign] ++ i.layout 0 ++
      .symbol .clauseComma :: l.layout 0 ++ .symbol .clauseComma :: s.layout 0 ++ b.layout depth false

/-- The layout of statements, each on a new line of its own. -/
def Stmt.layoutLines (depth : Nat) : List Stmt → List Fragment
  | [] => []
  | s :: ss => .newline :: .indent depth :: s.layout depth true ++ Stmt.layoutLines depth ss

end

/-- The layout of a block's statements at top level, without the block's delimiters: one on each
line, the first one where the output stands. -/
def Block.chunkLayout (b : Block) (fresh : Bool) : List Fragment :=
  match b.statements with
  | [] => []
  | s :: ss => .indent 0 :: s.layout 0 fresh ++ Stmt.layoutLines 0 ss

end LoopLowering
