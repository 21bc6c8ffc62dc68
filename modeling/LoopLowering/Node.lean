import LoopLowering.Stmt

/- Nodes. A node is any part of a program that can be visited or written by itself. -/
namespace LoopLowering

/-- A part of a program. A chunk is a block that stands for its statements alone. -/
inductive Node where
  | chunk (b : Block)
  | block (b : Block)
  | stmt (s : Stmt)
  | expr (e : Expr)
  | loop (l : Loop)
  | call (c : Call)
  | name (x : Name)
  deriving DecidableEq

end LoopLowering
