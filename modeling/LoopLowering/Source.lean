import LoopLowering.Stmt

/- Loops of the source language. The source language has four loops: `while`, `do …
   while`, the counted `for` with its clauses, and `foreach`. Their bodies and
   clauses already hold statements of the target language. What a loop leaves out is
   `none`. -/
namespace LoopLowering

/-- A counted loop: `for (declaration; initializers; condition; incrementors) body`. -/
structure CountedLoop where
  declaration : Option Declaration := none
  initializers : List Stmt := []
  condition : Option Expr := none
  body : Block := .empty
  incrementors : List Stmt := []
  deriving DecidableEq

inductive SourceLoop where
  | «while» (condition : Expr) (body : Block)
  | doWhile (condition : Option Expr) (body : Block)
  | counted (loop : CountedLoop)
  | foreach (var : Option Name) (iterable : Option Expr) (body : Block)
  deriving DecidableEq

inductive SourceKind where
  | «while»
  | doWhile
  | counted
  | foreach
  deriving DecidableEq, Repr

def SourceKind.name : SourceKind → String
  | .while => "while"
  | .doWhile => "do-while"
  | .counted => "for"
  | .foreach => "foreach"

def SourceLoop.kind : SourceLoop → SourceKind
  | .while .. => .while
  | .doWhile .. => .doWhile
  | .counted _ => .counted
  | .foreach .. => .foreach

end LoopLowering
