import LoopLowering.Layout.Fragment

/- Layout of expressions. An expression stands in a place that asks for a level of
   precedence; an operator of a lower level is put between parentheses. What is
   called, indexed or selected from must be able to carry a suffix and is put
   between parentheses otherwise. -/
namespace LoopLowering

/-- Whether a call, an index or a member may be attached to the expression as it is. -/
def Expr.takesSuffix : Expr → Bool
  | .ident _ | .member .. | .index .. | .call .. | .paren _ => true
  | _ => false

/-- Whether the text of the expression begins with a minus sign. -/
def Expr.leadsWithMinus : Expr → Bool
  | .int n => decide (n < 0) && n != Int64.minValue
  | .unary op _ => op == .neg
  | _ => false

mutual

/-- The layout of an expression in a place that asks for the given level. A negative literal counts
as an application of the minus sign. A blank keeps two minus signs apart, which would otherwise
begin a comment. -/
def Expr.layout (level : Nat) : Expr → List Fragment
  | .nil => [.word .nil]
  | .bool b => [.word (if b then .true else .false)]
  | .int n =>
    parenthesisedIf ((Expr.int n).leadsWithMinus && decide (UnaryOp.precedence < level)) [.integer n]
  | .str s => [.quoted s]
  | .ident x => [.name x]
  | .member t x =>
    parenthesisedIf (!t.takesSuffix) (t.layout 0) ++ [.symbol .dot, .name x]
  | .index t k =>
    parenthesisedIf (!t.takesSuffix) (t.layout 0) ++
      .symbol .openBracket :: k.layout 0 ++ [.symbol .closeBracket]
  | .call c as =>
    parenthesisedIf (!c.takesSuffix) (c.layout 0) ++
      parenthesised (commaSeparated (Expr.layouts as))
  | .binary op l r =>
    parenthesisedIf (decide (op.precedence < level))
      (l.layout op.leftLevel ++ [.space, .binaryOp op, .space] ++ r.layout op.rightLevel)
  | .unary op e =>
    parenthesisedIf (decide (UnaryOp.precedence < level))
      (.unaryOp op :: (if op == .not || e.leadsWithMinus then [.space] else []) ++
        e.layout UnaryOp.precedence)
  | .paren e => parenthesised (e.layout 0)
  | .table es =>
    .symbol .openBrace :: commaSeparated (Expr.layouts es) ++ [.symbol .closeBrace]

def Expr.layouts : List Expr → List (List Fragment)
  | [] => []
  | e :: es => e.layout 0 :: Expr.layouts es

end

theorem Expr.layouts_eq_map (es : List Expr) : Expr.layouts es = es.map (Expr.layout 0) := by
  induction es with
  | nil => rfl
  | cons e es ih => simp [Expr.layouts, ih]

def Expr.layoutList (es : List Expr) : List Fragment :=
  commaSeparated (Expr.layouts es)

def Call.layout (c : Call) : List Fragment :=
  c.toExpr.layout 0

end LoopLowering
