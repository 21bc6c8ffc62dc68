import LoopLowering.Expr
import LoopLowering.Keyword

/- Statements, blocks and loop nodes of the target language. The three kinds of tree
   refer to each other. A block carries its delimiters: the words `do` and `end`, or
   nothing at all when the surrounding statement marks the block's ends. Equality is
   decidable for all three (`Stmt.beq_iff`, `Block.beq_iff`, `Loop.beq_iff`). -/
namespace LoopLowering

/-- How the ends of a block are marked. -/
inductive Delimiters where
  | doEnd
  | bare
  deriving DecidableEq, Repr

namespace Delimiters

def openWord? : Delimiters → Option Keyword
  | .doEnd => some .do
  | .bare => none

def closeWord? : Delimiters → Option Keyword
  | .doEnd => some .end
  | .bare => none

end Delimiters

/-- A declaration of local variables; a name without a value starts as nil. -/
structure Declaration where
  names : List Name
  values : List Expr
  deriving DecidableEq, Repr

mutual

inductive Stmt where
  | expr (e : Expr)
  | «local» (decl : Declaration)
  | assign (targets values : List Expr)
  | loop (node : Loop)
  | «do» (block : Block)
  | «if» (condition : Expr) (thenBlock : Block) (elseBlock : Option Block)
  | «break»
  | «return» (values : List Expr)

/-- A list of statements and how its ends are marked. -/
structure Block where
  delimiters : Delimiters
  statements : List Stmt

/-- A loop of the target language. A `forIn` loop draws its values from the iterator that the call
`source` returns; a `numericFor` loop without a step counts by one. -/
inductive Loop where
  | «while» (condition : Expr) (body : Block)
  | «repeat» (body : Block) (condition : Expr)
  | forIn (var : Name) (source : Call) (body : Block)
  | numericFor (var : Name) (start limit : Expr) (step : Option Expr) (body : Block)

end

/-! Blocks. -/

namespace Block

/-- The block between `do` and `end` that holds the given statements. -/
def doEnd (statements : List Stmt) : Block :=
  ⟨.doEnd, statements⟩

/-- The block without delimiters that holds the given statements. -/
def bare (statements : List Stmt) : Block :=
  ⟨.bare, statements⟩

/-- The empty block, between `do` and `end`. -/
def empty : Block := doEnd []

/-- Adds statements at the end; the delimiters stay. -/
def append (b : Block) (statements : List Stmt) : Block :=
  ⟨b.delimiters, b.statements ++ statements⟩

def push (b : Block) (s : Stmt) : Block :=
  b.append [s]

/-- The same statements between other delimiters. -/
def delimitedBy (b : Block) (d : Delimiters) : Block :=
  ⟨d, b.statements⟩

@[simp] theorem statements_append (b : Block) (ss : List Stmt) :
    (b.append ss).statements = b.statements ++ ss := rfl

@[simp] theorem delimiters_append (b : Block) (ss : List Stmt) :
    (b.append ss).delimiters = b.delimiters := rfl

@[simp] theorem statements_push (b : Block) (s : Stmt) :
    (b.push s).statements = b.statements ++ [s] := rfl

@[simp] theorem delimiters_push (b : Block) (s : Stmt) :
    (b.push s).delimiters = b.delimiters := rfl

end Block

namespace Stmt

/-- The declaration of one local variable. -/
def declare (name : Name) (value : Option Expr) : Stmt :=
  .local ⟨[name], value.toList⟩

/-- The assignment of one value to one target. -/
def set (target value : Expr) : Stmt :=
  .assign [target] [value]

def loop? : Stmt → Option Loop
  | .loop node => some node
  | _ => none

end Stmt

/-! Equality. -/

mutual

def Stmt.beq : Stmt → Stmt → Bool
  | .expr e, .expr e' => decide (e = e')
  | .local d, .local d' => decide (d = d')
  | .assign ts vs, .assign ts' vs' => decide (ts = ts') && decide (vs = vs')
  | .loop l, .loop l' => l.beq l'
  | .do b, .do b' => b.beq b'
  | .if c t none, .if c' t' none => decide (c = c') && t.beq t'
  | .if c t (some e), .if c' t' (some e') => decide (c = c') && t.beq t' && e.beq e'
  | .break, .break => true
  | .return vs, .return vs' => decide (vs = vs')
  | _, _ => false

/-- Whether two blocks are the same tree, delimiters included. -/
def Block.beq : Block → Block → Bool
  | ⟨d, ss⟩, ⟨d', ss'⟩ => decide (d = d') && Stmt.beqAll ss ss'

def Loop.beq : Loop → Loop → Bool
  | .while c b, .while c' b' => decide (c = c') && b.beq b'
  | .repeat b c, .repeat b' c' => b.beq b' && decide (c = c')
  | .forIn x s b, .forIn x' s' b' => decide (x = x') && decide (s = s') && b.beq b'
  | .numericFor x i l s b, .numericFor x' i' l' s' b' =>
    decide (x = x') && decide (i = i') && decide (l = l') && decide (s = s') && b.beq b'
  | _, _ => false

def Stmt.beqAll : List Stmt → List Stmt → Bool
  | [], [] => true
  | s :: ss, s' :: ss' => s.beq s' && Stmt.beqAll ss ss'
  | _, _ => false

end

mutual

theorem Stmt.beq_iff : (a b : Stmt) → (a.beq b = true ↔ a = b)
  | .expr _, b => by cases b <;> simp [Stmt.beq]
  | .local _, b => by cases b <;> simp [Stmt.beq]
  | .assign _ _, b => by cases b <;> simp [Stmt.beq]
  | .loop l, b => by cases b <;> simp [Stmt.beq, Loop.beq_iff l]
  | .do s, b => by cases b <;> simp [Stmt.beq, Block.beq_iff s]
  | .if _ t none, b => by
    cases b with
    | «if» _ _ e => cases e <;> simp [Stmt.beq, Block.beq_iff t]
    | _ => simp [Stmt.beq]
  | .if _ t (some e), b => by
    cases b with
    | «if» _ _ e' => cases e' <;> simp [Stmt.beq, Block.beq_iff t, Block.beq_iff e, and_assoc]
    | _ => simp [Stmt.beq]
  | .break, b => by cases b <;> simp [Stmt.beq]
  | .return _, b => by cases b <;> simp [Stmt.beq]

theorem Block.beq_iff : (a b : Block) → (a.beq b = true ↔ a = b)
  | ⟨_, ss⟩, ⟨_, ss'⟩ => by simp [Block.beq, Stmt.beqAll_iff ss ss']

theorem Loop.beq_iff : (a b : Loop) → (a.beq b = true ↔ a = b)
  | .while _ s, b => by cases b <;> simp [Loop.beq, Block.beq_iff s]
  | .repeat s _, b => by cases b <;> simp [Loop.beq, Block.beq_iff s]
  | .forIn _ _ s, b => by cases b <;> simp [Loop.beq, Block.beq_iff s, and_assoc]
  | .numericFor _ _ _ _ s, b => by cases b <;> simp [Loop.beq, Block.beq_iff s, and_assoc]

theorem Stmt.beqAll_iff : (as bs : List Stmt) → (Stmt.beqAll as bs = true ↔ as = bs)
  | [], bs => by cases bs <;> simp [Stmt.beqAll]
  | a :: as, bs => by cases bs <;> simp [Stmt.beqAll, Stmt.beq_iff a, Stmt.beqAll_iff as]

end

instance : DecidableEq Stmt :=
  fun a b => decidable_of_iff (a.beq b = true) (Stmt.beq_iff a b)

instance : DecidableEq Block :=
  fun a b => decidable_of_iff (a.beq b = true) (Block.beq_iff a b)

instance : DecidableEq Loop :=
  fun a b => decidable_of_iff (a.beq b = true) (Loop.beq_iff a b)

end LoopLowering
