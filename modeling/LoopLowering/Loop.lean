import LoopLowering.Stmt

/- Building loop nodes. A loop node has parts that must be there and a body whose
   delimiters its kind prescribes. The constructors start with an empty body and
   report the part that is missing; `Loop.validate` applies the same rules to a node
   whose parts are already put together. -/
namespace LoopLowering

/-- A part that a loop node cannot do without. -/
inductive LoopPart where
  | repeatCondition
  | loopVariable
  | iterable
  deriving DecidableEq, Repr

def LoopPart.describe : LoopPart → String
  | .repeatCondition => "repeat-until condition"
  | .loopVariable => "loop variable"
  | .iterable => "iterable expression"

/-- Why a loop node cannot be built: a part is missing, the condition is not one, or the call that a
`for … in` loop draws from has a number of arguments other than one. -/
inductive BuildError where
  | missingPart (part : LoopPart)
  | invalidCondition
  | argumentCount (found : Nat)
  deriving DecidableEq, Repr

namespace BuildError

/-- The part that the error is about, if it is about one. -/
def part? : BuildError → Option LoopPart
  | .missingPart p => some p
  | _ => none

def message : BuildError → String
  | .missingPart p => "missing required operand: " ++ p.describe
  | .invalidCondition => "loop condition is not boolean-valued"
  | .argumentCount n => "adapter call takes exactly one argument, found " ++ toString n

end BuildError

inductive LoopKind where
  | «while»
  | «repeat»
  | forIn
  | numericFor
  deriving DecidableEq, Repr

namespace LoopKind

def name : LoopKind → String
  | .while => "while"
  | .repeat => "repeat"
  | .forIn => "for-in"
  | .numericFor => "numeric-for"

/-- The delimiters of the bodies of such loops: `until` already ends the body of a `repeat`. -/
def delimiters : LoopKind → Delimiters
  | .repeat => .bare
  | _ => .doEnd

/-- The body of a new loop of the kind. -/
def emptyBody (k : LoopKind) : Block :=
  ⟨k.delimiters, []⟩

end LoopKind

namespace Loop

def kind : Loop → LoopKind
  | .while .. => .while
  | .repeat .. => .repeat
  | .forIn .. => .forIn
  | .numericFor .. => .numericFor

def body : Loop → Block
  | .while _ b => b
  | .repeat b _ => b
  | .forIn _ _ b => b
  | .numericFor _ _ _ _ b => b

def mapBody (f : Block → Block) : Loop → Loop
  | .while c b => .while c (f b)
  | .repeat b c => .repeat (f b) c
  | .forIn x s b => .forIn x s (f b)
  | .numericFor x i l s b => .numericFor x i l s (f b)

/-- Adds statements at the end of the body. -/
def append (l : Loop) (statements : List Stmt) : Loop :=
  l.mapBody (·.append statements)

def push (l : Loop) (s : Stmt) : Loop :=
  l.mapBody (·.push s)

@[simp] theorem kind_mapBody (f : Block → Block) (l : Loop) : (l.mapBody f).kind = l.kind := by
  cases l <;> rfl

@[simp] theorem body_mapBody (f : Block → Block) (l : Loop) : (l.mapBody f).body = f l.body := by
  cases l <;> rfl

/-- Whether the loop is a `while` loop that only its body can end. -/
def isEndless : Loop → Bool
  | .while c _ => c.isAlwaysTrue
  | _ => false

/-- The collection that a `for … in` loop runs over: the argument of its call. -/
def iterable? : Loop → Option Expr
  | .forIn _ source _ => source.arguments.head?
  | _ => none

/-! Constructors. -/

/-- A name that is there: neither left out nor empty. -/
def requireName : Option Name → Except BuildError Name
  | some x => if x.isAbsent then .error (.missingPart .loopVariable) else .ok x
  | none => .error (.missingPart .loopVariable)

/-- A `while` loop; without a condition it runs for ever. -/
def newWhile (condition : Option Expr) : Loop :=
  .while (condition.getD .alwaysTrue) LoopKind.while.emptyBody

/-- A `repeat` loop; it needs a condition. -/
def newRepeat (condition : Option Expr) : Except BuildError Loop :=
  match condition with
  | some c => .ok (.repeat LoopKind.repeat.emptyBody c)
  | none => .error (.missingPart .repeatCondition)

/-- A `for … in` loop over `adapter(iterable)`; it needs a variable, then an iterable. -/
def newForIn (adapter : Name) (var : Option Name) (iterable : Option Expr) :
    Except BuildError Loop := do
  let x ← requireName var
  match iterable with
  | some e => .ok (.forIn x ⟨.ident adapter, [e]⟩ LoopKind.forIn.emptyBody)
  | none => .error (.missingPart .iterable)

/-- A numeric `for` loop; it needs a variable. -/
def newNumericFor (var : Option Name) (start limit : Expr) (step : Option Expr) :
    Except BuildError Loop := do
  let x ← requireName var
  .ok (.numericFor x start limit step LoopKind.numericFor.emptyBody)

/-! Validation. -/

/-- The loop with the delimiters of its kind around its body. -/
def normalised (l : Loop) : Loop :=
  l.mapBody (·.delimitedBy l.kind.delimiters)

/-- Checks a loop node and gives its body the delimiters of its kind. A loop over values needs a
variable; a `for … in` loop draws from a call with exactly one argument. -/
def validate (l : Loop) : Except BuildError Loop :=
  match l with
  | .forIn x source _ =>
    if x.isAbsent then .error (.missingPart .loopVariable)
    else match source.arguments with
      | [] => .error (.missingPart .iterable)
      | [_] => .ok l.normalised
      | arguments => .error (.argumentCount arguments.length)
  | .numericFor x .. =>
    if x.isAbsent then .error (.missingPart .loopVariable) else .ok l.normalised
  | _ => .ok l.normalised

end Loop

end LoopLowering
