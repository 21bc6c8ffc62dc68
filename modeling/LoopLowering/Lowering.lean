import LoopLowering.Loop
import LoopLowering.Source

/- Lowering source loops. Each loop of the source language becomes a statement of
   the target language.

   * `while` stays a `while`.
   * `do … while c` becomes `repeat … until not (c)`.
   * A counted `for` becomes a block that declares and initialises its variables and
     then runs a `while` whose body ends with the incrementors.
   * `foreach` becomes `for … in` over the adapter's call on the iterable.

   Only a missing part makes lowering fail (`SourceLoop.lower`). `SourceLoop.events`
   is the log of the lowering. -/
namespace LoopLowering

/-- The `while` loop of a counted loop: the body, then the incrementors. -/
def CountedLoop.whileLoop (c : CountedLoop) : Loop :=
  (Loop.newWhile c.condition).append (c.body.statements ++ c.incrementors)

/-- A counted loop as a block: the declaration and the initialisers, then the loop. -/
def CountedLoop.lower (c : CountedLoop) : Block :=
  .doEnd (c.declaration.toList.map .local ++ c.initializers ++ [.loop c.whileLoop])

/-- The target statement of a source loop; `foreach` uses the given adapter. -/
def SourceLoop.lower (adapter : Name) : SourceLoop → Except BuildError Stmt
  | .while c body => .ok (.loop ((Loop.newWhile (some c)).append body.statements))
  | .doWhile c body => do
    let node ← Loop.newRepeat (c.map Expr.negation)
    .ok (.loop (node.append body.statements))
  | .counted c => .ok (.do c.lower)
  | .foreach x e body => do
    let node ← Loop.newForIn adapter x e
    .ok (.loop (node.append body.statements))

/-! The log. -/

inductive LoweringEvent where
  | started (kind : SourceKind)
  | doWhile (body : Nat)
  | counted (declared : Bool) (hoisted body incrementors : Nat) (unconditional : Bool)
  | foreach (var adapter : Name) (body : Nat)
  deriving DecidableEq, Repr

def LoweringEvent.describe : LoweringEvent → String
  | .started kind => "TRACE lowering loop: kind=" ++ kind.name
  | .doWhile body => "DEBUG lowered do-while to repeat-until: body=" ++ toString body
  | .counted declared hoisted body incrementors unconditional =>
    "DEBUG lowered counted for: declared=" ++ toString declared ++ " hoisted=" ++ toString hoisted ++
      " body=" ++ toString body ++ " incrementors=" ++ toString incrementors ++
      " unconditional=" ++ toString unconditional
  | .foreach var adapter body =>
    "DEBUG lowered foreach: variable=" ++ var ++ " adapter=" ++ adapter ++
      " body=" ++ toString body

/-- The entry for a loop that has been lowered; a `while` has none. -/
def SourceLoop.loweredEvents (adapter : Name) : SourceLoop → List LoweringEvent
  | .while .. => []
  | .doWhile _ body => [.doWhile body.statements.length]
  | .counted c =>
    [.counted c.declaration.isSome c.initializers.length c.body.statements.length
      c.incrementors.length (c.condition.getD .alwaysTrue).isAlwaysTrue]
  | .foreach x _ body => [.foreach (x.getD "") adapter body.statements.length]

/-- The log of lowering a loop: that it started, and what became of it unless it failed. -/
def SourceLoop.events (adapter : Name) (l : SourceLoop) : List LoweringEvent :=
  .started l.kind ::
    match l.lower adapter with
    | .ok _ => l.loweredEvents adapter
    | .error _ => []

end LoopLowering
