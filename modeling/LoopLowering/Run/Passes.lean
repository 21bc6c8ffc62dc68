import LoopLowering.Run.Exec
import LoopLowering.Word

/- Passes of a loop. All loops run the same way: a test says whether a pass begins,
   the pass counts against the loop's budget, and its end says how the loop goes on.
   `runPasses` is that scheme; it ends because each pass uses up a part of the
   budget. -/
namespace LoopLowering

/-- How a statement ends when it does not fail. -/
inductive Flow where
  | normal
  | broke
  | returned (values : List Value)
  deriving DecidableEq, Repr

/-- How a pass of a loop ends: the loop goes on from another point, it stops, or the program
returns. -/
inductive PassEnd (β : Type) where
  | again (next : β)
  | stop
  | returned (values : List Value)

/-- The end of a pass whose body ended in the given way; after a normal end the loop goes on as
`next` says. -/
def Flow.passEnd (next : Exec (PassEnd β)) : Flow → Exec (PassEnd β)
  | .normal => next
  | .broke => pure .stop
  | .returned vs => pure (.returned vs)

/-- Records that a loop has ended after a number of passes. -/
def finishLoop (kind : LoopKind) (passes : Nat) : Exec Flow := do
  Exec.log (.finished kind passes)
  pure .normal

/-- Runs a loop from the point `b` with `left` passes of its budget `limit` left. `begins` says whether
a pass begins, and with what, and `pass` runs one. A pass that begins when none is left is an error. -/
def runPasses (limit : Nat) (kind : LoopKind) (begins : β → Exec (Option α))
    (pass : α → Exec (PassEnd β)) (left : Nat) (b : β) : Exec Flow := fun s =>
  match begins b s with
  | .error e s => .error e s
  | .ok none s => finishLoop kind (limit - left) s
  | .ok (some a) s =>
    match left with
    | 0 => .error (.iterationLimit limit) s
    | left + 1 =>
      match pass a s with
      | .error e s => .error e s
      | .ok (.again b) s => runPasses limit kind begins pass left b s
      | .ok .stop s => finishLoop kind (limit - left) s
      | .ok (.returned vs) s => .ok (.returned vs) s

/-- Runs a `while` loop: the condition is tested before each pass, outside the scope of the body. -/
def whileLoop (limit : Nat) (condition : Exec Value) (body : Exec Flow) : Exec Flow :=
  runPasses limit .while
    (fun () => do return if (← condition).truthy then some () else none)
    (fun () => do (← Exec.inScope body).passEnd (pure (.again ())))
    limit ()

/-- Runs a `repeat` loop: the condition is tested after each pass, inside the scope of the body. -/
def repeatLoop (limit : Nat) (body : Exec Flow) (condition : Exec Value) : Exec Flow :=
  runPasses limit .repeat
    (fun () => pure (some ()))
    (fun () => Exec.inScope do
      (← body).passEnd do return if (← condition).truthy then .stop else .again ())
    limit ()

/-- Runs a `for … in` loop over an iterator. The loop ends at the end of the iterator and at nil. -/
def forInLoop (limit : Nat) (x : Name) (source : Exec Value) (body : Exec Flow) : Exec Flow := do
  match ← source with
  | .iter id =>
    runPasses limit .forIn
      (fun () => return (← Exec.nextValue id).filter (· ≠ .nil))
      (fun v => do
        (← Exec.inScope do Exec.modifyEnv (·.declare x v); body).passEnd (pure (.again ())))
      limit ()
  | v => throw (.notIterable v.type)

/-- Whether a numeric `for` that stands at `current` runs a pass. -/
def inBounds (limit step current : Int64) : Bool :=
  (decide (0 < step) && decide (current ≤ limit)) || (decide (step < 0) && decide (limit ≤ current))

/-- Runs a numeric `for` loop from its bounds. A step past the range of integers ends the loop. -/
def numericLoop (budget : Nat) (x : Name) (start limit step : Int64) (body : Exec Flow) :
    Exec Flow :=
  runPasses budget .numericFor
    (fun current => pure (if inBounds limit step current then some current else none))
    (fun current => do
      (← Exec.inScope do Exec.modifyEnv (·.declare x (.int current)); body).passEnd
        (pure ((toWord? (current.toInt + step.toInt)).elim .stop .again)))
    budget start

end LoopLowering
