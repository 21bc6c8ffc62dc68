import LoopLowering.Run.Env
import LoopLowering.Run.Heap
import LoopLowering.Loop

/- Computations of a running program. A computation (`Exec`) reads and changes the
   program's state and may fail; what it did to the state before it failed stays
   done. The state has the variables, the heap, the lines printed so far and the log
   of the loops. -/
namespace LoopLowering

/-- What the log of loops records: that a loop begins, and that it ends normally or by `break` after a
number of passes. -/
inductive LoopEvent where
  | entered (kind : LoopKind)
  | finished (kind : LoopKind) (passes : Nat)
  deriving DecidableEq, Repr

/-- What a loop of the kind is called when it ends. -/
def LoopKind.title : LoopKind → String
  | .while => "while loop"
  | .repeat => "repeat loop"
  | .forIn => "for-in loop"
  | .numericFor => "numeric for loop"

def LoopEvent.describe : LoopEvent → String
  | .entered k => "DEBUG entering loop: kind=" ++ k.name
  | .finished k n => "DEBUG " ++ k.title ++ " finished: passes=" ++ toString n

/-- The state of a running program. -/
structure State where
  env : Env := {}
  heap : Heap := {}
  output : Array String := #[]
  events : Array LoopEvent := #[]
  deriving DecidableEq, Repr

/-- A computation of a running program. -/
abbrev Exec := EStateM RunError State

namespace Exec

/-- The computation with a result that is known, or its error. -/
def ofExcept : Except RunError α → Exec α
  | .ok a => pure a
  | .error e => throw e

def lookup (x : Name) : Exec Value := do
  match (← get).env.lookup x with
  | some v => pure v
  | none => throw (.undefinedVariable x)

theorem lookup_apply (x : Name) (s : State) :
    lookup x s = (s.env.lookup x).elim (.error (.undefinedVariable x) s) (.ok · s) := by
  show (match s.env.lookup x with
    | some v => pure v
    | none => throw (.undefinedVariable x) : Exec Value) s = _
  cases s.env.lookup x <;> rfl

def modifyEnv (f : Env → Env) : Exec Unit :=
  modify fun s => { s with env := f s.env }

def newTable (values : List Value) : Exec Value :=
  modifyGet fun s =>
    let (id, heap) := s.heap.newTable values
    (.table id, { s with heap := heap })

def newIterator (it : Iterator) : Exec Value :=
  modifyGet fun s =>
    let (id, heap) := s.heap.newIterator it
    (.iter id, { s with heap := heap })

def setElement (id : TableId) (index : Int64) (v : Value) : Exec Unit := do
  if ((← get).heap.table id).accepts index then
    modify fun s => { s with heap := s.heap.put id index v }
  else throw (.indexOutOfBounds index)

/-- A write to a table changes the heap as `Heap.set` says, or fails and changes nothing. -/
theorem setElement_apply (id : TableId) (index : Int64) (v : Value) (s : State) :
    setElement id index v s =
      match s.heap.set id index v with
      | .ok heap => .ok () { s with heap := heap }
      | .error e => .error e s := by
  show (if (s.heap.table id).accepts index then
      modify fun s => { s with heap := s.heap.put id index v }
    else throw (.indexOutOfBounds index) : Exec Unit) s = _
  unfold Heap.set
  cases (s.heap.table id).accepts index <;> rfl

/-- Takes the next value from an iterator. -/
def nextValue (id : IterId) : Exec (Option Value) :=
  modifyGet fun s =>
    let (v, heap) := s.heap.next id
    (v, { s with heap := heap })

def print (line : String) : Exec Unit :=
  modify fun s => { s with output := s.output.push line }

def log (event : LoopEvent) : Exec Unit :=
  modify fun s => { s with events := s.events.push event }

/-- Runs a computation in a scope of its own, which is closed however the computation ends. -/
def inScope (x : Exec α) : Exec α := fun s =>
  match x { s with env := s.env.openScope } with
  | .ok a s' => .ok a { s' with env := s'.env.closeScope }
  | .error e s' => .error e { s' with env := s'.env.closeScope }

end Exec

end LoopLowering
