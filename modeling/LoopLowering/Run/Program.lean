import LoopLowering.Run.Stmt

/- Running programs. A program runs in a state that has the function `print` and an
   adapter that makes iterators. Its result is the list of values that it returns. -/
namespace LoopLowering

/-- The choices of running a program: how many passes a loop may run, and the name of the adapter. -/
structure RunConfig where
  passLimit : Nat := 1000000
  adapter : Name := Name.defaultAdapter
  deriving DecidableEq, Repr

def RunConfig.initial (config : RunConfig) : State :=
  { env := (({} : Env).bindGlobal "print" (.builtin .print)).bindGlobal config.adapter (.builtin .each) }

/-- Runs the statements of a block as a program and gives the values that it returns. -/
def Block.runProgram (limit : Nat) (b : Block) : Exec (List Value) := do
  match ← b.exec limit with
  | .normal => pure []
  | .broke => throw .breakOutsideLoop
  | .returned vs => pure vs

/-- Runs a program from the start: its result, or its error, with the state it ends in. -/
def RunConfig.run (config : RunConfig) (b : Block) : EStateM.Result RunError State (List Value) :=
  b.runProgram config.passLimit config.initial

end LoopLowering
