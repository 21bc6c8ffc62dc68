import LoopLowering.Run.Expr
import LoopLowering.Run.Passes
import LoopLowering.Stmt

/- Running statements. Statements run one after the other until one of them does not
   end normally. A block, and each pass of a loop, has a scope of its own. Every
   loop may run a limited number of passes each time it is run, so every program
   ends. -/
namespace LoopLowering

/-- Writes a value to an assignment's target: a variable, a dotted name or an element of a table. -/
def Expr.assign (target : Expr) (v : Value) : Exec Unit :=
  match target with
  | .index t k => do
    let table ← t.eval
    let key ← k.eval
    match table, key with
    | .table id, .int i => Exec.setElement id i v
    | .table _, key => throw (.notIndexable key.type)
    | other, _ => throw (.notIndexable other.type)
  | target =>
    match target.qualifiedName? with
    | some x => Exec.modifyEnv (·.assign x v)
    | none => throw .invalidAssignmentTarget

/-- Writes values to targets, from left to right; a target without a value becomes nil. -/
def Expr.assignAll : List Expr → List Value → Exec Unit
  | [], _ => pure ()
  | t :: ts, vs => do
    t.assign (vs.head?.getD .nil)
    Expr.assignAll ts vs.tail

/-- Declares local variables; their values are computed first. -/
def Declaration.exec (d : Declaration) : Exec Unit := do
  let vs ← Expr.evalAll d.values
  Exec.modifyEnv (·.declareAll d.names vs)

/-- The value of a bound of a numeric `for`, which must be an integer. -/
def Bound.eval (bound : Bound) (e : Expr) : Exec Int64 := do
  match ← e.eval with
  | .int n => pure n
  | v => throw (.nonNumericBound bound v.type)

/-- The bounds of a numeric `for`: the initial value, the limit and the step, which is one when it is
left out and must not be zero. -/
def evalBounds (start limit : Expr) (step : Option Expr) : Exec (Int64 × Int64 × Int64) := do
  let a ← Bound.initial.eval start
  let b ← Bound.limit.eval limit
  let s ← step.elim (pure 1) Bound.step.eval
  if s = 0 then throw .zeroStep else pure (a, b, s)

mutual

/-- Runs a statement; each loop in it may run at most `limit` passes at a time. -/
def Stmt.exec (limit : Nat) : Stmt → Exec Flow
  | .expr e => do
    discard e.eval
    pure .normal
  | .local d => do
    d.exec
    pure .normal
  | .assign ts vs => do
    let values ← Expr.evalAll vs
    Expr.assignAll ts values
    pure .normal
  | .loop l => do
    Exec.log (.entered l.kind)
    l.exec limit
  | .do b => b.exec limit
  | .if c t none => do
    if (← c.eval).truthy then t.exec limit else pure .normal
  | .if c t (some e) => do
    if (← c.eval).truthy then t.exec limit else e.exec limit
  | .break => pure .broke
  | .return vs => do
    let values ← Expr.evalAll vs
    pure (.returned values)

/-- Runs the statements of a block in a scope of their own. -/
def Block.exec (limit : Nat) : Block → Exec Flow
  | ⟨_, ss⟩ => Exec.inScope (Stmt.execAll limit ss)

def Loop.exec (limit : Nat) : Loop → Exec Flow
  | .while c ⟨_, ss⟩ => whileLoop limit c.eval (Stmt.execAll limit ss)
  | .repeat ⟨_, ss⟩ c => repeatLoop limit (Stmt.execAll limit ss) c.eval
  | .forIn x source ⟨_, ss⟩ => forInLoop limit x source.eval (Stmt.execAll limit ss)
  | .numericFor x i l s ⟨_, ss⟩ => do
    let (start, last, step) ← evalBounds i l s
    numericLoop limit x start last step (Stmt.execAll limit ss)

/-- Runs statements until one does not end normally. -/
def Stmt.execAll (limit : Nat) : List Stmt → Exec Flow
  | [] => pure .normal
  | s :: ss => do
    match ← s.exec limit with
    | .normal => Stmt.execAll limit ss
    | flow => pure flow

end

end LoopLowering
