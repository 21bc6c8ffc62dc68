import LoopLowering.Run.Stmt

/- How computations move the state. `Moves P x` says that the computation `x`,
   from every state and however it ends, ends in a state to which `P` relates the
   one it started in. When `P` can be chained (`Chains`), the computations that
   move along it are closed under sequencing and under the passes of a loop, so a
   fact about all runs follows from what single operations do to the state.

   `Expr.eval_grows` is the fact about expressions: an expression writes to no
   variable, no table and no iterator that is there; it may add tables, iterators
   and lines of output. -/
namespace LoopLowering

/-! ## One pass of a loop -/

section Passes

variable {α β : Type} (limit : Nat) (kind : LoopKind) (begins : β → Exec (Option α))
  (pass : α → Exec (PassEnd β))

/-- Without passes left, a pass that begins is an error. -/
theorem runPasses_zero (b : β) :
    runPasses limit kind begins pass 0 b = (do
      match ← begins b with
      | none => finishLoop kind limit
      | some _ => throw (.iterationLimit limit)) := by
  funext s
  show _ = EStateM.bind (begins b) _ s
  unfold runPasses EStateM.bind
  cases begins b s with
  | error e t => rfl
  | ok test t => cases test <;> rfl

/-- With passes left, a pass that begins is run, and its end says how the loop goes on. -/
theorem runPasses_succ (left : Nat) (b : β) :
    runPasses limit kind begins pass (left + 1) b = (do
      match ← begins b with
      | none => finishLoop kind (limit - (left + 1))
      | some a =>
        match ← pass a with
        | .again next => runPasses limit kind begins pass left next
        | .stop => finishLoop kind (limit - left)
        | .returned vs => pure (.returned vs)) := by
  funext s
  rw [runPasses]
  show _ = EStateM.bind (begins b) _ s
  unfold EStateM.bind
  cases begins b s with
  | error e t => rfl
  | ok test t =>
    cases test with
    | none => rfl
    | some a =>
      show _ = EStateM.bind (pass a) _ t
      unfold EStateM.bind
      dsimp only
      cases pass a t with
      | error e u => rfl
      | ok ended u => cases ended <;> rfl

end Passes

/-- What follows a computation that ends with a result is run from the state that it leaves. -/
theorem Exec.bind_ok {α β : Type} {x : Exec α} {f : α → Exec β} {a : α} {s t : State}
    (h : x s = .ok a t) : (x >>= f) s = f a t := by
  show EStateM.bind x f s = f a t
  rw [EStateM.bind, h]

theorem Exec.bind_eq_ok_iff {α β : Type} {x : Exec α} {f : α → Exec β} {b : β} {s t : State} :
    (x >>= f) s = .ok b t ↔ ∃ a u, x s = .ok a u ∧ f a u = .ok b t := by
  constructor
  · intro h
    cases hr : x s with
    | ok a u =>
      rw [Exec.bind_ok hr] at h
      exact ⟨a, u, rfl, h⟩
    | error e u =>
      change EStateM.bind x f s = _ at h
      rw [EStateM.bind, hr] at h
      cases h
  · rintro ⟨a, u, hx, hf⟩
    rw [Exec.bind_ok hx, hf]

theorem Exec.ofExcept_eq_ok_iff {α : Type} {r : Except RunError α} {a : α} {s t : State} :
    Exec.ofExcept r s = .ok a t ↔ r = .ok a ∧ s = t := by
  cases r with
  | ok b =>
    constructor
    · intro h
      cases h
      exact ⟨rfl, rfl⟩
    · rintro ⟨⟨⟩, rfl⟩
      rfl
  | error e =>
    constructor
    · intro h
      cases h
    · rintro ⟨⟨⟩, -⟩

theorem Expr.eval_ident {x : Name} {v : Value} {s : State} (h : s.env.lookup x = some v) :
    (Expr.ident x).eval s = .ok v s := by
  rw [Expr.eval, Exec.lookup_apply, h]
  rfl

/-- An operator that its left operand does not decide is applied to the values of both. -/
theorem Expr.eval_binary {op : BinaryOp} {l r : Expr} {a b : Value} {s t u : State}
    (hl : l.eval s = .ok a t) (hr : r.eval t = .ok b u) (hboth : op.decidedBy a = false) :
    (Expr.binary op l r).eval s = Exec.ofExcept (op.apply a b) u := by
  rw [Expr.eval, Exec.bind_ok hl, hboth]
  show (r.eval >>= fun y => Exec.ofExcept (op.apply a y)) t = _
  rw [Exec.bind_ok hr]

/-! ## Moving along a relation -/

/-- The state that a run ends in, with a result or with an error. -/
def endState {α : Type} : EStateM.Result RunError State α → State
  | .ok _ s => s
  | .error _ s => s

/-- A relation between an earlier and a later state along which steps can be chained. -/
class Chains (P : State → State → Prop) : Prop where
  refl (s : State) : P s s
  trans {s t u : State} : P s t → P t u → P s u

/-- Every run of the computation ends in a state that `P` relates to its start. -/
def Moves {α : Type} (P : State → State → Prop) (x : Exec α) : Prop :=
  ∀ s, P s (endState (x s))

namespace Moves

variable {P Q : State → State → Prop} {α β : Type}

theorem mono {x : Exec α} (hx : Moves P x) (h : ∀ s t, P s t → Q s t) : Moves Q x :=
  fun s => h _ _ (hx s)

theorem modify {f : State → State} (hf : ∀ s, P s (f s)) : Moves P (modify f : Exec PUnit) :=
  fun s => hf s

theorem modifyGet {f : State → α × State} (hf : ∀ s, P s (f s).2) :
    Moves P (modifyGet f : Exec α) :=
  fun s => hf s

variable [Chains P]

theorem pure (a : α) : Moves P (pure a : Exec α) :=
  fun s => Chains.refl s

theorem throw (e : RunError) : Moves P (throw e : Exec α) :=
  fun s => Chains.refl s

theorem get : Moves P (get : Exec State) :=
  fun s => Chains.refl s

theorem bind {x : Exec α} {f : α → Exec β} (hx : Moves P x) (hf : ∀ a, Moves P (f a)) :
    Moves P (x >>= f) := by
  intro s
  have hs := hx s
  show P s (endState (EStateM.bind x f s))
  unfold EStateM.bind
  cases hr : x s with
  | ok a t => rw [hr] at hs; exact Chains.trans hs (hf a t)
  -- what follows is not run, and the state is the one the first part left
  | error e t => rw [hr] at hs; exact hs

theorem ofExcept (r : Except RunError α) : Moves P (Exec.ofExcept r) := by
  cases r with
  | ok a => exact pure a
  | error e => exact throw e

theorem passEnd {next : Exec (PassEnd β)} (hn : Moves P next) (flow : Flow) :
    Moves P (flow.passEnd next) := by
  cases flow with
  | normal => exact hn
  | broke => exact pure _
  | returned vs => exact pure _

theorem runPasses (hl : ∀ event, Moves P (Exec.log event)) {limit : Nat}
    {kind : LoopKind} {begins : β → Exec (Option α)} {pass : α → Exec (PassEnd β)}
    (hb : ∀ b, Moves P (begins b)) (hp : ∀ a, Moves P (pass a)) (left : Nat) (b : β) :
    Moves P (runPasses limit kind begins pass left b) := by
  have hfin : ∀ passes, Moves P (finishLoop kind passes) :=
    fun passes => bind (hl _) fun _ => pure _
  induction left generalizing b with
  | zero =>
    rw [runPasses_zero]
    refine bind (hb b) fun test => ?_
    cases test with
    | none => exact hfin _
    | some a => exact throw _
  | succ left ih =>
    rw [runPasses_succ]
    refine bind (hb b) fun test => ?_
    cases test with
    | none => exact hfin _
    | some a =>
      refine bind (hp a) fun ended => ?_
      cases ended with
      | again next => exact ih next
      | stop => exact hfin _
      | returned vs => exact pure _

end Moves

/-! ## Expressions -/

/-- What evaluation may do to a state: add tables, iterators and lines of output. -/
structure State.Grows (s t : State) : Prop where
  env : t.env = s.env
  tables : s.heap.tables.toList <+: t.heap.tables.toList
  iterators : s.heap.iterators.toList <+: t.heap.iterators.toList
  output : s.output.toList <+: t.output.toList
  events : t.events = s.events

instance State.grows_chains : Chains State.Grows where
  refl _ := ⟨rfl, List.prefix_rfl, List.prefix_rfl, List.prefix_rfl, rfl⟩
  trans h₁ h₂ :=
    ⟨h₂.env.trans h₁.env, h₁.tables.trans h₂.tables, h₁.iterators.trans h₂.iterators,
      h₁.output.trans h₂.output, h₂.events.trans h₁.events⟩

theorem Exec.lookup_grows (x : Name) : Moves State.Grows (Exec.lookup x) := by
  refine Moves.bind Moves.get fun s => ?_
  split
  · exact Moves.pure _
  · exact Moves.throw _

theorem Exec.newTable_grows (vs : List Value) : Moves State.Grows (Exec.newTable vs) :=
  Moves.modifyGet fun _ =>
    ⟨rfl, by simp [Heap.newTable], List.prefix_rfl, List.prefix_rfl, rfl⟩

theorem Exec.newIterator_grows (it : Iterator) : Moves State.Grows (Exec.newIterator it) :=
  Moves.modifyGet fun _ =>
    ⟨rfl, List.prefix_rfl, by simp [Heap.newIterator], List.prefix_rfl, rfl⟩

theorem Exec.print_grows (line : String) : Moves State.Grows (Exec.print line) :=
  Moves.modify fun _ => ⟨rfl, List.prefix_rfl, List.prefix_rfl, by simp, rfl⟩

theorem iterate_grows (v : Value) : Moves State.Grows (iterate v) := by
  cases v with
  | table t => exact Exec.newIterator_grows _
  | str s => exact Exec.newIterator_grows _
  | iter id => exact Moves.pure _
  | nil | bool _ | int _ | builtin _ => exact Moves.throw _

theorem callValue_grows (f : Value) (vs : List Value) : Moves State.Grows (callValue f vs) := by
  cases f with
  | builtin b =>
    cases b with
    | print =>
      exact Moves.bind (Exec.print_grows _) fun _ => Moves.pure _
    | each => exact iterate_grows _
  | nil | bool _ | int _ | str _ | table _ | iter _ => exact Moves.throw _

mutual

/-- Evaluating an expression leaves all variables, tables and iterators as they are. -/
theorem Expr.eval_grows : (e : Expr) → Moves State.Grows e.eval
  | .nil | .bool _ | .int _ | .str _ => Moves.pure _
  | .ident x => Exec.lookup_grows x
  | .member t x => by
    rw [Expr.eval]
    split
    · exact Exec.lookup_grows _
    · exact Moves.bind t.eval_grows fun _ => Moves.throw _
  | .index t k => by
    rw [Expr.eval]
    refine Moves.bind t.eval_grows fun v => ?_
    refine Moves.bind k.eval_grows fun i => ?_
    exact Moves.bind Moves.get fun _ => Moves.ofExcept _
  | .call c as => by
    rw [Expr.eval]
    refine Moves.bind c.eval_grows fun f => ?_
    exact Moves.bind (Expr.evalAll_grows as) fun vs => callValue_grows f vs
  | .binary op l r => by
    rw [Expr.eval]
    refine Moves.bind l.eval_grows fun a => ?_
    split
    · exact Moves.pure _
    · exact Moves.bind r.eval_grows fun _ => Moves.ofExcept _
  | .unary op e => by
    rw [Expr.eval]
    refine Moves.bind e.eval_grows fun v => ?_
    exact Moves.bind Moves.get fun _ => Moves.ofExcept _
  | .paren e => by rw [Expr.eval]; exact e.eval_grows
  | .table es => by
    rw [Expr.eval]
    exact Moves.bind (Expr.evalAll_grows es) Exec.newTable_grows

theorem Expr.evalAll_grows : (es : List Expr) → Moves State.Grows (Expr.evalAll es)
  | [] => Moves.pure _
  | e :: es => by
    rw [Expr.evalAll]
    refine Moves.bind e.eval_grows fun v => ?_
    exact Moves.bind (Expr.evalAll_grows es) fun _ => Moves.pure _

end

end LoopLowering
