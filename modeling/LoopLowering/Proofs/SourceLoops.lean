import LoopLowering.Lowering
import LoopLowering.Run.Program
import LoopLowering.Proofs.Stacks

/- What source loops mean. `CountedLoop.run` and `DoWhile.run` run a loop of the
   source language by its own rules. A pass runs the body in a scope of its own; the
   loop's clauses are resolved in the scope of the loop, where the body's variables
   cannot be seen.

   The lowered loops keep a clause next to the body, in the body's scope: the
   incrementors follow the body, and `until` tests its condition before the scope is
   closed. Where the clause uses no name that the body declares, this cannot be
   observed (`countedPass_alike`, `doWhilePass_alike`), and a loop whose passes end
   like those of the source loop runs as it does (`CountedLoop.run_alike`,
   `DoWhile.run_alike`).

   Loops of the source language write no log. Runs are compared by `observe`: the
   result or the error, the variables, the heap and the output. -/
namespace LoopLowering

/-! ## The source loops -/

namespace CountedLoop

variable (limit : Nat) (c : CountedLoop)

/-- Whether a further pass is wanted; a loop without a condition always wants one. -/
def test : Exec Bool :=
  match c.condition with
  | some e => do return (← e.eval).truthy
  | none => pure true

/-- One pass: the body in a scope of its own and, if it ended normally, the incrementors in
another. -/
def pass : Exec Flow := do
  match ← Exec.inScope (Stmt.execAll limit c.body.statements) with
  | .normal => Exec.inScope (Stmt.execAll limit c.incrementors)
  | flow => pure flow

/-- Tests and passes in turn, with `left` passes of the limit left. -/
def passes : Nat → Exec Flow
  | 0 => do
    if ← c.test then throw (.iterationLimit limit) else pure .normal
  | left + 1 => do
    if ← c.test then
      match ← c.pass limit with
      | .normal => passes left
      | .broke => pure .normal
      | .returned vs => pure (.returned vs)
    else pure .normal

/-- The declaration, which declares nothing when it is left out. -/
def declare : Exec Unit :=
  match c.declaration with
  | some d => d.exec
  | none => pure ()

/-- The whole loop: in one scope the declaration and the initialisers once, then the passes. -/
def run : Exec Flow := Exec.inScope do
  c.declare
  match ← Stmt.execAll limit c.initializers with
  | .normal => c.passes limit limit
  | flow => pure flow

end CountedLoop

/-- One pass of `do body while (condition)`: the body in a scope of its own and, if it ended normally,
the condition outside of that scope. -/
def DoWhile.pass (limit : Nat) (condition : Expr) (body : Block) : Exec (PassEnd Unit) := do
  match ← Exec.inScope (Stmt.execAll limit body.statements) with
  | .normal => do return if (← condition.eval).truthy then .again () else .stop
  | .broke => pure .stop
  | .returned vs => pure (.returned vs)

/-- Passes of `do body while (condition)`, with `left` passes of the limit left. -/
def DoWhile.passes (limit : Nat) (condition : Expr) (body : Block) : Nat → Exec Flow
  | 0 => throw (.iterationLimit limit)
  | left + 1 => do
    match ← DoWhile.pass limit condition body with
    | .again () => passes limit condition body left
    | .stop => pure .normal
    | .returned vs => pure (.returned vs)

def DoWhile.run (limit : Nat) (condition : Expr) (body : Block) : Exec Flow :=
  DoWhile.passes limit condition body limit

/-! ## Observations -/

/-- What can be observed of a run: its result or its error, the variables, the heap and the output. -/
def observe {α : Type} :
    EStateM.Result RunError State α → Except RunError α × Env × Heap × Array String
  | .ok a s => (.ok a, s.env, s.heap, s.output)
  | .error e s => (.error e, s.env, s.heap, s.output)

/-- States that are the same but for their logs. -/
structure State.Same (s t : State) : Prop where
  env : s.env = t.env
  heap : s.heap = t.heap
  output : s.output = t.output

namespace State.Same

theorem refl (s : State) : s.Same s :=
  ⟨rfl, rfl, rfl⟩

theorem symm {s t : State} (h : s.Same t) : t.Same s :=
  ⟨h.env.symm, h.heap.symm, h.output.symm⟩

theorem trans {s t u : State} (h : s.Same t) (h' : t.Same u) : s.Same u :=
  ⟨h.env.trans h'.env, h.heap.trans h'.heap, h.output.trans h'.output⟩

end State.Same

theorem Alike.observe_eq {α : Type} {r r' : EStateM.Result RunError State α}
    (h : Alike State.Same r r') : observe r = observe r' := by
  cases h with
  | ok h => simp only [observe, h.env, h.heap, h.output]
  | error h => simp only [observe, h.env, h.heap, h.output]

abbrev AnyName (_ : Name) : Prop := True

theorem State.Same.states {N : Name → Prop} {s t : State} (h : s.Same t) :
    (parallel (Ground.same N)).States 0 s t :=
  ⟨⟨congrArg Env.globals h.env, .ground (congrArg Env.scopes h.env)⟩, h.heap, h.output, trivial⟩

theorem Coupling.States.same {N : Name → Prop} {s t : State}
    (h : (parallel (Ground.same N)).States 0 s t) : s.Same t := by
  obtain ⟨⟨hg, hs⟩, hh, ho, -⟩ := h
  obtain ⟨⟨g, ss⟩, heap, output, events⟩ := s
  obtain ⟨⟨g', ss'⟩, heap', output', events'⟩ := t
  cases hs with
  | ground hs => exact ⟨by rw [show g = g' from hg, show ss = ss' from hs], hh, ho⟩

theorem Simulates.same {α : Type} {x y : Exec α}
    (h : Simulates ((parallel (Ground.same AnyName)).States 0) x y) : Simulates State.Same x y :=
  fun s t hst => (h s t hst.states).mono fun _ _ h => h.same

/-- Expressions and blocks do not read the log. -/
theorem Expr.eval_same (e : Expr) : Simulates State.Same e.eval e.eval :=
  (e.eval_simulates 0 fun _ _ => trivial).same

/-! ## Scopes that are closed sooner or later -/

namespace State

def opened (s : State) : State := { s with env := s.env.openScope }

def closed (s : State) : State := { s with env := s.env.closeScope }

end State

/-- Runs a computation in the innermost scope, which is closed at its end. -/
def Exec.closing {α : Type} (x : Exec α) : Exec α := fun s =>
  match x s with
  | .ok a t => .ok a t.closed
  | .error e t => .error e t.closed

theorem Exec.inScope_apply {α : Type} (x : Exec α) (s : State) :
    Exec.inScope x s = Exec.closing x s.opened := by
  unfold Exec.inScope Exec.closing State.opened
  cases x _ <;> rfl

/-- Compares a scope that stays open over a sequence with one that is closed after its first part.
The first parts end alike in the open scopes; what follows on the left is run before the scope is
closed and on the right after. -/
theorem Alike.inScope_bind {α β : Type} {P Q : State → State → Prop} {x y : Exec α}
    {f g : α → Exec β} {s t : State} (hxy : Alike P (x s.opened) (y t.opened))
    (hclose : ∀ s t, P s t → Q s.closed t.closed)
    (hfg : ∀ a u v, x s.opened = .ok a u → P u v →
      Alike Q (Exec.closing (f a) u) (g a v.closed)) :
    Alike Q (Exec.inScope (x >>= f) s) ((Exec.inScope y >>= g) t) := by
  rw [Exec.inScope_apply]
  show Alike Q (match EStateM.bind x f s.opened with
    | .ok a t => .ok a t.closed
    | .error e t => .error e t.closed) (EStateM.bind (Exec.inScope y) g t)
  unfold EStateM.bind
  rw [Exec.inScope_apply]
  unfold Exec.closing
  generalize hr : x s.opened = r at hxy hfg
  generalize y t.opened = r' at hxy
  cases hxy with
  | ok h => exact hfg _ _ _ rfl h
  | error h => exact .error (hclose _ _ h)

theorem Coupling.States.closed_same {N : Name → Prop} {s t : State}
    (h : (parallel (Ground.same N)).States 1 s t) : s.closed.Same t.closed :=
  Coupling.States.same ⟨(parallel (Ground.same N)).closeScope h.env, h.heap, h.output, trivial⟩

theorem Alike.closing_same {α : Type} {N : Name → Prop} {x y : Exec α} {s t : State}
    (h : Alike ((parallel (Ground.same N)).States 1) (x s) (y t)) :
    Alike State.Same (Exec.closing x s) (Exec.closing y t) := by
  unfold Exec.closing
  generalize x s = r, y t = r' at h
  cases h with
  | ok h => exact .ok h.closed_same
  | error h => exact .error h.closed_same

/-- After statements that were run in a scope of their own, the innermost scope binds names that they
declare and no other. -/
theorem Stmt.execAll_binds {limit : Nat} {ss : List Stmt} {s u : State} {flow : Flow}
    (h : Stmt.execAll limit ss s.opened = .ok flow u) :
    ∃ inner rest, u.env.scopes = inner :: rest ∧
      ∀ x, x ∉ Stmt.declaresAll ss → inner.get? x = none := by
  have hx := (Stmt.execAll_extends limit ss s.opened).scopes
  rw [h] at hx
  change ScopesExtended _ (.empty :: s.env.scopes) u.env.scopes at hx
  generalize u.env.scopes = scopes at hx
  cases hx with
  | inner hnew hsub _ =>
    refine ⟨_, _, rfl, fun x hx => ?_⟩
    rw [Scope.get?_eq_none_iff, hnew]
    exact fun hmem => hx (hsub hmem)

/-- After a body that was run in a scope of its own, on the left that scope still open and on the
right a new one: the two agree on all names that the body does not declare. -/
theorem Coupling.States.reopened {N M : Name → Prop} {s t : State} {inner : Scope}
    {rest : List Scope} (h : (parallel (Ground.same N)).States 1 s t)
    (hs : s.env.scopes = inner :: rest) (hM : ∀ x, M x → inner.get? x = none) :
    (parallel (Ground.same M)).States 1 s t.closed.opened := by
  obtain ⟨⟨hg, hst⟩, hh, ho, -⟩ := h
  refine ⟨⟨hg, ?_⟩, hh, ho, trivial⟩
  rw [hs] at hst ⊢
  show StacksAgree _ 1 (inner :: rest) (.empty :: t.env.scopes.tail)
  generalize t.env.scopes = scopes at hst
  cases hst with
  | scope _ hst =>
    cases hst with
    | ground hst => exact .scope (fun x hx => hM x hx) (.ground hst)

/-- After a body that was run in a scope of its own, on the left that scope still open and on the
right closed: the left one has a further scope that binds no name but those that the body declares. -/
theorem Coupling.States.covered {N M : Name → Prop} {s t : State} {inner : Scope}
    {rest : List Scope} (h : (parallel (Ground.same N)).States 1 s t)
    (hs : s.env.scopes = inner :: rest) (hM : ∀ x, M x → inner.get? x = none) :
    (parallel (Ground.covered M)).States 0 s t.closed := by
  obtain ⟨⟨hg, hst⟩, hh, ho, -⟩ := h
  refine ⟨⟨hg, .ground ?_⟩, hh, ho, trivial⟩
  rw [hs] at hst ⊢
  show ∃ cover, inner :: rest = cover :: t.env.scopes.tail ∧ _
  generalize t.env.scopes = scopes at hst
  cases hst with
  | scope _ hst =>
    cases hst with
    | ground hst => exact ⟨inner, by rw [show rest = _ from hst]; rfl, hM⟩

theorem Coupling.States.uncovered {N : Name → Prop} {s t : State}
    (h : (parallel (Ground.covered N)).States 0 s t) : s.closed.Same t := by
  obtain ⟨⟨hg, hst⟩, hh, ho, -⟩ := h
  obtain ⟨⟨g, ss⟩, heap, output, events⟩ := s
  obtain ⟨⟨g', ss'⟩, heap', output', events'⟩ := t
  cases hst with
  | ground hst =>
    obtain ⟨cover, hss, -⟩ := hst
    refine ⟨?_, hh, ho⟩
    show Env.mk g ss.tail = Env.mk g' ss'
    rw [show ss = cover :: ss' from hss, show g = g' from hg]
    rfl

theorem Alike.closing_uncovered {α : Type} {N : Name → Prop} {x y : Exec α} {s t : State}
    (h : Alike ((parallel (Ground.covered N)).States 0) (x s) (y t)) :
    Alike State.Same (Exec.closing x s) (y t) := by
  unfold Exec.closing
  generalize x s = r, y t = r' at h
  cases h with
  | ok h => exact .ok h.uncovered
  | error h => exact .error h.uncovered

/-! ## Counted loops -/

theorem Stmt.execAll_append (limit : Nat) (ss ss' : List Stmt) :
    Stmt.execAll limit (ss ++ ss') = (do
      match ← Stmt.execAll limit ss with
      | .normal => Stmt.execAll limit ss'
      | flow => pure flow) := by
  induction ss with
  | nil => rw [List.nil_append, Stmt.execAll, pure_bind]
  | cons s ss ih =>
    rw [List.cons_append, Stmt.execAll, Stmt.execAll, bind_assoc, ih]
    congr 1
    funext flow
    cases flow with
    | normal => rfl
    | broke => exact (pure_bind _ _).symm
    | returned vs => exact (pure_bind _ _).symm

theorem Stmt.execAll_singleton (limit : Nat) (s : Stmt) :
    Stmt.execAll limit [s] = s.exec limit := by
  rw [Stmt.execAll]
  conv => rhs; rw [← bind_pure (s.exec limit)]
  congr 1
  funext flow
  cases flow <;> rfl

theorem Stmt.execAll_opened (limit : Nat) (ss : List Stmt) {s t : State} (h : s.Same t) :
    Alike ((parallel (Ground.same AnyName)).States 1) (Stmt.execAll limit ss s.opened)
      (Stmt.execAll limit ss t.opened) := by
  have hst := h.states (N := AnyName)
  exact Stmt.execAll_simulates limit 0 ss (fun _ _ => trivial) _ _
    ⟨(parallel _).openScope hst.env, hst.heap, hst.output, trivial⟩

/-- **One pass of a counted loop.** The body followed by the incrementors in one scope ends like the
body and the incrementors in a scope each, when the incrementors use no name that the body
declares. -/
theorem countedPass_alike (limit : Nat) (c : CountedLoop)
    (hfree : ∀ x ∈ Stmt.declaresAll c.body.statements, x ∉ Stmt.usesAll c.incrementors)
    {s t : State} (hst : s.Same t) :
    Alike State.Same
      (Exec.inScope (Stmt.execAll limit (c.body.statements ++ c.incrementors)) s)
      (c.pass limit t) := by
  rw [Stmt.execAll_append]
  refine Alike.inScope_bind (Stmt.execAll_opened limit _ hst) (fun _ _ h => h.closed_same) ?_
  intro flow u v hu huv
  cases flow with
  | normal =>
    obtain ⟨inner, rest, hscopes, hbinds⟩ := Stmt.execAll_binds hu
    -- on the left the body's scope is still open; on the right a new one is in its place
    have hre := huv.reopened (M := (· ∉ Stmt.declaresAll c.body.statements)) hscopes hbinds
    show Alike _ (Exec.closing _ u) (Exec.inScope _ v.closed)
    rw [Exec.inScope_apply]
    refine (Stmt.execAll_simulates limit 0 c.incrementors (fun x hx hd => ?_) _ _ hre).closing_same
    exact hfree x hd hx
  | broke => exact .ok huv.closed_same
  | returned vs => exact .ok huv.closed_same

theorem finishLoop_alike (kind : LoopKind) (passes : Nat) {s t : State} (h : s.Same t) :
    Alike State.Same (finishLoop kind passes s) ((pure .normal : Exec Flow) t) :=
  .ok ⟨h.env, h.heap, h.output⟩

theorem CountedLoop.test_bind {β : Type} (c : CountedLoop) (f : Bool → Exec β) :
    (c.test >>= f) = ((c.condition.getD .alwaysTrue).eval >>= fun v => f v.truthy) := by
  unfold CountedLoop.test
  cases c.condition with
  | none => rfl
  | some e => rw [bind_assoc]; rfl

/-- A `while` loop whose body ends like a pass of the counted loop runs the passes of the counted
loop. -/
theorem CountedLoop.passes_alike (limit : Nat) (c : CountedLoop) {body : Exec Flow}
    (hpass : ∀ s t : State, s.Same t → Alike State.Same (Exec.inScope body s) (c.pass limit t))
    (left : Nat) {s t : State} (hst : s.Same t) :
    Alike State.Same
      (runPasses limit .while
        (fun () => do return if (← (c.condition.getD .alwaysTrue).eval).truthy then some () else none)
        (fun () => do (← Exec.inScope body).passEnd (pure (.again ())))
        left () s)
      (c.passes limit left t) := by
  induction left generalizing s t with
  | zero =>
    rw [runPasses_zero, CountedLoop.passes, c.test_bind, bind_assoc]
    refine Alike.bind (Expr.eval_same _ _ _ hst) (fun _ _ h => h) fun v s t hst => ?_
    rw [pure_bind]
    cases v.truthy with
    | false => exact finishLoop_alike _ _ hst
    -- a pass is wanted and none is left
    | true => exact .error hst
  | succ left ih =>
    rw [runPasses_succ, CountedLoop.passes, c.test_bind, bind_assoc]
    refine Alike.bind (Expr.eval_same _ _ _ hst) (fun _ _ h => h) fun v s t hst => ?_
    rw [pure_bind]
    cases v.truthy with
    | false => exact finishLoop_alike _ _ hst
    | true =>
      simp only [if_true, bind_assoc]
      refine Alike.bind (hpass s t hst) (fun _ _ h => h) fun flow s t hst => ?_
      cases flow with
      | normal => exact ih hst
      | broke => exact finishLoop_alike _ _ hst
      | returned vs => exact .ok hst

theorem Alike.refl {α : Type} (r : EStateM.Result RunError State α) : Alike State.Same r r := by
  cases r with
  | ok a s => exact .ok (State.Same.refl s)
  | error e s => exact .error (State.Same.refl s)

theorem Alike.inScope {α : Type} {x y : Exec α} {s : State}
    (h : Alike State.Same (x s.opened) (y s.opened)) :
    Alike State.Same (Exec.inScope x s) (Exec.inScope y s) := by
  rw [Exec.inScope_apply, Exec.inScope_apply]
  unfold Exec.closing
  generalize x s.opened = r, y s.opened = r' at h
  cases h with
  | ok h => exact .ok ⟨congrArg Env.closeScope h.env, h.heap, h.output⟩
  | error h => exact .error ⟨congrArg Env.closeScope h.env, h.heap, h.output⟩

theorem CountedLoop.execAll_prologue (limit : Nat) (c : CountedLoop) :
    Stmt.execAll limit (c.declaration.toList.map .local ++ c.initializers) = (do
      c.declare
      Stmt.execAll limit c.initializers) := by
  unfold CountedLoop.declare
  cases c.declaration with
  | none => rw [pure_bind]; rfl
  | some d =>
    show Stmt.execAll limit (.local d :: c.initializers) = _
    rw [Stmt.execAll, Stmt.exec, bind_assoc]
    rfl

/-- The block that declares and initialises and then runs a `while` loop runs as the counted loop
does, when the body of the `while` ends like a pass of the counted loop. -/
theorem CountedLoop.run_alike (limit : Nat) (c : CountedLoop) {ss : List Stmt}
    (hpass : ∀ s t : State, s.Same t →
      Alike State.Same (Exec.inScope (Stmt.execAll limit ss) s) (c.pass limit t)) (s : State) :
    Alike State.Same
      ((Stmt.do (.doEnd (c.declaration.toList.map .local ++ c.initializers ++
        [.loop (.while (c.condition.getD .alwaysTrue) (.doEnd ss))]))).exec limit s)
      (c.run limit s) := by
  rw [Stmt.exec, Block.doEnd, Block.exec, CountedLoop.run]
  refine Alike.inScope ?_
  rw [Stmt.execAll_append, c.execAll_prologue, ← bind_assoc]
  refine Alike.bind (Alike.refl _) (fun _ _ h => h) fun flow s t hst => ?_
  cases flow with
  | normal =>
    show Alike _ (Stmt.execAll limit [_] s) (c.passes limit limit t)
    rw [Stmt.execAll_singleton, Stmt.exec, Block.doEnd, Loop.exec]
    -- the loop is entered in the log, which the source loop does not write
    exact c.passes_alike limit hpass limit ⟨hst.env, hst.heap, hst.output⟩
  | broke => exact .ok hst
  | returned vs => exact .ok hst

/-- **Lowering a counted loop keeps its meaning.** When the incrementors use no name that a
declaration of the body lists, the lowered loop, run from any state under any limit, gives the same
result or error as the counted loop and leaves the same variables, heap and output. -/
theorem counted_lowering_keeps_meaning (adapter : Name) (limit : Nat) (c : CountedLoop)
    (hfree : ∀ x ∈ Stmt.declaresAll c.body.statements, x ∉ Stmt.usesAll c.incrementors)
    (s : State) :
    ∃ t, (SourceLoop.counted c).lower adapter = .ok t ∧
      observe (t.exec limit s) = observe (c.run limit s) := by
  refine ⟨.do c.lower, rfl, ?_⟩
  have hrun := c.run_alike limit (fun _ _ hst => countedPass_alike limit c hfree hst) s
  exact hrun.observe_eq

/-- The loop `for (local i = 0; i < 3; i = i + 1)` with a body that declares `k`, prints it and breaks
when `i` is one. -/
def evenPrefix : CountedLoop where
  declaration := some ⟨["i"], [.int 0]⟩
  condition := some (.binary .lt (.ident "i") (.int 3))
  body := .doEnd [
    .local ⟨["k"], [.binary .mul (.ident "i") (.int 2)]⟩,
    .expr (.call (.ident "print") [.ident "k"]),
    .if (.binary .eq (.ident "i") (.int 1)) (.bare [.break]) none]
  incrementors := [.set (.ident "i") (.binary .add (.ident "i") (.int 1))]

theorem counted_lowering_keeps_meaning_evenPrefix :
    (∀ x ∈ Stmt.declaresAll evenPrefix.body.statements, x ∉ Stmt.usesAll evenPrefix.incrementors) ∧
    ∃ t, (SourceLoop.counted evenPrefix).lower Name.defaultAdapter = .ok t ∧
      observe (t.exec 5 ({} : RunConfig).initial) =
        observe (evenPrefix.run 5 ({} : RunConfig).initial) :=
  ⟨by decide, counted_lowering_keeps_meaning _ 5 evenPrefix (by decide) _⟩

/-! ## `do … while` -/

theorem Expr.eval_negation (e : Expr) :
    e.negation.eval = (do return .bool (!(← e.eval).truthy)) := by
  rw [Expr.negation, Expr.eval, Expr.eval]
  rfl

/-- **One pass of `do … while`.** Testing the condition before the body's scope is closed ends like
testing it after, when the condition looks up no name that the body declares. -/
theorem doWhilePass_alike (limit : Nat) (condition : Expr) (body : Block)
    (hfree : ∀ x ∈ Stmt.declaresAll body.statements, x ∉ condition.lookups)
    {s t : State} (hst : s.Same t) :
    Alike State.Same
      (Exec.inScope (do
        (← Stmt.execAll limit body.statements).passEnd do
          return if (← condition.negation.eval).truthy then .stop else .again ()) s)
      (DoWhile.pass limit condition body t) := by
  refine Alike.inScope_bind (Stmt.execAll_opened limit _ hst) (fun _ _ h => h.closed_same) ?_
  intro flow u v hu huv
  cases flow with
  | normal =>
    obtain ⟨inner, rest, hscopes, hbinds⟩ := Stmt.execAll_binds hu
    -- on the left the body's scope is still open; on the right it is closed
    have hcov := huv.covered (M := (· ∉ Stmt.declaresAll body.statements)) hscopes hbinds
    refine Alike.closing_uncovered (N := (· ∉ Stmt.declaresAll body.statements)) ?_
    show Alike _ ((_ >>= _ : Exec (PassEnd Unit)) u) ((_ >>= _ : Exec (PassEnd Unit)) v.closed)
    rw [condition.eval_negation, bind_assoc]
    have hlook : ∀ x ∈ condition.lookups, x ∉ Stmt.declaresAll body.statements :=
      fun x hx hd => hfree x hd hx
    refine Alike.bind (condition.eval_simulates 0 hlook _ _ hcov) (fun _ _ h => h) ?_
    intro w u v huv
    rw [pure_bind]
    cases hw : w.truthy <;> exact .ok huv
  | broke => exact .ok huv.closed_same
  | returned vs => exact .ok huv.closed_same

/-- A `repeat` loop whose passes end like those of `do … while` runs as that loop does. -/
theorem DoWhile.passes_alike (limit : Nat) (condition : Expr) (body : Block)
    {pass : Unit → Exec (PassEnd Unit)}
    (hpass : ∀ s t : State, s.Same t →
      Alike State.Same (pass () s) (DoWhile.pass limit condition body t))
    (left : Nat) {s t : State} (hst : s.Same t) :
    Alike State.Same (runPasses limit .repeat (fun () => pure (some ())) pass left () s)
      (DoWhile.passes limit condition body left t) := by
  induction left generalizing s t with
  | zero =>
    rw [runPasses_zero, pure_bind, DoWhile.passes]
    exact .error hst
  | succ left ih =>
    rw [runPasses_succ, pure_bind, DoWhile.passes]
    refine Alike.bind (hpass s t hst) (fun _ _ h => h) ?_
    intro ended s t hst
    cases ended with
    | again => exact ih hst
    | stop => exact finishLoop_alike _ _ hst
    | returned vs => exact .ok hst

theorem DoWhile.run_alike (limit : Nat) (condition : Expr) (body : Block) {ss : List Stmt}
    (hpass : ∀ s t : State, s.Same t →
      Alike State.Same
        (Exec.inScope (do
          (← Stmt.execAll limit ss).passEnd do
            return if (← condition.negation.eval).truthy then .stop else .again ()) s)
        (DoWhile.pass limit condition body t)) (s : State) :
    Alike State.Same ((Stmt.loop (.repeat (.bare ss) condition.negation)).exec limit s)
      (DoWhile.run limit condition body s) := by
  rw [Stmt.exec, Block.bare, Loop.exec, DoWhile.run]
  exact DoWhile.passes_alike limit condition body hpass limit ⟨rfl, rfl, rfl⟩

/-- **Lowering `do … while` keeps its meaning.** When the condition looks up no name that a declaration
of the body lists, the lowered loop, run from any state under any limit, gives the same result or error
as the source loop and leaves the same variables, heap and output. -/
theorem doWhile_lowering_keeps_meaning (adapter : Name) (limit : Nat) (condition : Expr) (body : Block)
    (hfree : ∀ x ∈ Stmt.declaresAll body.statements, x ∉ condition.lookups) (s : State) :
    ∃ t, (SourceLoop.doWhile (some condition) body).lower adapter = .ok t ∧
      observe (t.exec limit s) = observe (DoWhile.run limit condition body s) := by
  refine ⟨.loop (.repeat (.bare body.statements) condition.negation), rfl, ?_⟩
  have hrun := DoWhile.run_alike limit condition body
    (fun _ _ hst => doWhilePass_alike limit condition body hfree hst) s
  exact hrun.observe_eq

/-- A body that prints the double of `i`, counts it up and breaks in the third pass. -/
def doublesBody : Block := .doEnd [
  .local ⟨["k"], [.binary .mul (.ident "i") (.int 2)]⟩,
  .expr (.call (.ident "print") [.ident "k"]),
  .set (.ident "i") (.binary .add (.ident "i") (.int 1)),
  .if (.binary .eq (.ident "k") (.int 4)) (.bare [.break]) none]

/-- A condition whose value is `i` itself below ten, and false from there on. -/
def belowTen : Expr :=
  .binary .and (.binary .lt (.ident "i") (.int 10)) (.ident "i")

theorem doWhile_lowering_keeps_meaning_doublesBody :
    let s : State := { env := ({} : RunConfig).initial.env.bindGlobal "i" (.int 0) }
    (∀ x ∈ Stmt.declaresAll doublesBody.statements, x ∉ belowTen.lookups) ∧
    ∃ t, (SourceLoop.doWhile (some belowTen) doublesBody).lower Name.defaultAdapter = .ok t ∧
      observe (t.exec 5 s) = observe (DoWhile.run 5 belowTen doublesBody s) :=
  ⟨by decide, doWhile_lowering_keeps_meaning _ 5 belowTen doublesBody (by decide) _⟩

end LoopLowering
