import LoopLowering.Proofs.SourceLoops

/- Clauses and the variables of the body. A lowered loop resolves the incrementors
   of a counted loop, and the condition of `do … while`, in the scope of the body. A
   body that is put into a block of its own (`Block.nested`) keeps its variables to
   itself, so the clauses are resolved in the scope of the loop, as the source
   language wants it (`nested_counted_alike`, `nested_doWhile_alike`).

   The two agree when the body declares no name that the clause uses
   (`CountedLoop.keepsClauses`, `DoWhile.keepsClauses`). They can differ otherwise:
   for every name there are loops whose body declares it and captures the clause
   (`fallingFlag_captured`, `doWhile_flag_captured`). -/
namespace LoopLowering

/-- The block whose only statement is the block itself. -/
def Block.nested (b : Block) : Block :=
  .doEnd [.do (.doEnd b.statements)]

/-- The loop with its body in a block of its own. -/
def SourceLoop.nestBody : SourceLoop → SourceLoop
  | .while c b => .while c b.nested
  | .doWhile c b => .doWhile c b.nested
  | .counted c => .counted { c with body := c.body.nested }
  | .foreach x e b => .foreach x e b.nested

theorem Alike.symm {α : Type} {r r' : EStateM.Result RunError State α}
    (h : Alike State.Same r r') : Alike State.Same r' r := by
  cases h with
  | ok h => exact .ok h.symm
  | error h => exact .error h.symm

theorem Alike.trans {α : Type} {r r' r'' : EStateM.Result RunError State α}
    (h : Alike State.Same r r') (h' : Alike State.Same r' r'') : Alike State.Same r r'' := by
  cases h with
  | ok h =>
    cases h' with
    | ok h' => exact .ok (h.trans h')
  | error h =>
    cases h' with
    | error h' => exact .error (h.trans h')

/-! ## A block of its own -/

/-- A further scope around a body cannot be observed. -/
theorem Block.nested_alike (limit : Nat) (b : Block) {s t : State} (hst : s.Same t) :
    Alike State.Same (Exec.inScope (Stmt.execAll limit b.nested.statements) s)
      (Exec.inScope (Stmt.execAll limit b.statements) t) := by
  have hcov : (parallel (Ground.covered AnyName)).States 0 s.opened t := by
    have hglobals : s.env.globals = t.env.globals := congrArg Env.globals hst.env
    have hscopes : Scope.empty :: s.env.scopes = Scope.empty :: t.env.scopes := by rw [hst.env]
    exact ⟨⟨hglobals, .ground ⟨.empty, hscopes, fun _ _ => rfl⟩⟩, hst.heap, hst.output, trivial⟩
  rw [Exec.inScope_apply]
  refine Alike.closing_uncovered (N := AnyName) ?_
  show Alike _ (Stmt.execAll limit [.do (.doEnd b.statements)] s.opened) _
  rw [Stmt.execAll_singleton, Stmt.exec, Block.doEnd, Block.exec]
  exact Exec.inScope_simulates (Stmt.execAll_simulates limit 0 _ fun _ _ => trivial) _ _ hcov

/-- A block of its own declares nothing in the scope around it. -/
theorem Block.nested_free (b : Block) (used : List Name) :
    ∀ x ∈ Stmt.declaresAll b.nested.statements, x ∉ used := by
  have hnone : Stmt.declaresAll b.nested.statements = [] := by
    simp [Block.nested, Block.doEnd, Stmt.declaresAll, Stmt.declares]
  rw [hnone]
  exact fun _ hx => absurd hx List.not_mem_nil

/-- A counted loop with its body in a block of its own is lowered to a loop that runs as the counted
loop does. -/
theorem nested_counted_alike (limit : Nat) (c : CountedLoop) (s : State) :
    Alike State.Same ((Stmt.do { c with body := c.body.nested : CountedLoop }.lower).exec limit s)
      (c.run limit s) := by
  refine c.run_alike limit (fun s t hst => ?_) s
  have hpass := countedPass_alike limit { c with body := c.body.nested } (c.body.nested_free _) hst
  have hbody := c.body.nested_alike limit (State.Same.refl t)
  refine hpass.trans (Alike.bind hbody (fun _ _ h => h) ?_)
  intro flow s t hst
  cases flow with
  | normal =>
    exact (Exec.inScope_simulates (Stmt.execAll_simulates limit 0 _ fun _ _ => trivial)).same s t hst
  | broke => exact .ok hst
  | returned vs => exact .ok hst

/-- A `do … while` with its body in a block of its own is lowered to a loop that runs as the source
loop does. -/
theorem nested_doWhile_alike (limit : Nat) (condition : Expr) (body : Block) (s : State) :
    Alike State.Same
      ((Stmt.loop (.repeat (.bare body.nested.statements) condition.negation)).exec limit s)
      (DoWhile.run limit condition body s) := by
  refine DoWhile.run_alike limit condition body (fun s t hst => ?_) s
  have hpass := doWhilePass_alike limit condition body.nested (body.nested_free _) hst
  have hbody := body.nested_alike limit (State.Same.refl t)
  refine hpass.trans (Alike.bind hbody (fun _ _ h => h) ?_)
  intro flow s t hst
  cases flow with
  | normal =>
    exact Alike.bind (condition.eval_same s t hst) (fun _ _ h => h) fun _ _ _ hst => .ok hst
  | broke => exact .ok hst
  | returned vs => exact .ok hst

/-! ## Captured clauses -/

/-- A body in a block of its own cannot be observed: lowered with and without that block, the loop
gives the same result or error and leaves the same variables, heap and output, from any state under
any limit. -/
def SourceLoop.KeepsClauses (l : SourceLoop) : Prop :=
  ∀ (adapter : Name) (limit : Nat) (s : State), ∃ t u,
    l.lower adapter = .ok t ∧ l.nestBody.lower adapter = .ok u ∧
      observe (t.exec limit s) = observe (u.exec limit s)

theorem CountedLoop.keepsClauses (c : CountedLoop)
    (hfree : ∀ x ∈ Stmt.declaresAll c.body.statements, x ∉ Stmt.usesAll c.incrementors) :
    (SourceLoop.counted c).KeepsClauses := by
  intro adapter limit s
  have hplain := c.run_alike limit (fun _ _ hst => countedPass_alike limit c hfree hst) s
  exact ⟨_, _, rfl, rfl, (hplain.trans (nested_counted_alike limit c s).symm).observe_eq⟩

theorem DoWhile.keepsClauses (condition : Expr) (body : Block)
    (hfree : ∀ x ∈ Stmt.declaresAll body.statements, x ∉ condition.lookups) :
    (SourceLoop.doWhile (some condition) body).KeepsClauses := by
  intro adapter limit s
  have hplain := DoWhile.run_alike limit condition body
    (fun _ _ hst => doWhilePass_alike limit condition body hfree hst) s
  exact ⟨_, _, rfl, rfl,
    (hplain.trans (nested_doWhile_alike limit condition body s).symm).observe_eq⟩

theorem Stmt.exec_local_nil (limit : Nat) (x : Name) (s : State) :
    (Stmt.local ⟨[x], []⟩).exec limit s = .ok .normal { s with env := s.env.declare x .nil } := by
  rw [Stmt.exec]
  rfl

theorem Stmt.exec_set_bool (limit : Nat) (x : Name) (b : Bool) (s : State) :
    (Stmt.set (.ident x) (.bool b)).exec limit s =
      .ok .normal { s with env := s.env.assign x (.bool b) } := by
  rw [Stmt.set, Stmt.exec]
  rfl

/-- A declaration in a scope of its own leaves nothing. -/
theorem inScope_local (limit : Nat) (x : Name) (s : State) :
    Exec.inScope (Stmt.execAll limit [.local ⟨[x], []⟩]) s = .ok .normal s := by
  rw [Stmt.execAll_singleton, Exec.inScope_apply, Exec.closing, Stmt.exec_local_nil]
  rfl

/-- An assignment to a variable that is declared before it in the same scope leaves nothing. -/
theorem inScope_local_set (limit : Nat) (x : Name) (b : Bool) (s : State) :
    Exec.inScope (Stmt.execAll limit [.local ⟨[x], []⟩, .set (.ident x) (.bool b)]) s =
      .ok .normal s := by
  have hrun : Stmt.execAll limit [.local ⟨[x], []⟩, .set (.ident x) (.bool b)] s.opened =
      .ok .normal { s with env := (s.env.openScope.declare x .nil).assign x (.bool b) } := by
    rw [Stmt.execAll, Exec.bind_ok (Stmt.exec_local_nil limit x s.opened)]
    exact (congrFun (Stmt.execAll_singleton limit _) _).trans (Stmt.exec_set_bool limit x b _)
  have henv : ((s.env.openScope.declare x .nil).assign x (.bool b)).closeScope = s.env := by
    simp [Env.openScope, Env.declare, Env.assign, Env.assignIn, Env.closeScope]
  rw [Exec.inScope_apply, Exec.closing, hrun]
  show EStateM.Result.ok Flow.normal { s with env := Env.closeScope _ } = _
  rw [henv]

theorem Env.assign_openScope (env : Env) (x : Name) (v : Value) :
    (env.openScope.assign x v).closeScope = env.assign x v := by
  have hopen : Env.assignIn x v env.openScope.scopes =
      (Env.assignIn x v env.scopes).map (.empty :: ·) := rfl
  unfold Env.assign
  rw [hopen]
  cases Env.assignIn x v env.scopes with
  | none => rfl
  | some scopes => rfl

/-- An assignment in a scope of its own is seen outside of it. -/
theorem inScope_set (limit : Nat) (x : Name) (b : Bool) (s : State) :
    Exec.inScope (Stmt.execAll limit [.set (.ident x) (.bool b)]) s =
      .ok .normal { s with env := s.env.assign x (.bool b) } := by
  rw [Stmt.execAll_singleton, Exec.inScope_apply, Exec.closing, Stmt.exec_set_bool]
  show EStateM.Result.ok Flow.normal { s with env := Env.closeScope _ } = _
  rw [← s.env.assign_openScope]
  rfl

/-- The loop `for (; x; x = false) { local x }`. -/
def fallingFlag (x : Name) : CountedLoop where
  condition := some (.ident x)
  body := .doEnd [.local ⟨[x], []⟩]
  incrementors := [.set (.ident x) (.bool false)]

/-- The loop `for (; x;) { local x; x = false }`. -/
def shadowedFlag (x : Name) : CountedLoop where
  condition := some (.ident x)
  body := .doEnd [.local ⟨[x], []⟩, .set (.ident x) (.bool false)]

/-- The state in which `x` is true and nothing else is known. -/
def raised (x : Name) : State where
  env := { globals := ⟨[(x, .bool true)], by simp⟩ }

theorem test_flag {c : CountedLoop} {x : Name} {b : Bool} {s : State}
    (hc : c.condition = some (.ident x)) (h : s.env.lookup x = some (.bool b)) :
    c.test s = .ok b s := by
  rw [CountedLoop.test, hc]
  exact Exec.bind_ok (Expr.eval_ident h)

/-- The assignment to the body's own variable does not end the loop. -/
theorem shadowedFlag_passes (limit : Nat) {x : Name} {s : State}
    (h : s.env.lookup x = some (.bool true)) (left : Nat) :
    (shadowedFlag x).passes limit left s = .error (.iterationLimit limit) s := by
  have htest : (shadowedFlag x).test s = .ok true s := test_flag rfl h
  have hpass : (shadowedFlag x).pass limit s = .ok .normal s := by
    refine (Exec.bind_ok (inScope_local_set limit x false s)).trans ?_
    show Exec.inScope (Stmt.execAll limit []) s = _
    rw [Stmt.execAll]
    rfl
  induction left with
  | zero => exact Exec.bind_ok htest
  | succ left ih =>
    refine (Exec.bind_ok htest).trans ?_
    exact (Exec.bind_ok hpass).trans ih

/-- The assignment of the incrementor ends the loop after one pass. -/
theorem fallingFlag_passes (limit : Nat) {x : Name} {s : State}
    (h : s.env.lookup x = some (.bool true)) (left : Nat) :
    (fallingFlag x).passes limit (left + 1) s =
      .ok .normal { s with env := s.env.assign x (.bool false) } := by
  have htest : (fallingFlag x).test s = .ok true s := test_flag rfl h
  have hpass : (fallingFlag x).pass limit s =
      .ok .normal { s with env := s.env.assign x (.bool false) } := by
    refine (Exec.bind_ok (inScope_local limit x s)).trans ?_
    exact inScope_set limit x false s
  have hlast : (fallingFlag x).test { s with env := s.env.assign x (.bool false) } =
      .ok false { s with env := s.env.assign x (.bool false) } :=
    test_flag rfl (by rw [Env.lookup_assign, if_pos rfl])
  refine (Exec.bind_ok htest).trans ?_
  refine (Exec.bind_ok hpass).trans ?_
  cases left with
  | zero => exact Exec.bind_ok hlast
  | succ left => exact Exec.bind_ok hlast

theorem CountedLoop.run_eq_passes (limit : Nat) {c : CountedLoop} (hd : c.declaration = none)
    (hi : c.initializers = []) : c.run limit = Exec.inScope (c.passes limit limit) := by
  rw [CountedLoop.run, CountedLoop.declare, hd, hi]
  show Exec.inScope (pure () >>= _) = _
  rw [pure_bind, Stmt.execAll, pure_bind]

/-- The incrementor of `fallingFlag` assigns to the body's variable, so the lowered loop does not end;
with the body in a block of its own it does. -/
theorem fallingFlag_captured (x : Name) : ¬ (SourceLoop.counted (fallingFlag x)).KeepsClauses := by
  intro hkeeps
  obtain ⟨t, u, ht, hu, hobs⟩ := hkeeps "" 1 (raised x)
  cases ht
  cases hu
  have hraised : (raised x).opened.env.lookup x = some (.bool true) := by
    simp [raised, State.opened, Env.openScope, Env.lookup, Env.lookupIn, Scope.get?, Scope.empty]
  -- the lowered loop is also that of a loop whose body makes the assignment
  have hplain := (shadowedFlag x).run_alike 1
    (fun _ _ hst => countedPass_alike 1 (shadowedFlag x) (fun _ _ => List.not_mem_nil) hst) (raised x)
  have hnested := nested_counted_alike 1 (fallingFlag x) (raised x)
  have hruns := (hplain.observe_eq.symm.trans hobs).trans hnested.observe_eq
  rw [CountedLoop.run_eq_passes 1 rfl rfl, CountedLoop.run_eq_passes 1 rfl rfl, Exec.inScope_apply,
    Exec.inScope_apply, Exec.closing, Exec.closing, shadowedFlag_passes 1 hraised 1,
    fallingFlag_passes 1 hraised 0] at hruns
  cases congrArg Prod.fst hruns

/-- A pass of `repeat local x until not x` ends the loop. -/
theorem repeatPass_local (limit : Nat) (x : Name) (s : State) :
    Exec.inScope (do
      (← Stmt.execAll limit [.local ⟨[x], []⟩]).passEnd do
        return if (← (Expr.ident x).negation.eval).truthy then .stop else .again ()) s =
      .ok (.stop : PassEnd Unit) s := by
  have hbody : Stmt.execAll limit [.local ⟨[x], []⟩] s.opened =
      .ok .normal { s with env := s.env.openScope.declare x .nil } :=
    (congrFun (Stmt.execAll_singleton limit _) _).trans (Stmt.exec_local_nil limit x s.opened)
  have hcond : (Expr.ident x).eval { s with env := s.env.openScope.declare x .nil } =
      .ok .nil { s with env := s.env.openScope.declare x .nil } :=
    Expr.eval_ident (by rw [Env.lookup_declare, if_pos rfl])
  rw [Exec.inScope_apply, Exec.closing, Exec.bind_ok hbody, Flow.passEnd, Expr.eval_negation,
    bind_assoc, Exec.bind_ok hcond]
  rfl

/-- The passes of `do local x while (x)` do not end. -/
theorem doWhile_flag_passes (limit : Nat) {x : Name} {s : State}
    (h : s.env.lookup x = some (.bool true)) (left : Nat) :
    DoWhile.passes limit (.ident x) (.doEnd [.local ⟨[x], []⟩]) left s =
      .error (.iterationLimit limit) s := by
  have hpass : DoWhile.pass limit (.ident x) (.doEnd [.local ⟨[x], []⟩]) s = .ok (.again ()) s := by
    refine (Exec.bind_ok (inScope_local limit x s)).trans ?_
    exact Exec.bind_ok (Expr.eval_ident h)
  induction left with
  | zero => rfl
  | succ left ih => exact (Exec.bind_ok hpass).trans ih

/-- The condition of `do local x while (x)` is that of the body's variable, so the lowered loop ends;
with the body in a block of its own it does not. -/
theorem doWhile_flag_captured (x : Name) :
    ¬ (SourceLoop.doWhile (some (.ident x)) (.doEnd [.local ⟨[x], []⟩])).KeepsClauses := by
  intro hkeeps
  obtain ⟨t, u, ht, hu, hobs⟩ := hkeeps "" 1 (raised x)
  cases ht
  cases hu
  have hraised : (raised x).env.lookup x = some (.bool true) := by
    simp [raised, Env.lookup, Env.lookupIn, Scope.get?]
  have hplain : (observe ((Stmt.loop (.repeat (.bare [.local ⟨[x], []⟩])
      (Expr.ident x).negation)).exec 1 (raised x))).1 = .ok .normal := by
    have hlog (event : LoopEvent) :
        Exec.log event (raised x) = .ok () { raised x with events := #[event] } := rfl
    rw [Stmt.exec, Block.bare, Loop.exec, repeatLoop, runPasses_succ, pure_bind,
      Exec.bind_ok (hlog _)]
    exact congrArg (fun r => (observe r).1) (Exec.bind_ok (repeatPass_local 1 x _))
  have hnested := nested_doWhile_alike 1 (.ident x) (.doEnd [.local ⟨[x], []⟩]) (raised x)
  have hruns := (congrArg Prod.fst (hobs.trans hnested.observe_eq)).symm.trans hplain
  rw [DoWhile.run, doWhile_flag_passes 1 hraised 1] at hruns
  cases hruns

/-- **When clauses are captured.** Let bodies declare names among `declared`, and clauses use names
among `used`. If no name is in both, then no clause of a counted loop and no condition of
`do … while` is captured: a body in a block of its own cannot be observed. If a name is in both, then
there are loops of both forms for which it can. -/
theorem clauses_uncaptured_iff (declared used : List Name) :
    ((∀ c : CountedLoop, Stmt.declaresAll c.body.statements ⊆ declared →
        Stmt.usesAll c.incrementors ⊆ used → (SourceLoop.counted c).KeepsClauses) ↔
      ∀ x ∈ declared, x ∉ used) ∧
    ((∀ (condition : Expr) (body : Block), Stmt.declaresAll body.statements ⊆ declared →
        condition.lookups ⊆ used → (SourceLoop.doWhile (some condition) body).KeepsClauses) ↔
      ∀ x ∈ declared, x ∉ used) := by
  constructor
  · constructor
    · intro hkeeps x hdeclared hused
      refine fallingFlag_captured x (hkeeps _ ?_ ?_)
      · exact List.cons_subset.mpr ⟨hdeclared, List.nil_subset _⟩
      · exact List.cons_subset.mpr ⟨hused, List.nil_subset _⟩
    · intro hdisjoint c hdeclared hused
      exact c.keepsClauses fun x hx hx' => hdisjoint x (hdeclared hx) (hused hx')
  · constructor
    · intro hkeeps x hdeclared hused
      refine doWhile_flag_captured x (hkeeps _ _ ?_ ?_)
      · exact List.cons_subset.mpr ⟨hdeclared, List.nil_subset _⟩
      · exact List.cons_subset.mpr ⟨hused, List.nil_subset _⟩
    · intro hdisjoint condition body hdeclared hused
      exact DoWhile.keepsClauses condition body fun x hx hx' => hdisjoint x (hdeclared hx) (hused hx')

/-- The loop `for (local i = 0; i < 3; i = i + 1) { local i = 10; print(i) }`. -/
def shadowedCounter : CountedLoop where
  declaration := some ⟨["i"], [.int 0]⟩
  condition := some (.binary .lt (.ident "i") (.int 3))
  body := .doEnd [
    .local ⟨["i"], [.int 10]⟩,
    .expr (.call (.ident "print") [.ident "i"])]
  incrementors := [.set (.ident "i") (.binary .add (.ident "i") (.int 1))]

/-- The lowered loop of `shadowedCounter` increments the body's variable: it prints `10` until the
limit stops it. With the body in a block of its own it prints `10` three times. -/
theorem counter_captured :
    ∃ t u, (SourceLoop.counted shadowedCounter).lower Name.defaultAdapter = .ok t ∧
      (SourceLoop.counted shadowedCounter).nestBody.lower Name.defaultAdapter = .ok u ∧
      observe (t.exec 5 ({} : RunConfig).initial) ≠ observe (u.exec 5 ({} : RunConfig).initial) := by
  refine ⟨.do shadowedCounter.lower, .do { shadowedCounter with
    body := shadowedCounter.body.nested }.lower, rfl, rfl, fun hobs => ?_⟩
  -- the outputs differ
  have hout := congrArg (fun o => o.2.2.2) hobs
  revert hout
  decide +kernel

end LoopLowering
