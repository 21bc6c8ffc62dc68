import LoopLowering.Proofs.Moves
import LoopLowering.Proofs.Uses

/- Runs from related states. `Simulates P x y` says that `x` and `y`, run from
   states that `P` relates, end alike: with the same result or the same error, in
   states that `P` relates again. Such pairs of computations are closed under
   sequencing and under the passes of a loop.

   A `Coupling N` is a relation between environments, one for each number of scopes
   opened since the runs started, that lookups and writes of names in `N`,
   declarations and the opening and closing of scopes respect. `Stmt.exec_simulates`
   lifts it to programs: a program that uses names in `N` only behaves the same in
   coupled environments. The log is not read by a program; a coupling says how far
   the two logs agree. -/
namespace LoopLowering

/-- Two runs end with the same result or the same error, in states that `P` relates. -/
inductive Alike {α : Type} (P : State → State → Prop) :
    EStateM.Result RunError State α → EStateM.Result RunError State α → Prop where
  | ok {a : α} {s t : State} : P s t → Alike P (.ok a s) (.ok a t)
  | error {e : RunError} {s t : State} : P s t → Alike P (.error e s) (.error e t)

/-- From states that `P` relates the two computations end alike. -/
def Simulates {α : Type} (P : State → State → Prop) (x y : Exec α) : Prop :=
  ∀ s t, P s t → Alike P (x s) (y t)

theorem Alike.mono {α : Type} {P Q : State → State → Prop} {r r' : EStateM.Result RunError State α}
    (h : Alike P r r') (hPQ : ∀ s t, P s t → Q s t) : Alike Q r r' := by
  cases h with
  | ok h => exact .ok (hPQ _ _ h)
  | error h => exact .error (hPQ _ _ h)

theorem Alike.ok_left {α : Type} {P : State → State → Prop} {a : α} {s : State}
    {r : EStateM.Result RunError State α} (h : Alike P (.ok a s) r) : ∃ t, r = .ok a t ∧ P s t := by
  cases h with
  | ok h => exact ⟨_, rfl, h⟩

theorem Alike.ok_right {α : Type} {P : State → State → Prop} {a : α} {t : State}
    {r : EStateM.Result RunError State α} (h : Alike P r (.ok a t)) : ∃ s, r = .ok a s ∧ P s t := by
  cases h with
  | ok h => exact ⟨_, rfl, h⟩

/-- Two sequences end alike when their first parts do and all that can follow them does. -/
theorem Alike.bind {α β : Type} {P Q : State → State → Prop} {x y : Exec α} {f g : α → Exec β}
    {s t : State} (h : Alike P (x s) (y t)) (hPQ : ∀ s t, P s t → Q s t)
    (hf : ∀ a s t, P s t → Alike Q (f a s) (g a t)) : Alike Q ((x >>= f) s) ((y >>= g) t) := by
  show Alike Q (EStateM.bind x f s) (EStateM.bind y g t)
  unfold EStateM.bind
  generalize x s = r, y t = r' at h
  cases h with
  | ok h => exact hf _ _ _ h
  | error h => exact .error (hPQ _ _ h)

namespace Simulates

variable {P : State → State → Prop} {α β : Type}

theorem pure (a : α) : Simulates P (pure a) (pure a) :=
  fun _ _ h => .ok h

theorem throw (e : RunError) : Simulates P (throw e : Exec α) (throw e) :=
  fun _ _ h => .error h

theorem bind {x y : Exec α} {f g : α → Exec β} (h : Simulates P x y)
    (hf : ∀ a, Simulates P (f a) (g a)) : Simulates P (x >>= f) (y >>= g) :=
  fun s t hst => Alike.bind (h s t hst) (fun _ _ h => h) fun a s t h => hf a s t h

theorem modify {f g : State → State} (h : ∀ s t, P s t → P (f s) (g t)) :
    Simulates P (modify f : Exec PUnit) (modify g) :=
  fun s t hst => .ok (h s t hst)

theorem ofExcept (r : Except RunError α) : Simulates P (Exec.ofExcept r) (Exec.ofExcept r) := by
  cases r with
  | ok a => exact pure a
  | error e => exact throw e

theorem passEnd {next next' : Exec (PassEnd β)} (h : Simulates P next next') (flow : Flow) :
    Simulates P (flow.passEnd next) (flow.passEnd next') := by
  cases flow with
  | normal => exact h
  | broke => exact pure _
  | returned vs => exact pure _

theorem runPasses (hl : ∀ event, Simulates P (Exec.log event) (Exec.log event)) {limit : Nat}
    {kind : LoopKind} {begins begins' : β → Exec (Option α)} {pass pass' : α → Exec (PassEnd β)}
    (hb : ∀ b, Simulates P (begins b) (begins' b)) (hp : ∀ a, Simulates P (pass a) (pass' a))
    (left : Nat) (b : β) :
    Simulates P (runPasses limit kind begins pass left b)
      (runPasses limit kind begins' pass' left b) := by
  have hfin : ∀ passes, Simulates P (finishLoop kind passes) (finishLoop kind passes) :=
    fun passes => bind (hl _) fun _ => pure _
  induction left generalizing b with
  | zero =>
    rw [runPasses_zero, runPasses_zero]
    refine bind (hb b) fun test => ?_
    cases test with
    | none => exact hfin _
    | some a => exact throw _
  | succ left ih =>
    rw [runPasses_succ, runPasses_succ]
    refine bind (hb b) fun test => ?_
    cases test with
    | none => exact hfin _
    | some a =>
      refine bind (hp a) fun ended => ?_
      cases ended with
      | again next => exact ih next
      | stop => exact hfin _
      | returned vs => exact pure _

end Simulates

/-! ## Couplings -/

/-- A relation between environments that a program using only names in `N` respects. `envs k` relates
them when `k` scopes have been opened; declarations are made in one of those. -/
structure Coupling (N : Name → Prop) where
  envs : Nat → Env → Env → Prop
  logs : Array LoopEvent → Array LoopEvent → Prop
  lookup {k : Nat} {e e' : Env} {x : Name} : envs k e e' → N x → e.lookup x = e'.lookup x
  assign {k : Nat} {e e' : Env} {x : Name} (v : Value) :
    envs k e e' → N x → envs k (e.assign x v) (e'.assign x v)
  declare {k : Nat} {e e' : Env} (x : Name) (v : Value) :
    envs (k + 1) e e' → envs (k + 1) (e.declare x v) (e'.declare x v)
  openScope {k : Nat} {e e' : Env} : envs k e e' → envs (k + 1) e.openScope e'.openScope
  closeScope {k : Nat} {e e' : Env} : envs (k + 1) e e' → envs k e.closeScope e'.closeScope
  log {a b : Array LoopEvent} (event : LoopEvent) :
    logs a b → logs (a.push event) (b.push event)

/-- States with coupled environments and logs, and the same heap and output. -/
structure Coupling.States {N : Name → Prop} (C : Coupling N) (k : Nat) (s t : State) : Prop where
  env : C.envs k s.env t.env
  heap : s.heap = t.heap
  output : s.output = t.output
  events : C.logs s.events t.events

/-! ## Operations -/

section Operations

variable {N : Name → Prop} {C : Coupling N} {k : Nat} {α : Type}

theorem Simulates.getHeap {f : Heap → Exec α} (h : ∀ heap, Simulates (C.States k) (f heap) (f heap)) :
    Simulates (C.States k) (do f (← get).heap) (do f (← get).heap) := by
  intro s t hst
  show Alike _ (f s.heap s) (f t.heap t)
  rw [hst.heap]
  exact h t.heap s t hst

theorem Simulates.modifyHeap (f : Heap → α × Heap) :
    Simulates (C.States k) (modifyGet fun s => ((f s.heap).1, { s with heap := (f s.heap).2 }))
      (modifyGet fun s => ((f s.heap).1, { s with heap := (f s.heap).2 })) := by
  intro s t hst
  show Alike _ (.ok (f s.heap).1 { s with heap := (f s.heap).2 })
    (.ok (f t.heap).1 { t with heap := (f t.heap).2 })
  rw [hst.heap]
  exact .ok ⟨hst.env, rfl, hst.output, hst.events⟩

theorem Simulates.modifyEnv {f : Env → Env} (h : ∀ e e', C.envs k e e' → C.envs k (f e) (f e')) :
    Simulates (C.States k) (Exec.modifyEnv f) (Exec.modifyEnv f) :=
  Simulates.modify fun s t hst => ⟨h s.env t.env hst.env, hst.heap, hst.output, hst.events⟩

theorem Exec.lookup_simulates {x : Name} (hx : N x) :
    Simulates (C.States k) (Exec.lookup x) (Exec.lookup x) := by
  intro s t hst
  rw [Exec.lookup_apply, Exec.lookup_apply, C.lookup hst.env hx]
  cases t.env.lookup x with
  | some v => exact .ok hst
  | none => exact .error hst

theorem Exec.print_simulates (line : String) :
    Simulates (C.States k) (Exec.print line) (Exec.print line) :=
  Simulates.modify fun _ _ hst =>
    ⟨hst.env, hst.heap, congrArg (Array.push · line) hst.output, hst.events⟩

theorem Exec.log_simulates (event : LoopEvent) :
    Simulates (C.States k) (Exec.log event) (Exec.log event) :=
  Simulates.modify fun _ _ hst => ⟨hst.env, hst.heap, hst.output, C.log event hst.events⟩

theorem Exec.setElement_simulates (id : TableId) (index : Int64) (v : Value) :
    Simulates (C.States k) (Exec.setElement id index v) (Exec.setElement id index v) := by
  intro s t hst
  rw [Exec.setElement_apply, Exec.setElement_apply, hst.heap]
  cases t.heap.set id index v with
  | ok heap => exact .ok ⟨hst.env, rfl, hst.output, hst.events⟩
  | error e => exact .error hst

theorem Exec.inScope_simulates {x y : Exec α} (h : Simulates (C.States (k + 1)) x y) :
    Simulates (C.States k) (Exec.inScope x) (Exec.inScope y) := by
  intro s t hst
  have hxy := h { s with env := s.env.openScope } { t with env := t.env.openScope }
    ⟨C.openScope hst.env, hst.heap, hst.output, hst.events⟩
  unfold Exec.inScope
  generalize x _ = r, y _ = r' at hxy
  cases hxy with
  | ok h => exact .ok ⟨C.closeScope h.env, h.heap, h.output, h.events⟩
  | error h => exact .error ⟨C.closeScope h.env, h.heap, h.output, h.events⟩

end Operations

/-! ## Expressions -/

section Programs

variable {N : Name → Prop} {C : Coupling N}

theorem Exec.newTable_simulates (k : Nat) (vs : List Value) :
    Simulates (C.States k) (Exec.newTable vs) (Exec.newTable vs) :=
  Simulates.modifyHeap fun heap => (Value.table (heap.newTable vs).1, (heap.newTable vs).2)

theorem Exec.newIterator_simulates (k : Nat) (it : Iterator) :
    Simulates (C.States k) (Exec.newIterator it) (Exec.newIterator it) :=
  Simulates.modifyHeap fun heap => (Value.iter (heap.newIterator it).1, (heap.newIterator it).2)

theorem Exec.nextValue_simulates (k : Nat) (id : IterId) :
    Simulates (C.States k) (Exec.nextValue id) (Exec.nextValue id) :=
  Simulates.modifyHeap fun heap => heap.next id

theorem callValue_simulates (k : Nat) (f : Value) (vs : List Value) :
    Simulates (C.States k) (callValue f vs) (callValue f vs) := by
  unfold callValue
  split
  · exact Simulates.bind (Exec.print_simulates _) fun _ => Simulates.pure _
  · unfold iterate
    split
    · exact Exec.newIterator_simulates k _
    · exact Exec.newIterator_simulates k _
    · exact Simulates.pure _
    · exact Simulates.throw _
  · exact Simulates.throw _

mutual

/-- An expression that looks up names in `N` only has the same value in coupled states. -/
theorem Expr.eval_simulates (k : Nat) : (e : Expr) → (∀ x ∈ e.lookups, N x) →
    Simulates (C.States k) e.eval e.eval
  | .nil, _ | .bool _, _ | .int _, _ | .str _, _ => Simulates.pure _
  | .ident x, h => Exec.lookup_simulates (h x List.mem_cons_self)
  | .member t x, h => by
    rw [Expr.lookups] at h
    rw [Expr.eval]
    generalize (Expr.member t x).qualifiedName? = path at h ⊢
    cases path with
    | some path => exact Exec.lookup_simulates (h path List.mem_cons_self)
    | none => exact Simulates.bind (t.eval_simulates k h) fun _ => Simulates.throw _
  | .index t j, h => by
    obtain ⟨ht, hj⟩ := List.forall_mem_append.mp h
    rw [Expr.eval]
    refine Simulates.bind (t.eval_simulates k ht) fun v => ?_
    refine Simulates.bind (j.eval_simulates k hj) fun i => ?_
    exact Simulates.getHeap fun heap => Simulates.ofExcept (indexValue heap v i)
  | .call c as, h => by
    obtain ⟨hc, has⟩ := List.forall_mem_append.mp h
    rw [Expr.eval]
    refine Simulates.bind (c.eval_simulates k hc) fun f => ?_
    exact Simulates.bind (Expr.evalAll_simulates k as has) fun vs => callValue_simulates k f vs
  | .binary op l r, h => by
    obtain ⟨hl, hr⟩ := List.forall_mem_append.mp h
    rw [Expr.eval]
    refine Simulates.bind (l.eval_simulates k hl) fun a => ?_
    split
    · exact Simulates.pure _
    · exact Simulates.bind (r.eval_simulates k hr) fun _ => Simulates.ofExcept _
  | .unary op e, h => by
    rw [Expr.eval]
    refine Simulates.bind (e.eval_simulates k h) fun v => ?_
    exact Simulates.getHeap fun heap => Simulates.ofExcept (op.apply heap v)
  | .paren e, h => by
    rw [Expr.eval]
    exact e.eval_simulates k h
  | .table es, h => by
    rw [Expr.eval]
    exact Simulates.bind (Expr.evalAll_simulates k es h) fun vs => Exec.newTable_simulates k vs

theorem Expr.evalAll_simulates (k : Nat) : (es : List Expr) → (∀ x ∈ Expr.lookupsAll es, N x) →
    Simulates (C.States k) (Expr.evalAll es) (Expr.evalAll es)
  | [], _ => Simulates.pure _
  | e :: es, h => by
    obtain ⟨he, hes⟩ := List.forall_mem_append.mp h
    rw [Expr.evalAll]
    refine Simulates.bind (e.eval_simulates k he) fun v => ?_
    exact Simulates.bind (Expr.evalAll_simulates k es hes) fun _ => Simulates.pure _

end

/-! ## Assignments, declarations and bounds -/

theorem Expr.assign_simulates (k : Nat) (target : Expr) (v : Value)
    (h : ∀ x ∈ target.targetUses, N x) :
    Simulates (C.States k) (target.assign v) (target.assign v) := by
  unfold Expr.assign
  split
  · next t j =>
    obtain ⟨ht, hj⟩ := List.forall_mem_append.mp h
    refine Simulates.bind (t.eval_simulates k ht) fun table => ?_
    refine Simulates.bind (j.eval_simulates k hj) fun key => ?_
    split
    · exact Exec.setElement_simulates _ _ _
    · exact Simulates.throw _
    · exact Simulates.throw _
  · split
    · next x hx =>
      have hN : N x := h x (Expr.mem_targetUses hx)
      exact Simulates.modifyEnv fun e e' hee => C.assign v hee hN
    · exact Simulates.throw _

theorem Expr.assignAll_simulates (k : Nat) (ts : List Expr) (vs : List Value)
    (h : ∀ x ∈ ts.flatMap Expr.targetUses, N x) :
    Simulates (C.States k) (Expr.assignAll ts vs) (Expr.assignAll ts vs) := by
  induction ts generalizing vs with
  | nil => exact Simulates.pure _
  | cons t ts ih =>
    rw [List.flatMap_cons] at h
    obtain ⟨ht, hts⟩ := List.forall_mem_append.mp h
    rw [Expr.assignAll]
    exact Simulates.bind (t.assign_simulates k _ ht) fun _ => ih vs.tail hts

theorem Coupling.declareAll (k : Nat) (xs : List Name) (vs : List Value) {e e' : Env}
    (h : C.envs (k + 1) e e') : C.envs (k + 1) (e.declareAll xs vs) (e'.declareAll xs vs) := by
  induction xs generalizing vs e e' with
  | nil => exact h
  | cons x xs ih => exact ih vs.tail (C.declare x _ h)

theorem Declaration.exec_simulates (k : Nat) (d : Declaration)
    (h : ∀ x ∈ Expr.lookupsAll d.values, N x) :
    Simulates (C.States (k + 1)) d.exec d.exec := by
  unfold Declaration.exec
  refine Simulates.bind (Expr.evalAll_simulates (k + 1) d.values h) fun vs => ?_
  exact Simulates.modifyEnv fun e e' hee => Coupling.declareAll k d.names vs hee

theorem Bound.eval_simulates (k : Nat) (bound : Bound) (e : Expr) (h : ∀ x ∈ e.lookups, N x) :
    Simulates (C.States k) (bound.eval e) (bound.eval e) := by
  refine Simulates.bind (e.eval_simulates k h) fun v => ?_
  split
  · exact Simulates.pure _
  · exact Simulates.throw _

theorem evalBounds_simulates (k : Nat) (start limit : Expr) (step : Option Expr)
    (hstart : ∀ x ∈ start.lookups, N x) (hlimit : ∀ x ∈ limit.lookups, N x)
    (hstep : ∀ x ∈ Expr.lookupsAll step.toList, N x) :
    Simulates (C.States k) (evalBounds start limit step) (evalBounds start limit step) := by
  refine Simulates.bind (Bound.initial.eval_simulates k start hstart) fun a => ?_
  refine Simulates.bind (Bound.limit.eval_simulates k limit hlimit) fun b => ?_
  refine Simulates.bind ?_ fun s => ?_
  · cases step with
    | none => exact Simulates.pure _
    | some e =>
      exact Bound.step.eval_simulates k e fun x hx => hstep x (List.mem_append_left _ hx)
  · split
    · exact Simulates.throw _
    · exact Simulates.pure _

/-! ## Loops -/

theorem whileLoop_simulates (k limit : Nat) {condition : Exec Value} {body : Exec Flow}
    (hc : Simulates (C.States k) condition condition)
    (hb : Simulates (C.States (k + 1)) body body) :
    Simulates (C.States k) (whileLoop limit condition body) (whileLoop limit condition body) := by
  refine Simulates.runPasses Exec.log_simulates (fun _ => ?_) (fun _ => ?_) _ _
  · exact Simulates.bind hc fun _ => Simulates.pure _
  · exact Simulates.bind (Exec.inScope_simulates hb) fun flow =>
      Simulates.passEnd (Simulates.pure _) flow

theorem repeatLoop_simulates (k limit : Nat) {condition : Exec Value} {body : Exec Flow}
    (hc : Simulates (C.States (k + 1)) condition condition)
    (hb : Simulates (C.States (k + 1)) body body) :
    Simulates (C.States k) (repeatLoop limit body condition) (repeatLoop limit body condition) := by
  refine Simulates.runPasses Exec.log_simulates (fun _ => Simulates.pure _) (fun _ => ?_) _ _
  refine Exec.inScope_simulates (Simulates.bind hb fun flow => Simulates.passEnd ?_ flow)
  exact Simulates.bind hc fun _ => Simulates.pure _

theorem boundPass_simulates (k : Nat) (x : Name) (v : Value) {body : Exec Flow}
    (hb : Simulates (C.States (k + 1)) body body) :
    Simulates (C.States k) (Exec.inScope do Exec.modifyEnv (·.declare x v); body)
      (Exec.inScope do Exec.modifyEnv (·.declare x v); body) :=
  Exec.inScope_simulates
    (Simulates.bind (Simulates.modifyEnv fun _ _ hee => C.declare x v hee) fun _ => hb)

theorem forInLoop_simulates (k limit : Nat) (x : Name) {source : Exec Value} {body : Exec Flow}
    (hs : Simulates (C.States k) source source) (hb : Simulates (C.States (k + 1)) body body) :
    Simulates (C.States k) (forInLoop limit x source body) (forInLoop limit x source body) := by
  refine Simulates.bind hs fun v => ?_
  split
  · refine Simulates.runPasses Exec.log_simulates (fun _ => ?_) (fun w => ?_) _ _
    · exact Simulates.bind (Exec.nextValue_simulates k _) fun _ => Simulates.pure _
    · exact Simulates.bind (boundPass_simulates k x w hb) fun flow =>
        Simulates.passEnd (Simulates.pure _) flow
  · exact Simulates.throw _

theorem numericLoop_simulates (k limit : Nat) (x : Name) (start last step : Int64)
    {body : Exec Flow} (hb : Simulates (C.States (k + 1)) body body) :
    Simulates (C.States k) (numericLoop limit x start last step body)
      (numericLoop limit x start last step body) := by
  refine Simulates.runPasses Exec.log_simulates (fun _ => Simulates.pure _) (fun n => ?_) _ _
  exact Simulates.bind (boundPass_simulates k x (.int n) hb) fun flow =>
    Simulates.passEnd (Simulates.pure _) flow

/-! ## Statements -/

mutual

/-- A statement that uses names in `N` only ends alike in coupled states. -/
theorem Stmt.exec_simulates (limit k : Nat) : (s : Stmt) → (∀ x ∈ s.uses, N x) →
    Simulates (C.States (k + 1)) (s.exec limit) (s.exec limit)
  | .expr e, h => by
    rw [Stmt.exec]
    exact Simulates.bind
      (Simulates.bind (e.eval_simulates (k + 1) h) fun _ => Simulates.pure _)
      fun _ => Simulates.pure _
  | .local d, h => by
    rw [Stmt.exec]
    exact Simulates.bind (d.exec_simulates k h) fun _ => Simulates.pure _
  | .assign ts vs, h => by
    obtain ⟨hvs, hts⟩ := List.forall_mem_append.mp h
    rw [Stmt.exec]
    refine Simulates.bind (Expr.evalAll_simulates (k + 1) vs hvs) fun values => ?_
    exact Simulates.bind (Expr.assignAll_simulates (k + 1) ts values hts) fun _ =>
      Simulates.pure _
  | .loop l, h => by
    rw [Stmt.exec]
    exact Simulates.bind (Exec.log_simulates _) fun _ => l.exec_simulates limit (k + 1) h
  | .do b, h => by
    rw [Stmt.exec]
    exact b.exec_simulates limit (k + 1) h
  | .if c t none, h => by
    obtain ⟨hc, ht⟩ := List.forall_mem_append.mp h
    rw [Stmt.exec]
    refine Simulates.bind (c.eval_simulates (k + 1) hc) fun v => ?_
    split
    · exact t.exec_simulates limit (k + 1) ht
    · exact Simulates.pure _
  | .if c t (some e), h => by
    obtain ⟨hc, hte⟩ := List.forall_mem_append.mp h
    obtain ⟨ht, he⟩ := List.forall_mem_append.mp hte
    rw [Stmt.exec]
    refine Simulates.bind (c.eval_simulates (k + 1) hc) fun v => ?_
    split
    · exact t.exec_simulates limit (k + 1) ht
    · exact e.exec_simulates limit (k + 1) he
  | .break, _ => Simulates.pure _
  | .return vs, h => by
    rw [Stmt.exec]
    exact Simulates.bind (Expr.evalAll_simulates (k + 1) vs h) fun _ => Simulates.pure _

theorem Block.exec_simulates (limit k : Nat) : (b : Block) → (∀ x ∈ b.uses, N x) →
    Simulates (C.States k) (b.exec limit) (b.exec limit)
  | ⟨_, ss⟩, h => by
    rw [Block.exec]
    exact Exec.inScope_simulates (Stmt.execAll_simulates limit k ss h)

theorem Loop.exec_simulates (limit k : Nat) : (l : Loop) → (∀ x ∈ l.uses, N x) →
    Simulates (C.States k) (l.exec limit) (l.exec limit)
  | .while c ⟨_, ss⟩, h => by
    obtain ⟨hc, hss⟩ := List.forall_mem_append.mp h
    rw [Loop.exec]
    exact whileLoop_simulates k limit (c.eval_simulates k hc) (Stmt.execAll_simulates limit k ss hss)
  | .repeat ⟨_, ss⟩ c, h => by
    obtain ⟨hc, hss⟩ := List.forall_mem_append.mp h
    rw [Loop.exec]
    exact repeatLoop_simulates k limit (c.eval_simulates (k + 1) hc)
      (Stmt.execAll_simulates limit k ss hss)
  | .forIn x source ⟨_, ss⟩, h => by
    obtain ⟨hs, hss⟩ := List.forall_mem_append.mp h
    rw [Loop.exec]
    exact forInLoop_simulates k limit x (source.toExpr.eval_simulates k hs)
      (Stmt.execAll_simulates limit k ss hss)
  | .numericFor x i l s ⟨_, ss⟩, h => by
    obtain ⟨hi, h⟩ := List.forall_mem_append.mp h
    obtain ⟨hl, h⟩ := List.forall_mem_append.mp h
    obtain ⟨hs, hss⟩ := List.forall_mem_append.mp h
    rw [Loop.exec]
    exact Simulates.bind (evalBounds_simulates k i l s hi hl hs) fun _ =>
      numericLoop_simulates k limit x _ _ _ (Stmt.execAll_simulates limit k ss hss)

theorem Stmt.execAll_simulates (limit k : Nat) : (ss : List Stmt) → (∀ x ∈ Stmt.usesAll ss, N x) →
    Simulates (C.States (k + 1)) (Stmt.execAll limit ss) (Stmt.execAll limit ss)
  | [], _ => Simulates.pure _
  | s :: ss, h => by
    obtain ⟨hs, hss⟩ := List.forall_mem_append.mp h
    rw [Stmt.execAll]
    refine Simulates.bind (s.exec_simulates limit k hs) fun flow => ?_
    split
    · exact Stmt.execAll_simulates limit k ss hss
    · exact Simulates.pure _

end

end Programs

end LoopLowering
