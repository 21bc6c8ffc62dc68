import LoopLowering.Proofs.Moves
import LoopLowering.Run.Program

/- Scopes after a run. A block, a pass of a loop and a program each run in a scope
   of their own, which is closed however the run ends. `State.Restored` says what
   that leaves: the same number of open scopes, each with the names it had, and no
   global name lost. Statements that run in an open scope may add the names that
   they declare to it and to no other scope (`State.Extended`).

   * `Stmt.execAll_extends`: statements extend the innermost scope by the names that
     their declarations list.
   * `Block.exec_restores`, `Loop.exec_restores`: blocks and loops restore the
     scopes. -/
namespace LoopLowering

/-! ## Names of a scope -/

namespace Scope

theorem isSome_get?_iff (s : Scope) (x : Name) : (s.get? x).isSome = true ↔ x ∈ s.names := by
  unfold get? names
  induction s.entries with
  | nil => simp
  | cons e es ih =>
    obtain ⟨y, w⟩ := e
    by_cases h : x = y
    · simp [h]
    · simp [h, List.lookup_cons, beq_false_of_ne h, ih]

theorem get?_eq_none_iff (s : Scope) (x : Name) : s.get? x = none ↔ x ∉ s.names := by
  rw [← isSome_get?_iff]
  cases s.get? x <;> simp

theorem names_insert_of_mem {s : Scope} {x : Name} (h : x ∈ s.names) (v : Value) :
    (s.insert x v).names = s.names := by
  rw [names_insert, if_pos h]

theorem names_subset_insert (s : Scope) (x : Name) (v : Value) :
    s.names ⊆ (s.insert x v).names := by
  rw [names_insert]
  split
  · exact List.Subset.refl _
  · exact List.subset_append_left _ _

end Scope

/-! ## Restored and extended scopes -/

/-- The later environment has the same scopes open, each with the same names, and every global
name of the earlier one. -/
structure Env.Restored (e e' : Env) : Prop where
  depth : e'.depth = e.depth
  names : e'.scopes.map Scope.names = e.scopes.map Scope.names
  globals : e.globals.names ⊆ e'.globals.names

/-- Of two stacks of scopes the later one has at most the names `xs` more in its innermost scope. -/
inductive ScopesExtended (xs : List Name) : List Scope → List Scope → Prop where
  | none : ScopesExtended xs [] []
  | inner {s s' : Scope} {rest rest' : List Scope} {new : List Name} :
    s'.names = s.names ++ new → new ⊆ xs → rest'.map Scope.names = rest.map Scope.names →
      ScopesExtended xs (s :: rest) (s' :: rest')

/-- The later environment is restored but for names among `xs`, which are new in the innermost scope,
or new global names when no scope is open. -/
structure Env.Extended (xs : List Name) (e e' : Env) : Prop where
  scopes : ScopesExtended xs e.scopes e'.scopes
  globals : e.globals.names ⊆ e'.globals.names

namespace Env

variable {e e' e'' : Env} {xs : List Name}

theorem Restored.of_names (hn : e'.scopes.map Scope.names = e.scopes.map Scope.names)
    (hg : e.globals.names ⊆ e'.globals.names) : e.Restored e' where
  depth := by
    show e'.scopes.length = e.scopes.length
    rw [← List.length_map (f := Scope.names), hn, List.length_map]
  names := hn
  globals := hg

theorem Restored.refl (e : Env) : e.Restored e :=
  ⟨rfl, rfl, fun _ h => h⟩

theorem Restored.trans (h₁ : e.Restored e') (h₂ : e'.Restored e'') : e.Restored e'' :=
  ⟨h₂.depth.trans h₁.depth, h₂.names.trans h₁.names, fun _ h => h₂.globals (h₁.globals h)⟩

theorem Restored.extended (h : e.Restored e') (xs : List Name) : e.Extended xs e' := by
  refine ⟨?_, h.globals⟩
  have hn := h.names
  cases hs : e.scopes with
  | nil =>
    rw [hs, List.map_nil, List.map_eq_nil_iff] at hn
    rw [hn]
    exact .none
  | cons s rest =>
    cases hs' : e'.scopes with
    | nil => rw [hs, hs'] at hn; cases hn
    | cons s' rest' =>
      rw [hs, hs', List.map_cons, List.map_cons, List.cons.injEq] at hn
      exact .inner (hn.1.trans (List.append_nil _).symm) (List.nil_subset xs) hn.2

theorem Extended.restored (h : e.Extended [] e') : e.Restored e' := by
  obtain ⟨hs, hg⟩ := h
  refine Restored.of_names ?_ hg
  revert hs
  generalize e.scopes = a, e'.scopes = b
  rintro (_ | ⟨hnew, hsub, hrest⟩)
  · rfl
  · rw [List.subset_nil.mp hsub, List.append_nil] at hnew
    rw [List.map_cons, List.map_cons, hnew, hrest]

theorem Extended.trans (h₁ : e.Extended xs e') (h₂ : e'.Extended xs e'') : e.Extended xs e'' := by
  refine ⟨?_, fun _ h => h₂.globals (h₁.globals h)⟩
  obtain ⟨hs₁, -⟩ := h₁
  obtain ⟨hs₂, -⟩ := h₂
  revert hs₁ hs₂
  generalize e.scopes = a, e'.scopes = b, e''.scopes = c
  rintro (_ | ⟨hnew, hsub, hrest⟩) hs₂
  · exact hs₂
  · cases hs₂ with
    | inner hnew' hsub' hrest' =>
      refine .inner ?_ (List.append_subset.mpr ⟨hsub, hsub'⟩) (hrest'.trans hrest)
      rw [hnew', hnew, List.append_assoc]

theorem Extended.mono {ys : List Name} (h : e.Extended xs e') (hxs : xs ⊆ ys) :
    e.Extended ys e' := by
  refine ⟨?_, h.globals⟩
  obtain ⟨hs, -⟩ := h
  revert hs
  generalize e.scopes = a, e'.scopes = b
  rintro (_ | ⟨hnew, hsub, hrest⟩)
  · exact .none
  · exact .inner hnew (fun _ hx => hxs (hsub hx)) hrest

/-- Closing the scope that was opened before leaves the other scopes with the names they had. -/
theorem Extended.close (h : e.openScope.Extended xs e') : e.Restored e'.closeScope := by
  obtain ⟨hs, hg⟩ := h
  refine Restored.of_names ?_ hg
  unfold openScope at hs
  unfold closeScope
  dsimp only at hs ⊢
  generalize e'.scopes = b at hs
  cases hs with
  | inner _ _ hrest => exact hrest

/-! ## Writing variables -/

theorem names_assignIn {x : Name} {v : Value} {ss ss' : List Scope}
    (h : assignIn x v ss = some ss') : ss'.map Scope.names = ss.map Scope.names := by
  induction ss generalizing ss' with
  | nil => cases h
  | cons s rest ih =>
    unfold assignIn at h
    split at h
    · next hx =>
      cases h
      rw [List.map_cons, List.map_cons,
        Scope.names_insert_of_mem ((Scope.isSome_get?_iff s x).mp hx)]
    · obtain ⟨r, hr, rfl⟩ := Option.map_eq_some_iff.mp h
      rw [List.map_cons, List.map_cons, ih hr]

theorem restored_assign (e : Env) (x : Name) (v : Value) : e.Restored (e.assign x v) := by
  unfold assign
  split
  · next h => exact Restored.of_names (names_assignIn h) fun _ h => h
  · exact Restored.of_names rfl (Scope.names_subset_insert _ _ _)

theorem extended_declare (e : Env) (x : Name) (v : Value) : e.Extended [x] (e.declare x v) := by
  obtain ⟨globals, scopes⟩ := e
  cases scopes with
  | nil => exact ⟨.none, Scope.names_subset_insert _ _ _⟩
  | cons s rest =>
    refine ⟨?_, fun _ h => h⟩
    by_cases hx : x ∈ s.names
    · exact .inner ((Scope.names_insert_of_mem hx v).trans (List.append_nil _).symm)
        (List.nil_subset _) rfl
    · exact .inner (by rw [Scope.names_insert, if_neg hx]) (List.Subset.refl [x]) rfl

theorem extended_declareAll (xs : List Name) (e : Env) (vs : List Value) :
    e.Extended xs (e.declareAll xs vs) := by
  induction xs generalizing e vs with
  | nil => exact (Restored.refl e).extended []
  | cons x xs ih =>
    have h₁ : e.Extended (x :: xs) (e.declare x (vs.head?.getD .nil)) :=
      (extended_declare e x _).mono fun y hy => by
        rw [List.mem_singleton.mp hy]; exact List.mem_cons_self
    exact h₁.trans ((ih _ vs.tail).mono (List.subset_cons_self x xs))

end Env

/-! ## Computations -/

/-- A run restored the scopes. -/
def State.Restored (s t : State) : Prop := s.env.Restored t.env

/-- A run restored the scopes but for names among `xs`, which are new in the innermost one. -/
def State.Extended (xs : List Name) (s t : State) : Prop := s.env.Extended xs t.env

instance State.restored_chains : Chains State.Restored where
  refl s := Env.Restored.refl s.env
  trans h₁ h₂ := Env.Restored.trans h₁ h₂

instance State.extended_chains (xs : List Name) : Chains (State.Extended xs) where
  refl s := (Env.Restored.refl s.env).extended xs
  trans h₁ h₂ := Env.Extended.trans h₁ h₂

theorem State.Grows.restored {s t : State} (h : s.Grows t) : s.Restored t := by
  unfold State.Restored
  rw [h.env]
  exact Env.Restored.refl s.env

namespace Moves

variable {α : Type} {x : Exec α} {xs : List Name}

theorem restored (h : Moves State.Grows x) : Moves State.Restored x :=
  h.mono fun _ _ => State.Grows.restored

theorem extended (h : Moves State.Restored x) (xs : List Name) : Moves (State.Extended xs) x :=
  h.mono fun _ _ h => Env.Restored.extended h xs

theorem inScope (h : Moves (State.Extended xs) x) : Moves State.Restored (Exec.inScope x) := by
  intro s
  have hs := h { s with env := s.env.openScope }
  unfold Exec.inScope
  cases hr : x { s with env := s.env.openScope } with
  | ok a t => rw [hr] at hs; exact Env.Extended.close hs
  | error e t => rw [hr] at hs; exact Env.Extended.close hs

end Moves

theorem Exec.log_restored (event : LoopEvent) : Moves State.Restored (Exec.log event) :=
  Moves.modify fun s => Env.Restored.refl s.env

theorem Exec.nextValue_restored (id : IterId) : Moves State.Restored (Exec.nextValue id) :=
  Moves.modifyGet fun s => Env.Restored.refl s.env

theorem Exec.setElement_restored (id : TableId) (index : Int64) (v : Value) :
    Moves State.Restored (Exec.setElement id index v) := by
  refine Moves.bind Moves.get fun s => ?_
  split
  · exact Moves.modify fun s => Env.Restored.refl s.env
  · exact Moves.throw _

theorem Exec.declare_extends (x : Name) (v : Value) :
    Moves (State.Extended [x]) (Exec.modifyEnv (·.declare x v)) :=
  Moves.modify fun s => Env.extended_declare s.env x v

/-! ## Loops -/

section Loops

variable {limit : Nat} {body : Exec Flow} {xs : List Name}

theorem whileLoop_restores {condition : Exec Value} (hc : Moves State.Restored condition)
    (hb : Moves (State.Extended xs) body) : Moves State.Restored (whileLoop limit condition body) := by
  refine Moves.runPasses Exec.log_restored (fun _ => ?_) (fun _ => ?_) _ _
  · exact Moves.bind hc fun _ => Moves.pure _
  · exact Moves.bind hb.inScope fun flow => Moves.passEnd (Moves.pure _) flow

theorem repeatLoop_restores {condition : Exec Value} (hc : Moves State.Restored condition)
    (hb : Moves (State.Extended xs) body) :
    Moves State.Restored (repeatLoop limit body condition) := by
  refine Moves.runPasses Exec.log_restored (fun _ => Moves.pure _) (fun _ => ?_) _ _
  refine Moves.inScope (Moves.bind hb fun flow => Moves.passEnd ?_ flow)
  exact Moves.bind (hc.extended xs) fun _ => Moves.pure _

theorem boundPass_restores (x : Name) (v : Value) (hb : Moves (State.Extended xs) body) :
    Moves State.Restored (Exec.inScope do Exec.modifyEnv (·.declare x v); body) := by
  have hx : Moves (State.Extended (x :: xs)) (Exec.modifyEnv (·.declare x v)) :=
    (Exec.declare_extends x v).mono fun _ _ h => h.mono fun y hy => by
      rw [List.mem_singleton.mp hy]; exact List.mem_cons_self
  exact Moves.inScope (Moves.bind hx fun _ =>
    hb.mono fun _ _ h => h.mono (List.subset_cons_self x xs))

theorem forInLoop_restores (x : Name) {source : Exec Value} (hs : Moves State.Restored source)
    (hb : Moves (State.Extended xs) body) :
    Moves State.Restored (forInLoop limit x source body) := by
  refine Moves.bind hs fun v => ?_
  split
  · refine Moves.runPasses Exec.log_restored (fun _ => ?_) (fun w => ?_) _ _
    · exact Moves.bind (Exec.nextValue_restored _) fun _ => Moves.pure _
    · exact Moves.bind (boundPass_restores x w hb) fun flow => Moves.passEnd (Moves.pure _) flow
  · exact Moves.throw _

theorem numericLoop_restores (x : Name) (start last step : Int64)
    (hb : Moves (State.Extended xs) body) :
    Moves State.Restored (numericLoop limit x start last step body) := by
  refine Moves.runPasses Exec.log_restored (fun _ => Moves.pure _) (fun n => ?_) _ _
  exact Moves.bind (boundPass_restores x (.int n) hb) fun flow => Moves.passEnd (Moves.pure _) flow

end Loops

/-! ## Statements -/

/-- The names that a statement itself declares in the scope it runs in. -/
def Stmt.declares : Stmt → List Name
  | .local d => d.names
  | _ => []

/-- The names that the declarations among statements list, without those of inner blocks. -/
def Stmt.declaresAll (ss : List Stmt) : List Name :=
  ss.flatMap Stmt.declares

theorem Expr.assign_restores (target : Expr) (v : Value) : Moves State.Restored (target.assign v) := by
  unfold Expr.assign
  split
  · next t k =>
    refine Moves.bind t.eval_grows.restored fun table => ?_
    refine Moves.bind k.eval_grows.restored fun key => ?_
    split
    · exact Exec.setElement_restored _ _ _
    · exact Moves.throw _
    · exact Moves.throw _
  · split
    · exact Moves.modify fun s => Env.restored_assign s.env _ _
    · exact Moves.throw _

theorem Expr.assignAll_restores (ts : List Expr) (vs : List Value) :
    Moves State.Restored (Expr.assignAll ts vs) := by
  induction ts generalizing vs with
  | nil => exact Moves.pure _
  | cons t ts ih =>
    rw [Expr.assignAll]
    exact Moves.bind (t.assign_restores _) fun _ => ih vs.tail

theorem Declaration.exec_extends (d : Declaration) : Moves (State.Extended d.names) d.exec := by
  unfold Declaration.exec
  refine Moves.bind ((Expr.evalAll_grows d.values).restored.extended _) fun vs => ?_
  exact Moves.modify fun s => Env.extended_declareAll d.names s.env vs

theorem Bound.eval_restores (bound : Bound) (e : Expr) : Moves State.Restored (bound.eval e) := by
  refine Moves.bind e.eval_grows.restored fun v => ?_
  split
  · exact Moves.pure _
  · exact Moves.throw _

theorem evalBounds_restores (start limit : Expr) (step : Option Expr) :
    Moves State.Restored (evalBounds start limit step) := by
  refine Moves.bind (Bound.initial.eval_restores start) fun a => ?_
  refine Moves.bind (Bound.limit.eval_restores limit) fun b => ?_
  refine Moves.bind ?_ fun s => ?_
  · cases step with
    | none => exact Moves.pure _
    | some e => exact Bound.step.eval_restores e
  · split
    · exact Moves.throw _
    · exact Moves.pure _

mutual

/-- A statement adds the names it declares to the innermost scope and nothing else to any scope. -/
theorem Stmt.exec_extends (limit : Nat) : (s : Stmt) → Moves (State.Extended s.declares) (s.exec limit)
  | .expr e => by
    rw [Stmt.exec]
    exact Moves.bind (Moves.bind (e.eval_grows.restored.extended _) fun _ => Moves.pure _)
      fun _ => Moves.pure _
  | .local d => by
    rw [Stmt.exec]
    exact Moves.bind d.exec_extends fun _ => Moves.pure _
  | .assign ts vs => by
    rw [Stmt.exec]
    refine Moves.bind ((Expr.evalAll_grows vs).restored.extended _) fun values => ?_
    exact Moves.bind ((Expr.assignAll_restores ts values).extended _) fun _ => Moves.pure _
  | .loop l => by
    rw [Stmt.exec]
    exact Moves.bind ((Exec.log_restored _).extended _) fun _ => (l.exec_restores limit).extended _
  | .do b => by
    rw [Stmt.exec]
    exact (b.exec_restores limit).extended _
  | .if c t none => by
    rw [Stmt.exec]
    refine Moves.bind (c.eval_grows.restored.extended _) fun v => ?_
    split
    · exact (t.exec_restores limit).extended _
    · exact Moves.pure _
  | .if c t (some e) => by
    rw [Stmt.exec]
    refine Moves.bind (c.eval_grows.restored.extended _) fun v => ?_
    split
    · exact (t.exec_restores limit).extended _
    · exact (e.exec_restores limit).extended _
  | .break => Moves.pure _
  | .return vs => by
    rw [Stmt.exec]
    exact Moves.bind ((Expr.evalAll_grows vs).restored.extended _) fun _ => Moves.pure _

theorem Block.exec_restores (limit : Nat) : (b : Block) → Moves State.Restored (b.exec limit)
  | ⟨_, ss⟩ => by
    rw [Block.exec]
    exact (Stmt.execAll_extends limit ss).inScope

theorem Loop.exec_restores (limit : Nat) : (l : Loop) → Moves State.Restored (l.exec limit)
  | .while c ⟨_, ss⟩ => by
    rw [Loop.exec]
    exact whileLoop_restores c.eval_grows.restored (Stmt.execAll_extends limit ss)
  | .repeat ⟨_, ss⟩ c => by
    rw [Loop.exec]
    exact repeatLoop_restores c.eval_grows.restored (Stmt.execAll_extends limit ss)
  | .forIn x source ⟨_, ss⟩ => by
    rw [Loop.exec]
    exact forInLoop_restores x source.toExpr.eval_grows.restored (Stmt.execAll_extends limit ss)
  | .numericFor x i l s ⟨_, ss⟩ => by
    rw [Loop.exec]
    exact Moves.bind (evalBounds_restores i l s) fun _ =>
      numericLoop_restores x _ _ _ (Stmt.execAll_extends limit ss)

theorem Stmt.execAll_extends (limit : Nat) :
    (ss : List Stmt) → Moves (State.Extended (Stmt.declaresAll ss)) (Stmt.execAll limit ss)
  | [] => Moves.pure _
  | s :: ss => by
    rw [Stmt.execAll]
    have hs : s.declares ⊆ Stmt.declaresAll (s :: ss) := List.subset_append_left _ _
    have hss : Stmt.declaresAll ss ⊆ Stmt.declaresAll (s :: ss) := List.subset_append_right _ _
    refine Moves.bind ((s.exec_extends limit).mono fun _ _ h => h.mono hs) fun flow => ?_
    split
    · exact (Stmt.execAll_extends limit ss).mono fun _ _ h => h.mono hss
    · exact Moves.pure _

end

theorem Block.runProgram_restores (limit : Nat) (b : Block) :
    Moves State.Restored (b.runProgram limit) := by
  refine Moves.bind (b.exec_restores limit) fun flow => ?_
  cases flow with
  | normal => exact Moves.pure _
  | broke => exact Moves.throw _
  | returned vs => exact Moves.pure _

/-- **Scopes are always restored.** A block, a program, a `do` statement, a conditional and a loop of
any kind, run from any state and ended in any way, leave the same scopes open as before, each with
the same names, and lose no global name. -/
theorem scopes_restored (limit : Nat) (s : State) :
    (∀ b : Block, s.Restored (endState (b.exec limit s)) ∧
      s.Restored (endState (b.runProgram limit s)) ∧
      s.Restored (endState ((Stmt.do b).exec limit s))) ∧
    (∀ (c : Expr) (t : Block) (e : Option Block),
      s.Restored (endState ((Stmt.if c t e).exec limit s))) ∧
    ∀ l : Loop, s.Restored (endState ((Stmt.loop l).exec limit s)) := by
  refine ⟨fun b => ⟨b.exec_restores limit s, b.runProgram_restores limit s, ?_⟩,
    fun c t e => ?_, fun l => ?_⟩
  -- none of these statements declares a name in the scope it runs in
  · exact Env.Extended.restored ((Stmt.do b).exec_extends limit s)
  · exact Env.Extended.restored ((Stmt.if c t e).exec_extends limit s)
  · exact Env.Extended.restored ((Stmt.loop l).exec_extends limit s)

end LoopLowering
