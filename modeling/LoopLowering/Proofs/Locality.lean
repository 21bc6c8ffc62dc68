import LoopLowering.Proofs.Simulation
import LoopLowering.Run.Program
import Mathlib.Data.List.Forall2

/- What a run depends on. A program mentions the names that it uses, the names that
   it declares and the variables of its loops (`Stmt.mentionsAll`). A run depends on
   no other variable and writes no other variable.

   Both halves are about `Env.AgreeOn`: two environments bind the same values to
   certain names, scope by scope.

   * Environments that agree on the mentioned names are coupled (`agreement`), so two
     runs from them end alike.
   * `Steady W P` says that every operation which writes names in `W` only keeps the
     relation `P` between an earlier and a later state. All statements then keep it
     (`Stmt.exec_steady`), and the relation "the names outside of `W` are bound as
     they were" is steady (`steady_frame`). -/
namespace LoopLowering

/-! ## Names that are mentioned -/

mutual

/-- The names that a statement declares, in whatever block, and the variables of its loops. -/
def Stmt.binds : Stmt → List Name
  | .expr _ | .assign _ _ | .break | .return _ => []
  | .local d => d.names
  | .loop l => l.binds
  | .do b => b.binds
  | .if _ t none => t.binds
  | .if _ t (some e) => t.binds ++ e.binds

def Block.binds : Block → List Name
  | ⟨_, ss⟩ => Stmt.bindsAll ss

/-- The names that a loop binds: its variable and what its body binds. -/
def Loop.binds : Loop → List Name
  | .while _ ⟨_, ss⟩ => Stmt.bindsAll ss
  | .repeat ⟨_, ss⟩ _ => Stmt.bindsAll ss
  | .forIn x _ ⟨_, ss⟩ => x :: Stmt.bindsAll ss
  | .numericFor x _ _ _ ⟨_, ss⟩ => x :: Stmt.bindsAll ss

def Stmt.bindsAll : List Stmt → List Name
  | [] => []
  | s :: ss => s.binds ++ Stmt.bindsAll ss

end

mutual

/-- The variables that a statement assigns, in whatever block. -/
def Stmt.assigns : Stmt → List Name
  | .expr _ | .local _ | .break | .return _ => []
  | .assign ts _ => ts.filterMap Expr.qualifiedName?
  | .loop l => l.assigns
  | .do b => b.assigns
  | .if _ t none => t.assigns
  | .if _ t (some e) => t.assigns ++ e.assigns

def Block.assigns : Block → List Name
  | ⟨_, ss⟩ => Stmt.assignsAll ss

/-- The variables that a loop assigns. Its own variable is bound, not assigned. -/
def Loop.assigns : Loop → List Name
  | .while _ ⟨_, ss⟩ | .repeat ⟨_, ss⟩ _ | .forIn _ _ ⟨_, ss⟩ | .numericFor _ _ _ _ ⟨_, ss⟩ =>
    Stmt.assignsAll ss

def Stmt.assignsAll : List Stmt → List Name
  | [] => []
  | s :: ss => s.assigns ++ Stmt.assignsAll ss

end

/-- The names that statements mention. Of a chain of members on a name it is the dotted name that
counts: the name at its head is not looked up. -/
def Stmt.mentionsAll (ss : List Stmt) : List Name :=
  Stmt.usesAll ss ++ Stmt.bindsAll ss

mutual

theorem Stmt.assigns_subset_uses : (s : Stmt) → s.assigns ⊆ s.uses
  | .expr _ | .local _ | .break | .return _ => List.nil_subset _
  | .assign ts vs => by
    intro x hx
    obtain ⟨t, ht, hname⟩ := List.mem_filterMap.mp hx
    exact List.mem_append_right _ (List.mem_flatMap.mpr ⟨t, ht, Expr.mem_targetUses hname⟩)
  | .loop l => l.assigns_subset_uses
  | .do b => b.assigns_subset_uses
  | .if _ t none => List.subset_append_of_subset_right _ t.assigns_subset_uses
  | .if _ t (some e) => by
    apply List.subset_append_of_subset_right
    exact List.append_subset.mpr
      ⟨List.subset_append_of_subset_left _ t.assigns_subset_uses,
        List.subset_append_of_subset_right _ e.assigns_subset_uses⟩

theorem Block.assigns_subset_uses : (b : Block) → b.assigns ⊆ b.uses
  | ⟨_, ss⟩ => Stmt.assignsAll_subset_usesAll ss

theorem Loop.assigns_subset_uses : (l : Loop) → l.assigns ⊆ l.uses
  | .while _ ⟨_, ss⟩ | .repeat ⟨_, ss⟩ _ | .forIn _ _ ⟨_, ss⟩ =>
    List.subset_append_of_subset_right _ (Stmt.assignsAll_subset_usesAll ss)
  | .numericFor _ _ _ _ ⟨_, ss⟩ => by
    iterate 3 apply List.subset_append_of_subset_right
    exact Stmt.assignsAll_subset_usesAll ss

theorem Stmt.assignsAll_subset_usesAll : (ss : List Stmt) → Stmt.assignsAll ss ⊆ Stmt.usesAll ss
  | [] => List.nil_subset _
  | s :: ss => List.append_subset.mpr
    ⟨List.subset_append_of_subset_left _ s.assigns_subset_uses,
      List.subset_append_of_subset_right _ (Stmt.assignsAll_subset_usesAll ss)⟩

end

/-! ## Environments that agree -/

/-- The scopes bind the names in `N` to the same values, or both not at all. -/
def Scope.AgreeOn (N : Name → Prop) (a b : Scope) : Prop :=
  ∀ x, N x → a.get? x = b.get? x

/-- The environments have the same number of open scopes, and these and the globals agree on the names
in `N`. -/
structure Env.AgreeOn (N : Name → Prop) (e e' : Env) : Prop where
  globals : e.globals.AgreeOn N e'.globals
  scopes : List.Forall₂ (Scope.AgreeOn N) e.scopes e'.scopes

section Agreement

variable {N : Name → Prop} {a b c : Scope} {ss ss' : List Scope} {e e' e'' : Env} {x : Name}
  {v : Value}

theorem Scope.AgreeOn.refl (a : Scope) : a.AgreeOn N a :=
  fun _ _ => rfl

theorem Scope.AgreeOn.trans (h : a.AgreeOn N b) (h' : b.AgreeOn N c) : a.AgreeOn N c :=
  fun x hx => (h x hx).trans (h' x hx)

theorem Scope.AgreeOn.insert (h : a.AgreeOn N b) (x : Name) (v : Value) :
    (a.insert x v).AgreeOn N (b.insert x v) := by
  intro y hy
  rw [Scope.get?_insert, Scope.get?_insert, h y hy]

theorem Scope.agreeOn_insert (a : Scope) (hx : ¬ N x) (v : Value) : a.AgreeOn N (a.insert x v) := by
  intro y hy
  have hne : y ≠ x := by
    rintro rfl
    exact hx hy
  rw [Scope.get?_insert, if_neg hne]

theorem forall₂_agreeOn_refl (ss : List Scope) : List.Forall₂ (Scope.AgreeOn N) ss ss :=
  List.forall₂_same.mpr fun a _ => Scope.AgreeOn.refl a

theorem lookupIn_agrees (h : List.Forall₂ (Scope.AgreeOn N) ss ss') (hx : N x) :
    Env.lookupIn x ss = Env.lookupIn x ss' := by
  induction h with
  | nil => rfl
  | cons hab _ ih => rw [Env.lookupIn, Env.lookupIn, hab x hx, ih]

/-- The name is bound in corresponding scopes, so the same scope of both stacks is written. -/
theorem assignIn_agrees (h : List.Forall₂ (Scope.AgreeOn N) ss ss') (hx : N x) (v : Value) :
    Option.Rel (List.Forall₂ (Scope.AgreeOn N)) (Env.assignIn x v ss) (Env.assignIn x v ss') := by
  induction h with
  | nil => exact .none
  | @cons a b ss ss' hab h ih =>
    rw [Env.assignIn, Env.assignIn, hab x hx]
    by_cases hb : (b.get? x).isSome = true
    · rw [if_pos hb, if_pos hb]
      exact .some (.cons (hab.insert x v) h)
    · rw [if_neg hb, if_neg hb]
      generalize Env.assignIn x v ss = r, Env.assignIn x v ss' = r' at ih
      cases ih with
      | none => exact .none
      | some h => exact .some (.cons hab h)

theorem agreeOn_assignIn (hx : ¬ N x) (h : Env.assignIn x v ss = some ss') :
    List.Forall₂ (Scope.AgreeOn N) ss ss' := by
  induction ss generalizing ss' with
  | nil => simp [Env.assignIn] at h
  | cons a ss ih =>
    rw [Env.assignIn] at h
    split at h
    · cases h
      exact .cons (a.agreeOn_insert hx v) (forall₂_agreeOn_refl ss)
    · obtain ⟨r, hr, rfl⟩ := Option.map_eq_some_iff.mp h
      exact .cons (Scope.AgreeOn.refl a) (ih hr)

namespace Env

theorem AgreeOn.refl (e : Env) : e.AgreeOn N e :=
  ⟨Scope.AgreeOn.refl _, forall₂_agreeOn_refl _⟩

theorem AgreeOn.trans (h : e.AgreeOn N e') (h' : e'.AgreeOn N e'') : e.AgreeOn N e'' := by
  refine ⟨h.globals.trans h'.globals, ?_⟩
  have hscopes := h.scopes
  have hscopes' := h'.scopes
  revert hscopes hscopes'
  generalize e.scopes = as, e'.scopes = bs, e''.scopes = cs
  intro hab hbc
  induction hab generalizing cs with
  | nil => exact hbc
  | cons hab _ ih =>
    cases hbc with
    | cons hbc hrest => exact .cons (hab.trans hbc) (ih _ hrest)

theorem AgreeOn.lookup (h : e.AgreeOn N e') (hx : N x) : e.lookup x = e'.lookup x := by
  rw [Env.lookup, Env.lookup, lookupIn_agrees h.scopes hx, h.globals x hx]

theorem AgreeOn.assign (h : e.AgreeOn N e') (hx : N x) (v : Value) :
    (e.assign x v).AgreeOn N (e'.assign x v) := by
  have hr := assignIn_agrees h.scopes hx v
  unfold Env.assign
  generalize assignIn x v e.scopes = r, assignIn x v e'.scopes = r' at hr
  cases hr with
  | none => exact ⟨h.globals.insert x v, h.scopes⟩
  | some hr => exact ⟨h.globals, hr⟩

theorem AgreeOn.declare (h : e.AgreeOn N e') (x : Name) (v : Value) :
    (e.declare x v).AgreeOn N (e'.declare x v) := by
  obtain ⟨g, ss⟩ := e
  obtain ⟨g', ss'⟩ := e'
  obtain ⟨hglobals, hscopes⟩ := h
  cases hscopes with
  | nil => exact ⟨hglobals.insert x v, .nil⟩
  | cons hab hrest => exact ⟨hglobals, .cons (hab.insert x v) hrest⟩

theorem AgreeOn.openScope (h : e.AgreeOn N e') : e.openScope.AgreeOn N e'.openScope :=
  ⟨h.globals, .cons (Scope.AgreeOn.refl _) h.scopes⟩

theorem AgreeOn.closeScope (h : e.AgreeOn N e') : e.closeScope.AgreeOn N e'.closeScope := by
  obtain ⟨g, ss⟩ := e
  obtain ⟨g', ss'⟩ := e'
  obtain ⟨hglobals, hscopes⟩ := h
  cases hscopes with
  | nil => exact ⟨hglobals, .nil⟩
  | cons _ hrest => exact ⟨hglobals, hrest⟩

theorem agreeOn_assign (e : Env) (hx : ¬ N x) (v : Value) : e.AgreeOn N (e.assign x v) := by
  unfold Env.assign
  split
  · next h => exact ⟨Scope.AgreeOn.refl _, agreeOn_assignIn hx h⟩
  · exact ⟨Scope.agreeOn_insert _ hx v, forall₂_agreeOn_refl _⟩

theorem agreeOn_declare (e : Env) (hx : ¬ N x) (v : Value) : e.AgreeOn N (e.declare x v) := by
  obtain ⟨g, ss⟩ := e
  cases ss with
  | nil => exact ⟨Scope.agreeOn_insert _ hx v, .nil⟩
  | cons a ss => exact ⟨Scope.AgreeOn.refl _, .cons (a.agreeOn_insert hx v) (forall₂_agreeOn_refl ss)⟩

end Env

end Agreement

/-! ## Runs from environments that agree -/

/-- Programs that use names in `N` only respect environments that agree on `N`. They add the same
entries to the logs `as` and `bs`. -/
def agreement (N : Name → Prop) (as bs : Array LoopEvent) : Coupling N where
  envs _ := Env.AgreeOn N
  logs a b := ∃ added, a = as ++ added ∧ b = bs ++ added
  lookup h hx := h.lookup hx
  assign v h hx := h.assign hx v
  declare x v h := h.declare x v
  openScope h := h.openScope
  closeScope h := h.closeScope
  log event h := by
    obtain ⟨added, rfl, rfl⟩ := h
    exact ⟨added.push event, Array.append_push.symm, Array.append_push.symm⟩

/-! ## What a run leaves as it was -/

/-- A relation between an earlier and a later state that every operation keeps, as long as it writes
names in `W` only. -/
structure Steady (W : Name → Prop) (P : State → State → Prop) : Prop extends Chains P where
  grows {s t : State} : s.Grows t → P s t
  log (event : LoopEvent) : Moves P (Exec.log event)
  nextValue (id : IterId) : Moves P (Exec.nextValue id)
  setElement (id : TableId) (index : Int64) (v : Value) : Moves P (Exec.setElement id index v)
  assign {x : Name} (s : State) (v : Value) : W x → P s { s with env := s.env.assign x v }
  declare {x : Name} (s : State) (v : Value) : W x → P s { s with env := s.env.declare x v }
  close {s t : State} :
    P { s with env := s.env.openScope } t → P s { t with env := t.env.closeScope }

namespace Steady

variable {W : Name → Prop} {P : State → State → Prop} (hP : Steady W P) {α : Type}
include hP

theorem evaluation {x : Exec α} (h : Moves State.Grows x) : Moves P x :=
  h.mono fun _ _ => hP.grows

theorem inScope {x : Exec α} (h : Moves P x) : Moves P (Exec.inScope x) := by
  intro s
  have hs := h { s with env := s.env.openScope }
  unfold Exec.inScope
  generalize x { s with env := s.env.openScope } = r at hs
  cases r with
  | ok a t => exact hP.close hs
  | error e t => exact hP.close hs

theorem declareAll (xs : List Name) (vs : List Value) (h : ∀ x ∈ xs, W x) (s : State) :
    P s { s with env := s.env.declareAll xs vs } := by
  induction xs generalizing vs s with
  | nil => exact hP.refl s
  | cons x xs ih =>
    obtain ⟨hx, hxs⟩ := List.forall_mem_cons.mp h
    exact hP.trans (hP.declare s _ hx) (ih vs.tail hxs _)

end Steady

section Statements

variable {W : Name → Prop} {P : State → State → Prop} (hP : Steady W P)
include hP

theorem Expr.assign_keeps (target : Expr) (v : Value) (h : ∀ x, target.qualifiedName? = some x → W x) :
    Moves P (target.assign v) := by
  have := hP.toChains
  unfold Expr.assign
  split
  · next t k =>
    refine Moves.bind (hP.evaluation t.eval_grows) fun table => ?_
    refine Moves.bind (hP.evaluation k.eval_grows) fun key => ?_
    split
    · exact hP.setElement _ _ _
    · exact Moves.throw _
    · exact Moves.throw _
  · split
    · next x hx => exact Moves.modify fun s => hP.assign s v (h x hx)
    · exact Moves.throw _

theorem Expr.assignAll_keeps (ts : List Expr) (vs : List Value)
    (h : ∀ x ∈ ts.filterMap Expr.qualifiedName?, W x) : Moves P (Expr.assignAll ts vs) := by
  have := hP.toChains
  induction ts generalizing vs with
  | nil => exact Moves.pure _
  | cons t ts ih =>
    have ht : ∀ x, t.qualifiedName? = some x → W x :=
      fun x hx => h x (List.mem_filterMap.mpr ⟨t, List.mem_cons_self, hx⟩)
    have hts : ∀ x ∈ ts.filterMap Expr.qualifiedName?, W x := by
      intro x hx
      obtain ⟨u, hu, hname⟩ := List.mem_filterMap.mp hx
      exact h x (List.mem_filterMap.mpr ⟨u, List.mem_cons_of_mem t hu, hname⟩)
    rw [Expr.assignAll]
    exact Moves.bind (t.assign_keeps hP _ ht) fun _ => ih vs.tail hts

theorem evalBounds_keeps (start limit : Expr) (step : Option Expr) :
    Moves P (evalBounds start limit step) := by
  have := hP.toChains
  have hbound (bound : Bound) (e : Expr) : Moves P (bound.eval e) := by
    refine Moves.bind (hP.evaluation e.eval_grows) fun v => ?_
    split
    · exact Moves.pure _
    · exact Moves.throw _
  refine Moves.bind (hbound .initial start) fun a => ?_
  refine Moves.bind (hbound .limit limit) fun b => ?_
  refine Moves.bind ?_ fun s => ?_
  · cases step with
    | none => exact Moves.pure _
    | some e => exact hbound .step e
  · split
    · exact Moves.throw _
    · exact Moves.pure _

theorem whileLoop_keeps (limit : Nat) {condition : Exec Value} {body : Exec Flow}
    (hc : Moves P condition) (hb : Moves P body) : Moves P (whileLoop limit condition body) := by
  have := hP.toChains
  refine Moves.runPasses hP.log (fun _ => ?_) (fun _ => ?_) _ _
  · exact Moves.bind hc fun _ => Moves.pure _
  · exact Moves.bind (hP.inScope hb) fun flow => Moves.passEnd (Moves.pure _) flow

theorem repeatLoop_keeps (limit : Nat) {condition : Exec Value} {body : Exec Flow}
    (hc : Moves P condition) (hb : Moves P body) : Moves P (repeatLoop limit body condition) := by
  have := hP.toChains
  refine Moves.runPasses hP.log (fun _ => Moves.pure _) (fun _ => ?_) _ _
  refine hP.inScope (Moves.bind hb fun flow => Moves.passEnd ?_ flow)
  exact Moves.bind hc fun _ => Moves.pure _

theorem boundPass_keeps {x : Name} (hx : W x) (v : Value) {body : Exec Flow} (hb : Moves P body) :
    Moves P (Exec.inScope do Exec.modifyEnv (·.declare x v); body) := by
  have := hP.toChains
  exact hP.inScope (Moves.bind (Moves.modify fun s => hP.declare s v hx) fun _ => hb)

theorem forInLoop_keeps (limit : Nat) {x : Name} (hx : W x) {source : Exec Value} {body : Exec Flow}
    (hs : Moves P source) (hb : Moves P body) : Moves P (forInLoop limit x source body) := by
  have := hP.toChains
  refine Moves.bind hs fun v => ?_
  split
  · refine Moves.runPasses hP.log (fun _ => ?_) (fun w => ?_) _ _
    · exact Moves.bind (hP.nextValue _) fun _ => Moves.pure _
    · exact Moves.bind (boundPass_keeps hP hx w hb) fun flow => Moves.passEnd (Moves.pure _) flow
  · exact Moves.throw _

theorem numericLoop_keeps (limit : Nat) {x : Name} (hx : W x) (start last step : Int64)
    {body : Exec Flow} (hb : Moves P body) : Moves P (numericLoop limit x start last step body) := by
  have := hP.toChains
  refine Moves.runPasses hP.log (fun _ => Moves.pure _) (fun n => ?_) _ _
  exact Moves.bind (boundPass_keeps hP hx (.int n) hb) fun flow => Moves.passEnd (Moves.pure _) flow

mutual

/-- A statement that assigns and binds names in `W` only keeps a steady relation. -/
theorem Stmt.exec_steady (limit : Nat) : (s : Stmt) → (∀ x ∈ s.assigns, W x) →
    (∀ x ∈ s.binds, W x) → Moves P (s.exec limit)
  | .expr e, _, _ => by
    have := hP.toChains
    rw [Stmt.exec]
    exact Moves.bind (Moves.bind (hP.evaluation e.eval_grows) fun _ => Moves.pure _)
      fun _ => Moves.pure _
  | .local d, _, hb => by
    have := hP.toChains
    rw [Stmt.exec, Declaration.exec]
    refine Moves.bind (Moves.bind (hP.evaluation (Expr.evalAll_grows d.values)) fun vs => ?_)
      fun _ => Moves.pure _
    exact Moves.modify fun s => hP.declareAll d.names vs hb s
  | .assign ts vs, ha, _ => by
    have := hP.toChains
    rw [Stmt.exec]
    refine Moves.bind (hP.evaluation (Expr.evalAll_grows vs)) fun values => ?_
    exact Moves.bind (Expr.assignAll_keeps hP ts values ha) fun _ => Moves.pure _
  | .loop l, ha, hb => by
    have := hP.toChains
    rw [Stmt.exec]
    exact Moves.bind (hP.log _) fun _ => l.exec_steady limit ha hb
  | .do b, ha, hb => by
    rw [Stmt.exec]
    exact b.exec_steady limit ha hb
  | .if c t none, ha, hb => by
    have := hP.toChains
    rw [Stmt.exec]
    refine Moves.bind (hP.evaluation c.eval_grows) fun v => ?_
    split
    · exact t.exec_steady limit ha hb
    · exact Moves.pure _
  | .if c t (some e), ha, hb => by
    have := hP.toChains
    obtain ⟨hat, hae⟩ := List.forall_mem_append.mp ha
    obtain ⟨hbt, hbe⟩ := List.forall_mem_append.mp hb
    rw [Stmt.exec]
    refine Moves.bind (hP.evaluation c.eval_grows) fun v => ?_
    split
    · exact t.exec_steady limit hat hbt
    · exact e.exec_steady limit hae hbe
  | .break, _, _ => by
    have := hP.toChains
    exact Moves.pure _
  | .return vs, _, _ => by
    have := hP.toChains
    rw [Stmt.exec]
    exact Moves.bind (hP.evaluation (Expr.evalAll_grows vs)) fun _ => Moves.pure _

theorem Block.exec_steady (limit : Nat) : (b : Block) → (∀ x ∈ b.assigns, W x) →
    (∀ x ∈ b.binds, W x) → Moves P (b.exec limit)
  | ⟨_, ss⟩, ha, hb => by
    rw [Block.exec]
    exact hP.inScope (Stmt.execAll_steady limit ss ha hb)

theorem Loop.exec_steady (limit : Nat) : (l : Loop) → (∀ x ∈ l.assigns, W x) →
    (∀ x ∈ l.binds, W x) → Moves P (l.exec limit)
  | .while c ⟨_, ss⟩, ha, hb => by
    rw [Loop.exec]
    exact whileLoop_keeps hP limit (hP.evaluation c.eval_grows) (Stmt.execAll_steady limit ss ha hb)
  | .repeat ⟨_, ss⟩ c, ha, hb => by
    rw [Loop.exec]
    exact repeatLoop_keeps hP limit (hP.evaluation c.eval_grows) (Stmt.execAll_steady limit ss ha hb)
  | .forIn x source ⟨_, ss⟩, ha, hb => by
    obtain ⟨hx, hb⟩ := List.forall_mem_cons.mp hb
    rw [Loop.exec]
    exact forInLoop_keeps hP limit hx (hP.evaluation source.toExpr.eval_grows)
      (Stmt.execAll_steady limit ss ha hb)
  | .numericFor x i l s ⟨_, ss⟩, ha, hb => by
    have := hP.toChains
    obtain ⟨hx, hb⟩ := List.forall_mem_cons.mp hb
    rw [Loop.exec]
    exact Moves.bind (evalBounds_keeps hP i l s) fun _ =>
      numericLoop_keeps hP limit hx _ _ _ (Stmt.execAll_steady limit ss ha hb)

theorem Stmt.execAll_steady (limit : Nat) : (ss : List Stmt) → (∀ x ∈ Stmt.assignsAll ss, W x) →
    (∀ x ∈ Stmt.bindsAll ss, W x) → Moves P (Stmt.execAll limit ss)
  | [], _, _ => by
    have := hP.toChains
    exact Moves.pure _
  | s :: ss, ha, hb => by
    have := hP.toChains
    obtain ⟨has, hass⟩ := List.forall_mem_append.mp ha
    obtain ⟨hbs, hbss⟩ := List.forall_mem_append.mp hb
    rw [Stmt.execAll]
    refine Moves.bind (s.exec_steady limit has hbs) fun flow => ?_
    split
    · exact Stmt.execAll_steady limit ss hass hbss
    · exact Moves.pure _

end

theorem Stmt.execAll_keeps (limit : Nat) (ss : List Stmt) (hu : ∀ x ∈ Stmt.usesAll ss, W x)
    (hb : ∀ x ∈ Stmt.bindsAll ss, W x) : Moves P (Stmt.execAll limit ss) :=
  Stmt.execAll_steady hP limit ss (fun x hx => hu x (Stmt.assignsAll_subset_usesAll ss hx)) hb

end Statements

/-- That the names outside of `W` are bound as they were, in every scope, is steady. -/
theorem steady_frame (W : Name → Prop) :
    Steady W fun s t => s.env.AgreeOn (fun x => ¬ W x) t.env where
  refl s := Env.AgreeOn.refl s.env
  trans h h' := h.trans h'
  grows h := by
    rw [h.env]
    exact Env.AgreeOn.refl _
  log _ := Moves.modify fun s => Env.AgreeOn.refl s.env
  nextValue _ := Moves.modifyGet fun s => Env.AgreeOn.refl s.env
  setElement id index v := by
    intro s
    rw [Exec.setElement_apply]
    cases s.heap.set id index v <;> exact Env.AgreeOn.refl s.env
  assign s v hx := s.env.agreeOn_assign (not_not_intro hx) v
  declare s v hx := s.env.agreeOn_declare (not_not_intro hx) v
  close h := h.closeScope

/-! ## Locality -/

/-- States with environments that agree on the names in `N`, and with the same heap and output. -/
structure State.AgreeOn (N : Name → Prop) (s t : State) : Prop where
  env : s.env.AgreeOn N t.env
  heap : s.heap = t.heap
  output : s.output = t.output

/-- **A run depends only on the names that the program mentions.** Let `N` contain the names that
statements mention. Run from two states that agree on the names in `N`, scope by scope, and have the
same heap and output, they end alike: with the same flow or the same error, in states that agree again
on the names in `N` and have the same heap and output. They add the same entries to the log, and in
each of the two states every name outside of `N` is bound as it was, in every scope. -/
theorem execution_local (limit : Nat) (ss : List Stmt) (N : Name → Prop)
    (hN : ∀ x ∈ Stmt.mentionsAll ss, N x) (s t : State) (h : s.AgreeOn N t) :
    Alike (State.AgreeOn N) (Stmt.execAll limit ss s) (Stmt.execAll limit ss t) ∧
    (∃ added, (endState (Stmt.execAll limit ss s)).events = s.events ++ added ∧
      (endState (Stmt.execAll limit ss t)).events = t.events ++ added) ∧
    s.env.AgreeOn (fun x => ¬ N x) (endState (Stmt.execAll limit ss s)).env ∧
    t.env.AgreeOn (fun x => ¬ N x) (endState (Stmt.execAll limit ss t)).env := by
  obtain ⟨huses, hbinds⟩ := List.forall_mem_append.mp hN
  have hstart : (agreement N s.events t.events).States 1 s t :=
    ⟨h.env, h.heap, h.output, #[], by simp, by simp⟩
  have halike := Stmt.execAll_simulates limit 0 ss huses s t hstart
  have hframe := Stmt.execAll_keeps (steady_frame N) limit ss huses hbinds
  refine ⟨halike.mono fun _ _ h => ⟨h.env, h.heap, h.output⟩, ?_, hframe s, hframe t⟩
  generalize Stmt.execAll limit ss s = r, Stmt.execAll limit ss t = r' at halike
  cases halike with
  | ok h => exact h.events
  | error h => exact h.events

/-- Statements that declare, shadow, count and write a table and a global:
`local x = 1; for i = x, 3 do local x = i; total = total + net.size end; list[x] = total; y = z`. -/
def sumUp : List Stmt :=
  [.local ⟨["x"], [.int 1]⟩,
    .loop (.numericFor "i" (.ident "x") (.int 3) none (.doEnd [
      .local ⟨["x"], [.ident "i"]⟩,
      .set (.ident "total") (.binary .add (.ident "total") (.member (.ident "net") "size"))])),
    .set (.index (.ident "list") (.ident "x")) (.ident "total"),
    .set (.ident "y") (.ident "z")]

def sumNames : List Name :=
  ["x", "i", "net.size", "total", "list", "y", "z"]

/-- A state with a scope open, in which the names that `sumUp` does not mention have the given
value. -/
def sumState (other : Value) : State where
  env := {
    globals := ⟨[("net", other), ("net.size", .int 5), ("total", .int 0), ("other", other)], by simp⟩
    scopes := [⟨[("list", .table 0), ("size", other)], by simp⟩] }
  heap := { tables := #[#[]] }

theorem execution_local_sumUp :
    (∀ x ∈ Stmt.mentionsAll sumUp, x ∈ sumNames) ∧
    (sumState .nil).AgreeOn (· ∈ sumNames) (sumState (.bool true)) ∧
    Alike (State.AgreeOn (· ∈ sumNames)) (Stmt.execAll 10 sumUp (sumState .nil))
      (Stmt.execAll 10 sumUp (sumState (.bool true))) ∧
    (sumState .nil).env.AgreeOn (fun x => ¬ x ∈ sumNames)
      (endState (Stmt.execAll 10 sumUp (sumState .nil))).env := by
  have hmentions : ∀ x ∈ Stmt.mentionsAll sumUp, x ∈ sumNames := by decide
  have hagree : (sumState .nil).AgreeOn (· ∈ sumNames) (sumState (.bool true)) := by
    refine ⟨⟨?_, .cons ?_ .nil⟩, rfl, rfl⟩
    · unfold Scope.AgreeOn
      decide
    · unfold Scope.AgreeOn
      decide
  obtain ⟨halike, -, hframe, -⟩ := execution_local 10 sumUp (· ∈ sumNames) hmentions _ _ hagree
  exact ⟨hmentions, hagree, halike, hframe⟩

end LoopLowering
