import LoopLowering.Proofs.Simulation
import LoopLowering.Proofs.Scopes

/- Environments that differ in names out of use. Two environments are `Parallel`
   when their globals are the same, the scopes opened last agree on the names in
   use, and the stacks below them are related by a `Ground`: they are the same
   (`Ground.same`), or one of them has a further scope on top that binds no name in
   use (`Ground.covered`). Programs cannot tell parallel environments apart
   (`parallel`), and when the scopes opened are closed again, what was the same below
   them is the same still. -/
namespace LoopLowering

/-- A relation between the stacks below the scopes that were opened, which lookups and assignments of
names in `N` respect. -/
structure Ground (N : Name → Prop) where
  related : List Scope → List Scope → Prop
  lookup {ss ss' : List Scope} {x : Name} :
    related ss ss' → N x → Env.lookupIn x ss = Env.lookupIn x ss'
  assign {ss ss' : List Scope} {x : Name} (v : Value) :
    related ss ss' → N x → Option.Rel related (Env.assignIn x v ss) (Env.assignIn x v ss')

namespace Ground

def same (N : Name → Prop) : Ground N where
  related := Eq
  lookup h _ := by rw [h]
  assign {ss ss' x} v h _ := by
    subst h
    cases Env.assignIn x v ss with
    | none => exact .none
    | some r => exact .some rfl

/-- The left stack has one more scope, which binds no name in use. -/
def covered (N : Name → Prop) : Ground N where
  related ss ss' := ∃ cover, ss = cover :: ss' ∧ ∀ x, N x → cover.get? x = none
  lookup {ss ss' x} h hx := by
    obtain ⟨cover, rfl, hc⟩ := h
    rw [Env.lookupIn, hc x hx, Option.none_or]
  assign {ss ss' x} v h hx := by
    obtain ⟨cover, rfl, hc⟩ := h
    -- the cover does not bind the name, so both sides write below it
    rw [Env.assignIn, hc x hx]
    cases Env.assignIn x v ss' with
    | none => exact .none
    | some r => exact .some ⟨cover, rfl, hc⟩

end Ground

/-- Stacks with `k` scopes on top that agree on the names in `N`, above stacks that the ground
relates. -/
inductive StacksAgree {N : Name → Prop} (G : Ground N) : Nat → List Scope → List Scope → Prop where
  | ground {ss ss' : List Scope} : G.related ss ss' → StacksAgree G 0 ss ss'
  | scope {k : Nat} {a b : Scope} {ss ss' : List Scope} :
    (∀ x, N x → a.get? x = b.get? x) → StacksAgree G k ss ss' →
      StacksAgree G (k + 1) (a :: ss) (b :: ss')

namespace StacksAgree

variable {N : Name → Prop} {G : Ground N} {k : Nat} {ss ss' : List Scope} {x : Name}

theorem lookup (h : StacksAgree G k ss ss') (hx : N x) :
    Env.lookupIn x ss = Env.lookupIn x ss' := by
  induction h with
  | ground h => exact G.lookup h hx
  | scope hab _ ih => rw [Env.lookupIn, Env.lookupIn, hab x hx, ih]

theorem assign (h : StacksAgree G k ss ss') (hx : N x) (v : Value) :
    Option.Rel (StacksAgree G k) (Env.assignIn x v ss) (Env.assignIn x v ss') := by
  induction h with
  | @ground ss ss' h =>
    have hr := G.assign v h hx
    generalize Env.assignIn x v ss = r, Env.assignIn x v ss' = r' at hr ⊢
    cases hr with
    | none => exact .none
    | some h => exact .some (.ground h)
  | @scope k a b ss ss' hab h ih =>
    rw [Env.assignIn, Env.assignIn, hab x hx]
    -- the scopes on top both bind the name or both do not
    by_cases hb : (b.get? x).isSome = true
    · rw [if_pos hb, if_pos hb]
      refine .some (.scope (fun y hy => ?_) h)
      rw [Scope.get?_insert, Scope.get?_insert, hab y hy]
    · rw [if_neg hb, if_neg hb]
      generalize Env.assignIn x v ss = r, Env.assignIn x v ss' = r' at ih
      cases ih with
      | none => exact .none
      | some h => exact .some (.scope hab h)

end StacksAgree

/-- Environments with the same globals and with stacks that agree. -/
structure Env.Parallel {N : Name → Prop} (G : Ground N) (k : Nat) (e e' : Env) : Prop where
  globals : e.globals = e'.globals
  scopes : StacksAgree G k e.scopes e'.scopes

/-- Programs that use names in `N` only respect parallel environments. Their logs may differ. -/
def parallel {N : Name → Prop} (G : Ground N) : Coupling N where
  envs := Env.Parallel G
  logs _ _ := True
  lookup h hx := by
    unfold Env.lookup
    rw [h.scopes.lookup hx, h.globals]
  assign {k e e' x} v h hx := by
    have hr := h.scopes.assign hx v
    unfold Env.assign
    generalize Env.assignIn x v e.scopes = r, Env.assignIn x v e'.scopes = r' at hr
    cases hr with
    | none => exact ⟨congrArg (Scope.insert · x v) h.globals, h.scopes⟩
    | some hr => exact ⟨h.globals, hr⟩
  declare {k e e'} x v h := by
    obtain ⟨g, ss⟩ := e
    obtain ⟨g', ss'⟩ := e'
    obtain ⟨hg, hs⟩ := h
    cases hs with
    | scope hab hs =>
      refine ⟨hg, .scope (fun y hy => ?_) hs⟩
      rw [Scope.get?_insert, Scope.get?_insert, hab y hy]
  openScope h := ⟨h.globals, .scope (fun _ _ => rfl) h.scopes⟩
  closeScope {k e e'} h := by
    obtain ⟨g, ss⟩ := e
    obtain ⟨g', ss'⟩ := e'
    obtain ⟨hg, hs⟩ := h
    cases hs with
    | scope _ hs => exact ⟨hg, hs⟩
  log _ _ := trivial

end LoopLowering
