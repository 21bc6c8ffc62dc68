import LoopLowering.Loop

/- The loop nodes of a tree. `Stmt.loops`, `Block.loops` and `Loop.loops` list the
   loop nodes of a tree at every depth, so that a rule for all nodes of a tree is a
   rule for the members of a list.

   * `Loop.Obeys` is the rule for the parts of one node, and `Loop.Violates` says
     which error describes a node that breaks it. `Loop.validate_cases` ties both to
     the check of a node.
   * `WellFormed` asks of all nodes that they obey the rule and that their bodies
     have the delimiters of their kind.
   * `Stmt.redelimited` gives the body of every loop those delimiters. Its nodes are
     the nodes of the tree, redelimited (`Stmt.loops_redelimited`), so it is
     well-formed when they obey the rule (`wellFormed_redelimited`); a well-formed
     tree is not changed (`Stmt.redelimited_eq_self`). -/
namespace LoopLowering

/-! ## Nodes -/

mutual

def Stmt.loops : Stmt → List Loop
  | .loop l => l.loops
  | .do b => b.loops
  | .if _ t none => t.loops
  | .if _ t (some e) => t.loops ++ e.loops
  | .expr _ | .local _ | .assign _ _ | .break | .return _ => []

def Block.loops : Block → List Loop
  | ⟨_, ss⟩ => Stmt.loopsAll ss

/-- A loop node and those of its body. -/
def Loop.loops : Loop → List Loop
  | .while c b => .while c b :: b.loops
  | .repeat b c => .repeat b c :: b.loops
  | .forIn x s b => .forIn x s b :: b.loops
  | .numericFor x i l s b => .numericFor x i l s b :: b.loops

def Stmt.loopsAll : List Stmt → List Loop
  | [] => []
  | s :: ss => s.loops ++ Stmt.loopsAll ss

end

theorem Loop.loops_eq (l : Loop) : l.loops = l :: l.body.loops := by
  cases l <;> rfl

theorem Block.loops_eq (b : Block) : b.loops = Stmt.loopsAll b.statements := by
  cases b
  rfl

/-! ## The rule for one node -/

namespace Loop

/-- A loop over values has a variable, and a `for … in` loop draws from a call with exactly one
argument. -/
def Obeys : Loop → Prop
  | .forIn x source _ => x ≠ "" ∧ source.arguments.length = 1
  | .numericFor x _ _ _ _ => x ≠ ""
  | .while _ _ | .repeat _ _ => True

instance decidableObeys : DecidablePred Obeys
  | .forIn x source _ => inferInstanceAs (Decidable (x ≠ "" ∧ source.arguments.length = 1))
  | .numericFor x _ _ _ _ => inferInstanceAs (Decidable (x ≠ ""))
  | .while _ _ | .repeat _ _ => .isTrue trivial

/-- The error describes how the node breaks the rule. -/
inductive Violates : Loop → BuildError → Prop where
  | unnamedElement {source : Call} {body : Block} :
    Violates (.forIn "" source body) (.missingPart .loopVariable)
  | unnamedCounter {start limit : Expr} {step : Option Expr} {body : Block} :
    Violates (.numericFor "" start limit step body) (.missingPart .loopVariable)
  | noIterable {x : Name} {source : Call} {body : Block} :
    source.arguments = [] → Violates (.forIn x source body) (.missingPart .iterable)
  | manyArguments {x : Name} {source : Call} {body : Block} :
    2 ≤ source.arguments.length →
      Violates (.forIn x source body) (.argumentCount source.arguments.length)

theorem Violates.not_obeys {l : Loop} {e : BuildError} (h : l.Violates e) : ¬ l.Obeys := by
  cases h with
  | unnamedElement => exact fun ho => ho.1 rfl
  | unnamedCounter => exact fun ho => ho rfl
  | noIterable hs => intro ho; simp [Obeys, hs] at ho
  | manyArguments hs => intro ho; have := ho.2; omega

/-- The check of a node accepts it when it obeys the rule and else describes how it breaks it. -/
theorem validate_cases (l : Loop) :
    (l.Obeys ∧ l.validate = .ok l.normalised) ∨ ∃ e, l.Violates e ∧ l.validate = .error e := by
  cases l with
  | «while» c b => exact .inl ⟨trivial, rfl⟩
  | «repeat» b c => exact .inl ⟨trivial, rfl⟩
  | forIn x source b =>
    obtain ⟨callee, arguments⟩ := source
    by_cases hx : x = ""
    · subst hx
      exact .inr ⟨_, .unnamedElement, rfl⟩
    · have hpresent : x.isAbsent = false := by simp [Name.isAbsent, hx]
      simp only [validate, hpresent, Bool.false_eq_true, if_false]
      match arguments with
      | [] => exact .inr ⟨_, .noIterable rfl, rfl⟩
      | [_] => exact .inl ⟨⟨hx, rfl⟩, rfl⟩
      | _ :: _ :: _ => exact .inr ⟨_, .manyArguments (by simp), rfl⟩
  | numericFor x i l s b =>
    by_cases hx : x = ""
    · subst hx
      exact .inr ⟨_, .unnamedCounter, rfl⟩
    · have hpresent : x.isAbsent = false := by simp [Name.isAbsent, hx]
      exact .inl ⟨hx, by simp only [validate, hpresent, Bool.false_eq_true, if_false]⟩

theorem obeys_mapBody (f : Block → Block) (l : Loop) : (l.mapBody f).Obeys ↔ l.Obeys := by
  cases l <;> exact Iff.rfl

theorem violates_mapBody {f : Block → Block} {l : Loop} {e : BuildError} :
    (l.mapBody f).Violates e → l.Violates e := by
  intro h
  cases l with
  | «while» c b => cases h
  | «repeat» b c => cases h
  | forIn x source b =>
    generalize hl : (Loop.forIn x source b).mapBody f = m at h
    cases h with
    | unnamedElement => cases hl; exact .unnamedElement
    | unnamedCounter => cases hl
    | noIterable hs => cases hl; exact .noIterable hs
    | manyArguments hs => cases hl; exact .manyArguments hs
  | numericFor x i l s b =>
    generalize hl : (Loop.numericFor x i l s b).mapBody f = m at h
    cases h with
    | unnamedCounter => cases hl; exact .unnamedCounter
    | unnamedElement => cases hl
    | noIterable hs => cases hl
    | manyArguments hs => cases hl

end Loop

/-! ## Well-formed trees -/

/-- All nodes obey the rule, and the body of each has the delimiters of its kind. -/
def WellFormed (nodes : List Loop) : Prop :=
  ∀ l ∈ nodes, l.Obeys ∧ l.body.delimiters = l.kind.delimiters

theorem wellFormed_append {as bs : List Loop} :
    WellFormed (as ++ bs) ↔ WellFormed as ∧ WellFormed bs :=
  List.forall_mem_append

theorem wellFormed_cons {l : Loop} {ls : List Loop} :
    WellFormed (l :: ls) ↔
      (l.Obeys ∧ l.body.delimiters = l.kind.delimiters) ∧ WellFormed ls :=
  List.forall_mem_cons

/-- The collection of a `for … in` loop that obeys the rule is there, and stays the same whatever is
done to the body. -/
theorem Loop.Obeys.iterable {l : Loop} (h : l.Obeys) (hk : l.kind = .forIn) :
    ∃ e, ∀ f, (l.mapBody f).iterable? = some e := by
  cases l with
  | «while» c b => cases hk
  | «repeat» b c => cases hk
  | forIn x source b =>
    obtain ⟨e, he⟩ := List.length_eq_one_iff.mp h.2
    refine ⟨e, fun f => ?_⟩
    show source.arguments.head? = some e
    rw [he]
    rfl
  | numericFor x i l s b => cases hk

/-! ## Delimiters of bodies -/

mutual

/-- The statement with the delimiters of its kind around the body of every loop. -/
def Stmt.redelimited : Stmt → Stmt
  | .expr e => .expr e
  | .local d => .local d
  | .assign ts vs => .assign ts vs
  | .loop l => .loop l.redelimited
  | .do b => .do b.redelimited
  | .if c t none => .if c t.redelimited none
  | .if c t (some e) => .if c t.redelimited (some e.redelimited)
  | .break => .break
  | .return vs => .return vs

/-- The block with its loops redelimited; its own delimiters stay. -/
def Block.redelimited : Block → Block
  | ⟨d, ss⟩ => ⟨d, Stmt.redelimitedAll ss⟩

/-- The loop with the delimiters of its kind around its body, and the loops of the body
redelimited. -/
def Loop.redelimited : Loop → Loop
  | .while c ⟨_, ss⟩ => .while c (.doEnd (Stmt.redelimitedAll ss))
  | .repeat ⟨_, ss⟩ c => .repeat (.bare (Stmt.redelimitedAll ss)) c
  | .forIn x s ⟨_, ss⟩ => .forIn x s (.doEnd (Stmt.redelimitedAll ss))
  | .numericFor x i l s ⟨_, ss⟩ => .numericFor x i l s (.doEnd (Stmt.redelimitedAll ss))

def Stmt.redelimitedAll : List Stmt → List Stmt
  | [] => []
  | s :: ss => s.redelimited :: Stmt.redelimitedAll ss

end

namespace Loop

theorem redelimited_eq : (l : Loop) → l.redelimited = (l.mapBody Block.redelimited).normalised
  | .while _ ⟨_, _⟩ | .repeat ⟨_, _⟩ _ | .forIn _ _ ⟨_, _⟩ | .numericFor _ _ _ _ ⟨_, _⟩ => rfl

theorem obeys_redelimited (l : Loop) : l.redelimited.Obeys ↔ l.Obeys := by
  rw [l.redelimited_eq, normalised, obeys_mapBody, obeys_mapBody]

theorem delimiters_redelimited (l : Loop) :
    l.redelimited.body.delimiters = l.redelimited.kind.delimiters := by
  rw [l.redelimited_eq, normalised]
  simp only [body_mapBody, kind_mapBody]
  rfl

theorem loops_body_redelimited (l : Loop) :
    l.redelimited.body.loops = l.body.redelimited.loops := by
  rw [l.redelimited_eq, normalised, body_mapBody, body_mapBody, Block.loops_eq, Block.loops_eq]
  rfl

end Loop

mutual

theorem Stmt.loops_redelimited : (s : Stmt) → s.redelimited.loops = s.loops.map Loop.redelimited
  | .expr _ | .local _ | .assign _ _ | .break | .return _ => rfl
  | .loop l => l.loops_redelimited
  | .do b => b.loops_redelimited
  | .if _ t none => t.loops_redelimited
  | .if _ t (some e) => by
    rw [Stmt.redelimited, Stmt.loops, Stmt.loops, List.map_append, t.loops_redelimited,
      e.loops_redelimited]

theorem Block.loops_redelimited : (b : Block) → b.redelimited.loops = b.loops.map Loop.redelimited
  | ⟨_, ss⟩ => Stmt.loopsAll_redelimited ss

theorem Loop.loops_redelimited : (l : Loop) → l.redelimited.loops = l.loops.map Loop.redelimited
  | .while _ b | .repeat b _ | .forIn _ _ b | .numericFor _ _ _ _ b => by
    rw [Loop.loops_eq, Loop.loops_body_redelimited, Loop.loops_eq, List.map_cons]
    exact congrArg _ b.loops_redelimited

theorem Stmt.loopsAll_redelimited : (ss : List Stmt) →
    Stmt.loopsAll (Stmt.redelimitedAll ss) = (Stmt.loopsAll ss).map Loop.redelimited
  | [] => rfl
  | s :: ss => by
    rw [Stmt.redelimitedAll, Stmt.loopsAll, Stmt.loopsAll, List.map_append, s.loops_redelimited,
      Stmt.loopsAll_redelimited ss]

end

/-- A redelimited tree is well-formed when the nodes of the tree obey the rule. -/
theorem wellFormed_redelimited {nodes : List Loop} (h : ∀ l ∈ nodes, l.Obeys) :
    WellFormed (nodes.map Loop.redelimited) := by
  intro l hl
  obtain ⟨k, hk, rfl⟩ := List.mem_map.mp hl
  exact ⟨k.obeys_redelimited.mpr (h k hk), k.delimiters_redelimited⟩

mutual

/-- A statement whose loops have the right delimiters is not changed. -/
theorem Stmt.redelimited_eq_self : (s : Stmt) → WellFormed s.loops → s.redelimited = s
  | .expr _, _ | .local _, _ | .assign _ _, _ | .break, _ | .return _, _ => rfl
  | .loop l, h => congrArg Stmt.loop (l.redelimited_eq_self h)
  | .do b, h => congrArg Stmt.do (b.redelimited_eq_self h)
  | .if c t none, h => by
    rw [Stmt.redelimited, t.redelimited_eq_self h]
  | .if c t (some e), h => by
    obtain ⟨ht, he⟩ := wellFormed_append.mp h
    rw [Stmt.redelimited, t.redelimited_eq_self ht, e.redelimited_eq_self he]

theorem Block.redelimited_eq_self : (b : Block) → WellFormed b.loops → b.redelimited = b
  | ⟨_, ss⟩, h => congrArg (Block.mk _) (Stmt.redelimitedAll_eq_self ss h)

theorem Loop.redelimited_eq_self : (l : Loop) → WellFormed l.loops → l.redelimited = l
  | .while _ ⟨_, ss⟩, h | .repeat ⟨_, ss⟩ _, h | .forIn _ _ ⟨_, ss⟩, h
  | .numericFor _ _ _ _ ⟨_, ss⟩, h => by
    obtain ⟨⟨-, hd⟩, hss⟩ := wellFormed_cons.mp h
    cases hd
    rw [Loop.redelimited, Stmt.redelimitedAll_eq_self ss hss]
    rfl

theorem Stmt.redelimitedAll_eq_self :
    (ss : List Stmt) → WellFormed (Stmt.loopsAll ss) → Stmt.redelimitedAll ss = ss
  | [], _ => rfl
  | s :: ss, h => by
    obtain ⟨hs, hss⟩ := wellFormed_append.mp h
    rw [Stmt.redelimitedAll, s.redelimited_eq_self hs, Stmt.redelimitedAll_eq_self ss hss]

end

end LoopLowering
