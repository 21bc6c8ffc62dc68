import LoopLowering.Lowering

/- Where `return` may stand. In the target language a `return` is the last statement
   of its block (`Stmt.returnsLast`). Lowering joins lists of statements, and a list
   that ends in `return` can only be joined with nothing
   (`Stmt.returnsLastAll_append`).

   The parts of a source loop that obey the rule are joined to a statement that obeys
   it, with one exception: the incrementors of a counted loop are put after its body,
   also when the body ends in `return`. -/
namespace LoopLowering

/-! ## The rule -/

def Stmt.isReturn : Stmt → Bool
  | .return _ => true
  | _ => false

mutual

/-- Whether every `return` in the statement is the last statement of its block. -/
def Stmt.returnsLast : Stmt → Bool
  | .expr _ | .local _ | .assign _ _ | .break | .return _ => true
  | .loop l => l.returnsLast
  | .do b => b.returnsLast
  | .if _ t none => t.returnsLast
  | .if _ t (some e) => t.returnsLast && e.returnsLast

def Block.returnsLast : Block → Bool
  | ⟨_, ss⟩ => Stmt.returnsLastAll ss

def Loop.returnsLast : Loop → Bool
  | .while _ b => b.returnsLast
  | .repeat b _ => b.returnsLast
  | .forIn _ _ b => b.returnsLast
  | .numericFor _ _ _ _ b => b.returnsLast

/-- Whether every `return` in the statements, which make up a block, is the last statement of its
block. -/
def Stmt.returnsLastAll : List Stmt → Bool
  | [] => true
  | s :: ss => s.returnsLast && (ss.isEmpty || !s.isReturn) && Stmt.returnsLastAll ss

end

def Stmt.endInReturn (ss : List Stmt) : Bool :=
  ss.getLast?.any Stmt.isReturn

/-! ## Joined statements -/

theorem Stmt.endInReturn_eq_false {ss : List Stmt} (h : ∀ s ∈ ss, s.isReturn = false) :
    Stmt.endInReturn ss = false := by
  unfold Stmt.endInReturn
  cases hlast : ss.getLast? with
  | none => rfl
  | some s => exact h s (List.mem_of_getLast? hlast)

/-- Statements may follow other statements if these do not end in `return`. -/
theorem Stmt.returnsLastAll_append (ss ts : List Stmt) :
    Stmt.returnsLastAll (ss ++ ts) = true ↔
      Stmt.returnsLastAll ss = true ∧ Stmt.returnsLastAll ts = true ∧
        (Stmt.endInReturn ss = true → ts = []) := by
  induction ss with
  | nil => simp [Stmt.returnsLastAll, Stmt.endInReturn]
  | cons s ss ih =>
    cases ss with
    | nil =>
      simp only [List.singleton_append, Stmt.returnsLastAll, Stmt.endInReturn, List.getLast?_singleton,
        Option.any_some, List.isEmpty_nil, Bool.true_or, Bool.and_true, Bool.and_eq_true,
        Bool.or_eq_true, List.isEmpty_iff, Bool.not_eq_true']
      cases s.isReturn <;> simp [and_comm, and_left_comm, and_assoc]
    | cons s' ss =>
      -- the last statement is that of the rest, to which the hypothesis applies
      have hlast : Stmt.endInReturn (s :: s' :: ss) = Stmt.endInReturn (s' :: ss) := rfl
      have hcons (us : List Stmt) : Stmt.returnsLastAll (s :: s' :: us) = true ↔
          (s.returnsLast = true ∧ s.isReturn = false) ∧ Stmt.returnsLastAll (s' :: us) = true := by
        rw [Stmt.returnsLastAll]
        simp
      rw [hlast, List.cons_append, List.cons_append, hcons, hcons, ← List.cons_append, ih]
      simp only [and_assoc]

/-- Statements without `return` may stand before any others. -/
theorem Stmt.returnsLastAll_append_of_free {ss : List Stmt} (h : ∀ s ∈ ss, s.isReturn = false)
    (ts : List Stmt) : Stmt.returnsLastAll (ss ++ ts) = true ↔
      Stmt.returnsLastAll ss = true ∧ Stmt.returnsLastAll ts = true := by
  rw [Stmt.returnsLastAll_append, Stmt.endInReturn_eq_false h]
  simp

/-! ## Lowered loops -/

/-- The parts of the loop obey the rule, and no `return` stands among the initialisers and the
incrementors of a counted loop. -/
def SourceLoop.returnsLast : SourceLoop → Bool
  | .while _ b => b.returnsLast
  | .doWhile _ b => b.returnsLast
  | .foreach _ _ b => b.returnsLast
  | .counted c =>
    c.body.returnsLast && Stmt.returnsLastAll c.initializers && Stmt.returnsLastAll c.incrementors &&
      c.initializers.all (!·.isReturn) && c.incrementors.all (!·.isReturn)

/-- Whether the loop is a counted one with incrementors whose body ends in `return`. -/
def SourceLoop.incrementsAfterReturn : SourceLoop → Bool
  | .counted c => Stmt.endInReturn c.body.statements && !c.incrementors.isEmpty
  | _ => false

theorem Block.returnsLast_eq (b : Block) : b.returnsLast = Stmt.returnsLastAll b.statements := by
  cases b
  rfl

/-- A loop that is built with an empty body and then filled has the statements it was filled with. -/
theorem Loop.returnsLast_append {l : Loop} (h : l.body.statements = []) (ss : List Stmt) :
    (Stmt.loop (l.append ss)).returnsLast = Stmt.returnsLastAll ss := by
  have hbody : ((l.append ss).body).statements = ss := by
    rw [Loop.append, Loop.body_mapBody, Block.statements_append, h, List.nil_append]
  have hloop : (Stmt.loop (l.append ss)).returnsLast = (l.append ss).body.returnsLast := by
    cases l <;> rfl
  rw [hloop, Block.returnsLast_eq, hbody]

theorem Loop.newForIn_body {adapter : Name} {x : Option Name} {e : Option Expr} {l : Loop}
    (h : Loop.newForIn adapter x e = .ok l) : l.body.statements = [] := by
  unfold Loop.newForIn at h
  cases hx : Loop.requireName x with
  | error err =>
    rw [hx] at h
    cases h
  | ok y =>
    rw [hx] at h
    cases e with
    | none => cases h
    | some e =>
      cases h
      rfl

/-- A counted loop is lowered to a block that obeys the rule, unless incrementors stand after a
`return`. -/
theorem CountedLoop.returnsLast_lower {c : CountedLoop}
    (h : (SourceLoop.counted c).returnsLast = true) :
    (Stmt.do c.lower).returnsLast = true ↔
      (SourceLoop.counted c).incrementsAfterReturn = false := by
  simp only [SourceLoop.returnsLast, Bool.and_eq_true, List.all_eq_true, Bool.not_eq_true'] at h
  obtain ⟨⟨⟨⟨hbody, hinit⟩, hincr⟩, hinitFree⟩, hincrFree⟩ := h
  rw [Block.returnsLast_eq] at hbody
  -- what stands before the loop has no `return`
  have hbefore : ∀ s ∈ c.declaration.toList.map Stmt.local ++ c.initializers, s.isReturn = false := by
    intro s hs
    rcases List.mem_append.mp hs with hs | hs
    · obtain ⟨d, -, rfl⟩ := List.mem_map.mp hs
      rfl
    · exact hinitFree s hs
  have hdeclared : Stmt.returnsLastAll (c.declaration.toList.map Stmt.local ++ c.initializers) = true := by
    refine (Stmt.returnsLastAll_append_of_free ?_ _).mpr ⟨?_, hinit⟩
    · exact fun s hs => hbefore s (List.mem_append_left _ hs)
    · cases c.declaration <;> rfl
  have hloop : (Stmt.loop c.whileLoop).returnsLast =
      Stmt.returnsLastAll (c.body.statements ++ c.incrementors) :=
    Loop.returnsLast_append rfl _
  have hlower : (Stmt.do c.lower).returnsLast = true ↔
      Stmt.returnsLastAll (c.body.statements ++ c.incrementors) = true := by
    show Stmt.returnsLastAll (_ ++ [Stmt.loop c.whileLoop]) = true ↔ _
    rw [Stmt.returnsLastAll_append_of_free hbefore, hdeclared, Stmt.returnsLastAll, hloop]
    simp [Stmt.returnsLastAll]
  rw [hlower, Stmt.returnsLastAll_append, hbody, hincr, SourceLoop.incrementsAfterReturn]
  cases Stmt.endInReturn c.body.statements <;> cases c.incrementors <;> simp

/-- **Where lowered loops return.** Let every `return` in the parts of a source loop be the last
statement of its block, and let none stand among the initialisers and incrementors themselves. If the
loop can be lowered, then every `return` in the statement that results is the last one of its block,
unless the loop is a counted one that has incrementors and whose body ends in `return`: then there is
one that is not. -/
theorem lowered_returns_last_iff (adapter : Name) (l : SourceLoop) (h : l.returnsLast = true) (t : Stmt)
    (ht : l.lower adapter = .ok t) :
    t.returnsLast = true ↔ l.incrementsAfterReturn = false := by
  -- all loops but the counted one are a loop node filled with the body
  have hfilled {node : Loop} (hnode : node.body.statements = []) {b : Block}
      (hb : b.returnsLast = true) : (Stmt.loop (node.append b.statements)).returnsLast = true := by
    rw [Loop.returnsLast_append hnode, ← Block.returnsLast_eq, hb]
  cases l with
  | «while» c b =>
    cases ht
    exact iff_of_true (hfilled rfl h) rfl
  | doWhile c b =>
    cases c with
    | none => cases ht
    | some c =>
      cases ht
      exact iff_of_true (hfilled rfl h) rfl
  | counted c =>
    cases ht
    exact CountedLoop.returnsLast_lower h
  | foreach x e b =>
    rw [SourceLoop.lower] at ht
    cases hnode : Loop.newForIn adapter x e with
    | error err =>
      rw [hnode] at ht
      cases ht
    | ok node =>
      rw [hnode] at ht
      cases ht
      exact iff_of_true (hfilled (Loop.newForIn_body hnode) h) rfl

/-- The loop `for (local i = 0; i < 3; i = i + 1) { if i then return i end; print(i) }`. -/
def searchLoop : CountedLoop where
  declaration := some ⟨["i"], [.int 0]⟩
  condition := some (.binary .lt (.ident "i") (.int 3))
  body := .doEnd [
    .if (.ident "i") (.bare [.return [.ident "i"]]) none,
    .expr (.call (.ident "print") [.ident "i"])]
  incrementors := [.set (.ident "i") (.binary .add (.ident "i") (.int 1))]

theorem lowered_returns_last_iff_searchLoop :
    (SourceLoop.counted searchLoop).returnsLast = true ∧
    (SourceLoop.counted searchLoop).lower Name.defaultAdapter = .ok (.do searchLoop.lower) ∧
    ((Stmt.do searchLoop.lower).returnsLast = true ↔
      (SourceLoop.counted searchLoop).incrementsAfterReturn = false) := by
  have hparts : (SourceLoop.counted searchLoop).returnsLast = true := by decide
  exact ⟨hparts, rfl, lowered_returns_last_iff Name.defaultAdapter _ hparts _ rfl⟩

/-- The loop `for (local i = 0; i < 3; i = i + 1) { return i }`. -/
def returningLoop : CountedLoop where
  declaration := some ⟨["i"], [.int 0]⟩
  condition := some (.binary .lt (.ident "i") (.int 3))
  body := .doEnd [.return [.ident "i"]]
  incrementors := [.set (.ident "i") (.binary .add (.ident "i") (.int 1))]

/-- The parts of `returningLoop` obey the rule, but in the lowered loop the incrementor stands after
`return`. -/
theorem incrementor_after_return :
    (SourceLoop.counted returningLoop).returnsLast = true ∧
    ∃ t, (SourceLoop.counted returningLoop).lower Name.defaultAdapter = .ok t ∧
      t.returnsLast = false := by
  refine ⟨by decide, .do returningLoop.lower, rfl, ?_⟩
  decide

end LoopLowering
