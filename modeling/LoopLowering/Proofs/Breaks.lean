import LoopLowering.Lowering
import LoopLowering.Proofs.Endings
import LoopLowering.Run.Program

/- Where `break` ends up. A `break` travels outwards through statement lists, blocks and
   branches as a way for them to end, and the innermost loop around it consumes it. So
   a statement can only end with `break` if a `break` stands in it outside of every
   loop (`Stmt.breaks`, `Stmt.exec_contained`).

   A program without such a `break` is never reported for one, and neither is a lowered
   loop, whatever its body and its incrementors are: they are inside of a loop. -/
namespace LoopLowering

mutual

/-- Whether a `break` stands in the statement outside of every loop. -/
def Stmt.breaks : Stmt → Bool
  | .break => true
  | .do b => b.breaks
  | .if _ t none => t.breaks
  | .if _ t (some e) => t.breaks || e.breaks
  | .expr _ | .local _ | .assign _ _ | .loop _ | .return _ => false

def Block.breaks : Block → Bool
  | ⟨_, ss⟩ => Stmt.breaksAny ss

def Stmt.breaksAny : List Stmt → Bool
  | [] => false
  | s :: ss => s.breaks || Stmt.breaksAny ss

end

theorem Stmt.breaksAny_append (ss ss' : List Stmt) :
    Stmt.breaksAny (ss ++ ss') = (Stmt.breaksAny ss || Stmt.breaksAny ss') := by
  induction ss with
  | nil => rfl
  | cons s ss ih => rw [List.cons_append, Stmt.breaksAny, Stmt.breaksAny, ih, Bool.or_assoc]

/-! ## Statements -/

abbrev NotBreak (e : RunError) : Prop := e ≠ .breakOutsideLoop

/-- Only where `breaks` holds does a run end with `break`, and no run is reported for one. -/
abbrev Contained (breaks : Bool) (x : Exec Flow) : Prop :=
  Ends NotBreak (fun flow => flow = .broke → breaks = true) x

theorem FailsOnly.notBreak {α : Type} {x : Exec α} (h : FailsOnly NotControl x) :
    FailsOnly NotBreak x := by
  apply h.mono
  · rintro _ hcontrol rfl
    cases hcontrol
  · exact fun _ _ => trivial

theorem Contained.failsOnly {breaks : Bool} {x : Exec Flow} (h : Contained breaks x) :
    FailsOnly NotBreak x :=
  h.mono (fun _ he => he) fun _ _ => trivial

theorem contained_normal (breaks : Bool) : Contained breaks (pure .normal) :=
  Ends.pure (by simp)

/-- Loops consume every `break`. -/
theorem contained_of_ne {x : Exec Flow} (h : Ends NotBreak (· ≠ .broke) x) : Contained false x :=
  h.mono (fun _ he => he) fun _ hne hbroke => absurd hbroke hne

section Loops

variable {limit : Nat} {body : Exec Flow} (h : FailsOnly NotBreak body)

include h

theorem whileLoop_contained {condition : Exec Value} (hc : FailsOnly NotBreak condition) :
    Contained false (whileLoop limit condition body) := by
  apply contained_of_ne
  apply Ends.runPasses (by simp)
  · exact fun _ => .bind hc fun _ => .pure _
  · exact fun _ => .bind h.inScope fun flow => .passEnd (.pure _) flow

theorem repeatLoop_contained {condition : Exec Value} (hc : FailsOnly NotBreak condition) :
    Contained false (repeatLoop limit body condition) := by
  apply contained_of_ne
  apply Ends.runPasses (by simp)
  · exact fun _ => .pure _
  · exact fun _ => Ends.inScope <| FailsOnly.bind h fun flow =>
      .passEnd (.bind hc fun _ => .pure _) flow

theorem boundPass_failsOnly {β : Type} (x : Name) (v : Value) (next : PassEnd β) :
    FailsOnly NotBreak (do
      (← Exec.inScope do Exec.modifyEnv (·.declare x v); body).passEnd (pure next)) := by
  have hscope : FailsOnly NotBreak (Exec.inScope do Exec.modifyEnv (·.declare x v); body) :=
    Ends.inScope (FailsOnly.bind (.modify _) fun _ => h)
  exact .bind hscope fun flow => .passEnd (.pure _) flow

theorem forInLoop_contained (x : Name) {source : Exec Value} (hs : FailsOnly NotBreak source) :
    Contained false (forInLoop limit x source body) := by
  apply contained_of_ne
  refine Ends.bind hs fun v _ => ?_
  cases v with
  | iter id =>
    apply Ends.runPasses (by simp)
    · exact fun _ => .bind (.modifyGet _) fun _ => .pure _
    · exact fun v => boundPass_failsOnly h x v _
  | nil | bool _ | int _ | str _ | table _ | builtin _ => exact Ends.throw (by simp)

theorem numericLoop_contained (x : Name) (start last step : Int64) :
    Contained false (numericLoop limit x start last step body) := by
  apply contained_of_ne
  apply Ends.runPasses (by simp)
  · exact fun _ => .pure _
  · exact fun current => boundPass_failsOnly h x (.int current) _

end Loops

mutual

/-- **A statement ends with `break` only if one stands in it outside of every loop.** -/
theorem Stmt.exec_contained (limit : Nat) : (s : Stmt) → Contained s.breaks (s.exec limit)
  | .expr e => by
    rw [Stmt.exec]
    refine Ends.bind (FailsOnly.bind e.eval_failsOnly.notBreak fun _ => .pure _) fun _ _ => ?_
    exact contained_normal _
  | .local d => by
    rw [Stmt.exec]
    have hvalues := (Expr.evalAll_failsOnly d.values).notBreak
    exact Ends.bind (FailsOnly.bind hvalues fun _ => .modify _) fun _ _ => contained_normal _
  | .assign ts vs => by
    rw [Stmt.exec]
    refine Ends.bind (Expr.evalAll_failsOnly vs).notBreak fun values _ => ?_
    exact Ends.bind (Expr.assignAll_failsOnly ts values).notBreak fun _ _ => contained_normal _
  | .loop l => by
    rw [Stmt.exec]
    exact Ends.bind (FailsOnly.modify _) fun _ _ => l.exec_contained limit
  | .do b => by
    rw [Stmt.exec, Stmt.breaks]
    exact b.exec_contained limit
  | .if c t none => by
    rw [Stmt.exec, Stmt.breaks]
    refine Ends.bind c.eval_failsOnly.notBreak fun v _ => ?_
    split
    · exact t.exec_contained limit
    · exact contained_normal _
  | .if c t (some e) => by
    rw [Stmt.exec, Stmt.breaks]
    refine Ends.bind c.eval_failsOnly.notBreak fun v _ => ?_
    -- the branch that is run is one of the two
    split
    · exact (t.exec_contained limit).mono (fun _ he => he) fun _ h hbroke => by simp [h hbroke]
    · exact (e.exec_contained limit).mono (fun _ he => he) fun _ h hbroke => by simp [h hbroke]
  | .break => Ends.pure fun _ => rfl
  | .return vs => by
    rw [Stmt.exec]
    exact Ends.bind (Expr.evalAll_failsOnly vs).notBreak fun _ _ => Ends.pure (by simp)

theorem Block.exec_contained (limit : Nat) : (b : Block) → Contained b.breaks (b.exec limit)
  | ⟨_, ss⟩ => by
    rw [Block.exec, Block.breaks]
    exact (Stmt.execAll_contained limit ss).inScope

theorem Loop.exec_contained (limit : Nat) : (l : Loop) → Contained false (l.exec limit)
  | .while c ⟨_, ss⟩ => by
    rw [Loop.exec]
    exact whileLoop_contained (Stmt.execAll_contained limit ss).failsOnly c.eval_failsOnly.notBreak
  | .repeat ⟨_, ss⟩ c => by
    rw [Loop.exec]
    exact repeatLoop_contained (Stmt.execAll_contained limit ss).failsOnly c.eval_failsOnly.notBreak
  | .forIn x source ⟨_, ss⟩ => by
    rw [Loop.exec]
    have hsource := source.toExpr.eval_failsOnly.notBreak
    exact forInLoop_contained (Stmt.execAll_contained limit ss).failsOnly x hsource
  | .numericFor x i l s ⟨_, ss⟩ => by
    rw [Loop.exec]
    refine Ends.bind (evalBounds_failsOnly i l s).notBreak fun bounds _ => ?_
    exact numericLoop_contained (Stmt.execAll_contained limit ss).failsOnly x _ _ _

theorem Stmt.execAll_contained (limit : Nat) :
    (ss : List Stmt) → Contained (Stmt.breaksAny ss) (Stmt.execAll limit ss)
  | [] => contained_normal _
  | s :: ss => by
    rw [Stmt.execAll, Stmt.breaksAny]
    refine Ends.bind (s.exec_contained limit) fun flow hflow => ?_
    cases flow with
    | normal =>
      have hrest := Stmt.execAll_contained limit ss
      exact hrest.mono (fun _ he => he) fun _ h hbroke => by simp [h hbroke]
    | broke => exact Ends.pure fun _ => by simp [hflow rfl]
    | returned vs => exact Ends.pure (by simp)

end

/-! ## Programs and lowered loops -/

/-- A program in which every `break` stands inside of a loop is never reported for one. -/
theorem Block.runProgram_failsOnly (limit : Nat) {b : Block} (h : b.breaks = false) :
    FailsOnly NotBreak (b.runProgram limit) := by
  refine Ends.bind (b.exec_contained limit) fun flow hflow => ?_
  cases flow with
  | normal => exact FailsOnly.pure _
  | broke =>
    have hbreaks := hflow rfl
    rw [h] at hbreaks
    cases hbreaks
  | returned vs => exact FailsOnly.pure _

/-- The statements that a source loop runs once before its passes, outside of the target loop. -/
def SourceLoop.initializers : SourceLoop → List Stmt
  | .counted c => c.initializers
  | .while .. | .doWhile .. | .foreach .. => []

/-- A loop is lowered to a statement in which no `break` of its body or its incrementors stands outside
of every loop. -/
theorem SourceLoop.breaks_lower {adapter : Name} {source : SourceLoop} {s : Stmt}
    (h : source.lower adapter = .ok s) : s.breaks = Stmt.breaksAny source.initializers := by
  cases source with
  | «while» c body =>
    cases h
    rfl
  | doWhile c body =>
    cases c with
    | none => cases h
    | some c =>
      cases h
      rfl
  | counted c =>
    cases h
    have hdeclaration : Stmt.breaksAny (c.declaration.toList.map .local) = false := by
      cases c.declaration <;> rfl
    show Stmt.breaksAny (_ ++ _ ++ [_]) = _
    rw [Stmt.breaksAny_append, Stmt.breaksAny_append, hdeclaration]
    simp [Stmt.breaksAny, Stmt.breaks, SourceLoop.initializers]
  | foreach x e body =>
    rw [SourceLoop.lower] at h
    cases hnode : Loop.newForIn adapter x e with
    | error err =>
      rw [hnode] at h
      cases h
    | ok node =>
      rw [hnode] at h
      cases h
      rfl

/-- **`break` never escapes a loop.** No loop ends with `break`. So a program in which every `break`
stands inside of a loop is never reported for a `break` outside of one, and a source loop whose
initialisers have no `break` outside of every loop is lowered to a statement that does not end with
`break`, whatever its body and its incrementors are. -/
theorem break_stays_in_loop (limit : Nat) :
    (∀ (l : Loop) (s t : State), (Stmt.loop l).exec limit s ≠ .ok .broke t) ∧
    (∀ b : Block, b.breaks = false → ∀ s t : State,
      b.runProgram limit s ≠ .error .breakOutsideLoop t) ∧
    (∀ (adapter : Name) (source : SourceLoop) (lowered : Stmt), source.lower adapter = .ok lowered →
      Stmt.breaksAny source.initializers = false → ∀ s t : State,
        lowered.exec limit s ≠ .ok .broke t) := by
  have hstmt (stmt : Stmt) (hbreaks : stmt.breaks = false) (s t : State) :
      stmt.exec limit s ≠ .ok .broke t := by
    intro hr
    have hbroke := (stmt.exec_contained limit).result hr rfl
    rw [hbreaks] at hbroke
    cases hbroke
  refine ⟨fun l => hstmt (.loop l) rfl, ?_, ?_⟩
  · intro b hbreaks s t hr
    exact (Block.runProgram_failsOnly limit hbreaks).failure hr rfl
  · intro adapter source lowered hlower hinit
    exact hstmt lowered ((SourceLoop.breaks_lower hlower).trans hinit)

/-- A program with a `break` in a branch, in a block, in a loop inside of a loop. -/
def nestedBreaks : Block := .doEnd [
  .loop (.while (.bool true) (.doEnd [
    .loop (.repeat (.bare [.do (.doEnd [.if (.bool true) (.bare [.break]) none])]) (.bool false)),
    .if (.bool false) (.bare []) (some (.bare [.break]))]))]

/-- A counted loop with a `break` in its body and one among its incrementors, and with an initialiser
that is a loop with a `break` of its own. -/
def breakingLoop : CountedLoop where
  initializers := [.loop (.while (.bool true) (.doEnd [.break]))]
  body := .doEnd [.if (.ident "done") (.bare [.break]) none]
  incrementors := [.break]

theorem break_stays_in_loop_nestedBreaks :
    (nestedBreaks.breaks = false ∧ ∀ s t : State,
      nestedBreaks.runProgram 3 s ≠ .error .breakOutsideLoop t) ∧
    (Stmt.breaksAny (SourceLoop.counted breakingLoop).initializers = false ∧ ∀ s t : State,
      (Stmt.do breakingLoop.lower).exec 3 s ≠ .ok .broke t) := by
  obtain ⟨-, hprogram, hlowered⟩ := break_stays_in_loop 3
  exact ⟨⟨by decide, hprogram nestedBreaks (by decide)⟩,
    ⟨by decide, hlowered "" (.counted breakingLoop) _ rfl (by decide)⟩⟩

end LoopLowering
