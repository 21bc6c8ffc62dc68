import LoopLowering.Proofs.Locality
import LoopLowering.Proofs.Progression
import LoopLowering.Proofs.SourceLoops

/- Two ways to count. The loop `for (local i = a; i <= b; i = i + s) body` keeps its
   counter in a variable of its own scope, which the incrementor writes. The numeric
   `for` has a counter that no statement can see and binds a fresh variable to it in
   each pass, next to what the body declares.

   So the body runs in two scopes of the first loop, its own and that of the counter,
   where it runs in one scope of the second. Programs cannot tell this apart
   (`Ground.merged`): a name is found in the one scope where it is found in the two.
   `Counting i n` relates the states of the loops between passes, when both counters
   stand at `n`. A pass keeps the relation as long as the body leaves the variable
   alone, and moves both counters on (`countedPass_counts`); the loops then run pass for
   pass alike (`countedPasses_alike`). -/
namespace LoopLowering

/-! ## Two scopes for one -/

/-- The two uppermost scopes of the left stack are one scope of the right stack, in which a name has
the value that the two give it. The lower one of the two binds `i` and no other name. -/
def MergedScopes (i : Name) (ss ss' : List Scope) : Prop :=
  ∃ upper lower one rest, ss = upper :: lower :: rest ∧ ss' = one :: rest ∧
    (∀ x, one.get? x = (upper.get? x).or (lower.get? x)) ∧ ∀ x, x ≠ i → lower.get? x = none

/-- A write goes to the one scope where it goes to one of the two. -/
theorem MergedScopes.assignIn {i x : Name} {ss ss' : List Scope} (h : MergedScopes i ss ss')
    (v : Value) :
    Option.Rel (MergedScopes i) (Env.assignIn x v ss) (Env.assignIn x v ss') := by
  obtain ⟨upper, lower, one, rest, rfl, rfl, hone, hlower⟩ := h
  simp only [Env.assignIn, hone]
  by_cases hu : (upper.get? x).isSome = true
  · -- the write goes to the upper scope and to the one scope
    have ho : ((upper.get? x).or (lower.get? x)).isSome = true := by simp [hu]
    rw [if_pos hu, if_pos ho]
    refine .some ⟨_, lower, _, rest, rfl, rfl, fun y => ?_, hlower⟩
    by_cases hy : y = x <;> simp [hy, hone]
  · rw [Bool.not_eq_true, Option.isSome_eq_false_iff, Option.isNone_iff_eq_none] at hu
    by_cases hl : (lower.get? x).isSome = true
    · -- the write goes to the lower scope, which binds the counter alone
      have hx : x = i := by
        by_contra hne
        simp [hlower x hne] at hl
      rw [hu]
      simp only [Option.isSome_none, Bool.false_eq_true, if_false, Option.none_or, hl, if_true,
        Option.map_some]
      refine .some ⟨upper, _, _, rest, rfl, rfl, fun y => ?_, fun y hy => ?_⟩
      · by_cases hy : y = x
        · simp [hy, hu]
        · simp [hy, hone]
      · simp [hx, hy, hlower y hy]
    · rw [Bool.not_eq_true, Option.isSome_eq_false_iff, Option.isNone_iff_eq_none] at hl
      rw [hu, hl]
      simp only [Option.isSome_none, Bool.false_eq_true, if_false, Option.none_or]
      cases Env.assignIn x v rest with
      | none => exact .none
      | some r => exact .some ⟨upper, lower, one, r, rfl, rfl, hone, hlower⟩

/-- The stacks are the same but for two scopes of the left one that are one of the right one. -/
def Ground.merged (i : Name) : Ground AnyName where
  related := MergedScopes i
  lookup {ss ss' x} h _ := by
    obtain ⟨upper, lower, one, rest, rfl, rfl, hone, -⟩ := h
    simp only [Env.lookupIn, hone, Option.or_assoc]
  assign v h _ := h.assignIn v

/-- A declaration in the upper scope is one in the one scope. -/
theorem Ground.merged_declare {i : Name} {e e' : Env} (x : Name) (v : Value)
    (h : (parallel (Ground.merged i)).envs 0 e e') :
    (parallel (Ground.merged i)).envs 0 (e.declare x v) (e'.declare x v) := by
  obtain ⟨g, ss⟩ := e
  obtain ⟨g', ss'⟩ := e'
  obtain ⟨hg, hs⟩ := h
  cases hs with
  | ground hs =>
    obtain ⟨upper, lower, one, rest, hss, hss', hone, hlower⟩ := hs
    subst hss hss'
    refine ⟨hg, .ground ⟨_, lower, _, rest, rfl, rfl, fun y => ?_, hlower⟩⟩
    by_cases hy : y = x <;> simp [hy, hone]

section Statements

variable {N : Name → Prop} {C : Coupling N}
  (hC : ∀ {e e' : Env} (x : Name) (v : Value), C.envs 0 e e' → C.envs 0 (e.declare x v) (e'.declare x v))
include hC

/-- Where declarations can be made before a scope is opened, so can all other statements be run. -/
theorem Stmt.exec_simulates_ground (limit : Nat) (s : Stmt) (h : ∀ x ∈ s.uses, N x) :
    Simulates (C.States 0) (s.exec limit) (s.exec limit) := by
  cases s with
  | expr e =>
    rw [Stmt.exec]
    exact Simulates.bind (Simulates.bind (e.eval_simulates 0 h) fun _ => Simulates.pure _)
      fun _ => Simulates.pure _
  | «local» d =>
    have hdeclare : ∀ (xs : List Name) (vs : List Value) (e e' : Env), C.envs 0 e e' →
        C.envs 0 (e.declareAll xs vs) (e'.declareAll xs vs) := by
      intro xs
      induction xs with
      | nil => exact fun _ _ _ hee => hee
      | cons x xs ih => exact fun vs e e' hee => ih vs.tail _ _ (hC x _ hee)
    rw [Stmt.exec, Declaration.exec]
    refine Simulates.bind (Simulates.bind (Expr.evalAll_simulates 0 d.values h) fun vs => ?_)
      fun _ => Simulates.pure _
    exact Simulates.modifyEnv (hdeclare d.names vs)
  | assign ts vs =>
    obtain ⟨hvs, hts⟩ := List.forall_mem_append.mp h
    rw [Stmt.exec]
    refine Simulates.bind (Expr.evalAll_simulates 0 vs hvs) fun values => ?_
    exact Simulates.bind (Expr.assignAll_simulates 0 ts values hts) fun _ => Simulates.pure _
  | loop l =>
    rw [Stmt.exec]
    exact Simulates.bind (Exec.log_simulates _) fun _ => l.exec_simulates limit 0 h
  | «do» b =>
    rw [Stmt.exec]
    exact b.exec_simulates limit 0 h
  | «if» c t e =>
    cases e with
    | none =>
      obtain ⟨hc, ht⟩ := List.forall_mem_append.mp h
      rw [Stmt.exec]
      refine Simulates.bind (c.eval_simulates 0 hc) fun v => ?_
      split
      · exact t.exec_simulates limit 0 ht
      · exact Simulates.pure _
    | some e =>
      obtain ⟨hc, hte⟩ := List.forall_mem_append.mp h
      obtain ⟨ht, he⟩ := List.forall_mem_append.mp hte
      rw [Stmt.exec]
      refine Simulates.bind (c.eval_simulates 0 hc) fun v => ?_
      split
      · exact t.exec_simulates limit 0 ht
      · exact e.exec_simulates limit 0 he
  | «break» => exact Simulates.pure _
  | «return» vs =>
    rw [Stmt.exec]
    exact Simulates.bind (Expr.evalAll_simulates 0 vs h) fun _ => Simulates.pure _

theorem Stmt.execAll_simulates_ground (limit : Nat) (ss : List Stmt)
    (h : ∀ x ∈ Stmt.usesAll ss, N x) :
    Simulates (C.States 0) (Stmt.execAll limit ss) (Stmt.execAll limit ss) := by
  induction ss with
  | nil => exact Simulates.pure _
  | cons s ss ih =>
    obtain ⟨hs, hss⟩ := List.forall_mem_append.mp h
    rw [Stmt.execAll]
    refine Simulates.bind (s.exec_simulates_ground hC limit hs) fun flow => ?_
    split
    · exact ih hss
    · exact Simulates.pure _

end Statements

/-! ## States between passes -/

/-- Both counters stand at `n`: the left state has one scope more, in which `i` is `n` and no other name
is bound. -/
structure Counting (i : Name) (n : Int64) (s t : State) : Prop where
  env : ∃ counter : Scope, s.env = ⟨t.env.globals, counter :: t.env.scopes⟩ ∧
    ∀ x, counter.get? x = if x = i then some (.int n) else none
  heap : s.heap = t.heap
  output : s.output = t.output

section Passes

variable {i : Name} {n : Int64} {s t : State}

theorem Counting.lookup (h : Counting i n s t) : s.env.lookup i = some (.int n) := by
  obtain ⟨counter, henv, hcounter⟩ := h.env
  rw [henv]
  simp [Env.lookup, Env.lookupIn, hcounter]

theorem Counting.closed_same (h : Counting i n s t) : s.closed.Same t := by
  obtain ⟨counter, henv, -⟩ := h.env
  refine ⟨?_, h.heap, h.output⟩
  show s.env.closeScope = t.env
  rw [henv]
  rfl

/-- The states in which the bodies of a pass run: on the left in a scope above that of the counter, on
the right in a scope in which the variable has been declared. -/
theorem Counting.opened (h : Counting i n s t) :
    (parallel (Ground.merged i)).States 0 s.opened
      { t.opened with env := t.opened.env.declare i (.int n) } := by
  obtain ⟨counter, henv, hcounter⟩ := h.env
  refine ⟨⟨?_, .ground ⟨.empty, counter, _, t.env.scopes, ?_, rfl, fun x => ?_, fun x hx => ?_⟩⟩, h.heap,
    h.output, trivial⟩
  · show s.env.globals = t.env.globals
    rw [henv]
  · show Scope.empty :: s.env.scopes = _
    rw [henv]
  · rw [hcounter x, Scope.get?_insert]
    by_cases hx : x = i <;> simp [hx]
  · rw [hcounter x, if_neg hx]

/-- Statements that leave the variable alone leave its bindings as they were. -/
theorem Stmt.execAll_leaves {limit : Nat} {ss : List Stmt} (ha : i ∉ Stmt.assignsAll ss)
    (hb : i ∉ Stmt.bindsAll ss) (s : State) :
    s.env.AgreeOn (· = i) (endState (Stmt.execAll limit ss s)).env := by
  have hne : ∀ {xs : List Name}, i ∉ xs → ∀ x ∈ xs, x ≠ i := by
    rintro xs hxs x hx rfl
    exact hxs hx
  have hframe := Stmt.execAll_steady (steady_frame (· ≠ i)) limit ss (hne ha) (hne hb) s
  simpa using hframe

/-- After a body that left the variable alone, the scopes of the pass can be closed: both counters
stand where they stood. -/
theorem Counting.close {u v : State} (h : Counting i n s t)
    (hleaves : s.opened.env.AgreeOn (· = i) u.env)
    (huv : (parallel (Ground.merged i)).States 0 u v) : Counting i n u.closed v.closed := by
  obtain ⟨counter, henv, hcounter⟩ := h.env
  obtain ⟨⟨hglobals, hstacks⟩, hheap, houtput, -⟩ := huv
  have hscopes : List.Forall₂ (Scope.AgreeOn (· = i)) (.empty :: counter :: t.env.scopes) u.env.scopes := by
    have hopened := hleaves.scopes
    rwa [State.opened, Env.openScope, henv] at hopened
  obtain ⟨⟨gu, su⟩, heap, output, events⟩ := u
  obtain ⟨⟨gv, sv⟩, heap', output', events'⟩ := v
  cases hstacks with
  | ground hmerged =>
    obtain ⟨upper, lower, one, rest, hsu, hsv, hone, hlower⟩ := hmerged
    change su = _ at hsu
    change sv = _ at hsv
    subst hsu hsv
    have hi : counter.get? i = lower.get? i := by
      cases hscopes with
      | cons _ hbelow =>
        cases hbelow with
        | cons hagree _ => exact hagree i rfl
    refine ⟨⟨lower, ?_, fun x => ?_⟩, hheap, houtput⟩
    · show Env.mk gu (lower :: rest) = Env.mk gv (lower :: rest)
      rw [show gu = gv from hglobals]
    · by_cases hx : x = i
      · rw [hx, ← hi, hcounter]
      · rw [hlower x hx, if_neg hx]

/-- The incrementor, run in a scope of its own, moves the counter on. -/
theorem Counting.increment (limit : Nat) {step next : Int64} (h : Counting i n s t)
    (hnext : next.toInt = n.toInt + step.toInt) :
    ∃ u, Exec.inScope (Stmt.execAll limit
        [.set (.ident i) (.binary .add (.ident i) (.int step))]) s = .ok .normal u ∧
      Counting i next u t := by
  obtain ⟨counter, henv, hcounter⟩ := h.env
  have hlookup : s.opened.env.lookup i = some (.int n) := by
    rw [State.opened, Env.openScope, henv]
    simp [Env.lookup, Env.lookupIn, hcounter]
  have hsum : (Expr.binary .add (.ident i) (.int step)).eval s.opened = .ok (.int next) s.opened := by
    have hadd : ∀ x y, BinaryOp.add.apply x y =
        BinaryOp.add.arithmetic x y fun m n => checked (m.toInt + n.toInt) := fun _ _ => rfl
    have hstep : (Expr.int step).eval s.opened = .ok (.int step) s.opened := rfl
    rw [Expr.eval_arithmetic (Expr.eval_ident hlookup) hstep hadd rfl, checked_of_toInt hnext]
    rfl
  have hassign : s.opened.env.assign i (.int next) =
      ⟨t.env.globals, .empty :: counter.insert i (.int next) :: t.env.scopes⟩ := by
    rw [State.opened, Env.openScope, henv]
    simp [Env.assign, Env.assignIn, hcounter]
  refine ⟨({ s.opened with env := s.opened.env.assign i (.int next) } : State).closed, ?_, ?_⟩
  · rw [Exec.inScope_apply, Stmt.execAll_singleton, Stmt.set, Stmt.exec, Expr.evalAll, Expr.evalAll]
    unfold Exec.closing
    simp only [bind_assoc, pure_bind]
    rw [Exec.bind_ok hsum]
    rfl
  · refine ⟨⟨counter.insert i (.int next), ?_, fun x => ?_⟩, h.heap, h.output⟩
    · show (s.opened.env.assign i (.int next)).closeScope = _
      rw [hassign]
      rfl
    · rw [Scope.get?_insert, hcounter]
      by_cases hx : x = i <;> simp [hx]

end Passes

/-! ## Passes -/

/-- The loop `for (local i = start; i <= last; i = i + step) body`. -/
def CountedLoop.counting (i : Name) (start last step : Int64) (body : Block) : CountedLoop where
  declaration := some ⟨[i], [.int start]⟩
  condition := some (.binary .le (.ident i) (.int last))
  body := body
  incrementors := [.set (.ident i) (.binary .add (.ident i) (.int step))]

/-- Two passes end alike. Both counters stand at `next` if the passes ended normally, and at `n` where
they stood otherwise. -/
inductive CountsOn (i : Name) (n next : Int64) :
    EStateM.Result RunError State Flow → EStateM.Result RunError State Flow → Prop where
  | normal {s t : State} : Counting i next s t → CountsOn i n next (.ok .normal s) (.ok .normal t)
  | left {flow : Flow} {s t : State} :
    flow ≠ .normal → Counting i n s t → CountsOn i n next (.ok flow s) (.ok flow t)
  | error {e : RunError} {s t : State} :
    Counting i n s t → CountsOn i n next (.error e s) (.error e t)

theorem Counting.test_eq {i : Name} {n start last step : Int64} {body : Block} {s t : State}
    (h : Counting i n s t) (hstep : 0 < step.toInt) :
    (CountedLoop.counting i start last step body).test s = .ok (inBounds last step n) s := by
  have hbounds : inBounds last step n = !decide (last < n) := by
    have hpos : 0 < step := Int64.lt_iff_toInt_lt.mpr hstep
    have hneg : ¬ step < 0 := by
      rw [Int64.lt_iff_toInt_lt, Int64.toInt_zero]
      omega
    simp [inBounds, hpos, hneg, ← Int64.not_lt]
  have hle : (Expr.binary .le (.ident i) (.int last)).eval s =
      .ok (.bool (!decide (last < n))) s := by
    rw [Expr.eval, Exec.bind_ok (Expr.eval_ident h.lookup)]
    rfl
  rw [hbounds, CountedLoop.test, CountedLoop.counting]
  exact Exec.bind_ok hle

/-- A value that asks for a pass is followed by one that is an integer. -/
theorem exists_next {last step n : Int64} (hstep : 0 < step.toInt)
    (hfit : last.toInt + step.toInt < 0x8000000000000000) (hin : inBounds last step n = true) :
    ∃ next : Int64, next.toInt = n.toInt + step.toInt := by
  have hle : n.toInt ≤ last.toInt := by
    simp only [inBounds, Bool.or_eq_true, Bool.and_eq_true, decide_eq_true_iff,
      Int64.lt_iff_toInt_lt, Int64.le_iff_toInt_le, Int64.toInt_zero] at hin
    omega
  obtain ⟨hlow, -⟩ := inRange_toInt n
  exact exists_toInt_eq ⟨by omega, by omega⟩

section Loops

variable {i : Name} {step : Int64} {body : Block} (start last : Int64) (ha : i ∉ body.assigns)
  (hb : i ∉ body.binds) (limit : Nat)
include ha hb

/-- **One pass.** A pass of the counting loop ends like one of the numeric `for`, when the body leaves
the variable alone and the next value is an integer. -/
theorem countedPass_counts {n next : Int64} {s t : State} (h : Counting i n s t)
    (hnext : next.toInt = n.toInt + step.toInt) :
    CountsOn i n next ((CountedLoop.counting i start last step body).pass limit s)
      (Exec.inScope (do
        Exec.modifyEnv (·.declare i (.int n))
        Stmt.execAll limit body.statements) t) := by
  have halike := Stmt.execAll_simulates_ground (C := parallel (Ground.merged i))
    Ground.merged_declare limit body.statements (fun _ _ => trivial) _ _ h.opened
  have hleaves : s.opened.env.AgreeOn (· = i)
      (endState (Stmt.execAll limit body.statements s.opened)).env := by
    cases body
    exact Stmt.execAll_leaves ha hb s.opened
  have hright : Exec.inScope (do
      Exec.modifyEnv (·.declare i (.int n))
      Stmt.execAll limit body.statements) t =
      Exec.closing (Stmt.execAll limit body.statements)
        { t.opened with env := t.opened.env.declare i (.int n) } := Exec.inScope_apply _ _
  have hleft : Exec.inScope (Stmt.execAll limit body.statements) s =
      Exec.closing (Stmt.execAll limit body.statements) s.opened := Exec.inScope_apply _ _
  rw [hright]
  unfold Exec.closing at hleft ⊢
  generalize Stmt.execAll limit body.statements s.opened = r at halike hleaves hleft
  generalize Stmt.execAll limit body.statements _ = r' at halike
  cases halike with
  | error huv =>
    have hcount := h.close hleaves huv
    show CountsOn i n next (EStateM.bind (Exec.inScope (Stmt.execAll limit body.statements)) _ s) _
    rw [EStateM.bind, hleft]
    exact .error hcount
  | @ok flow u v huv =>
    have hcount : Counting i n u.closed v.closed := h.close hleaves huv
    rw [CountedLoop.pass, CountedLoop.counting, Exec.bind_ok hleft]
    cases flow with
    | normal =>
      -- only a body that ended normally is followed by the incrementor
      obtain ⟨w, hw, hcount⟩ := hcount.increment limit hnext
      show CountsOn i n next (Exec.inScope (Stmt.execAll limit
        [.set (.ident i) (.binary .add (.ident i) (.int step))]) u.closed) (.ok .normal v.closed)
      rw [hw]
      exact .normal hcount
    | broke => exact .left (by simp) hcount
    | returned vs => exact .left (by simp) hcount

/-- **The passes of both loops.** With both counters at `n` and as many passes left, the counting loop
and the numeric `for` end alike, and the counter's scope is all that the left state has more. -/
theorem countedPasses_alike (hstep : 0 < step.toInt)
    (hfit : last.toInt + step.toInt < 0x8000000000000000) (left : Nat) {n : Int64} {s t : State}
    (h : Counting i n s t) :
    Alike (fun s t => ∃ m, Counting i m s t)
      ((CountedLoop.counting i start last step body).passes limit left s)
      (runPasses limit .numericFor
        (fun current => pure (if inBounds last step current then some current else none))
        (fun current => do
          (← Exec.inScope do
            Exec.modifyEnv (·.declare i (.int current))
            Stmt.execAll limit body.statements).passEnd
            (pure ((toWord? (current.toInt + step.toInt)).elim .stop .again)))
        left n t) := by
  induction left generalizing n s t with
  | zero =>
    rw [runPasses_zero, pure_bind, CountedLoop.passes, Exec.bind_ok (h.test_eq hstep)]
    cases inBounds last step n with
    | false => exact .ok ⟨n, h.env, h.heap, h.output⟩
    | true => exact .error ⟨n, h⟩
  | succ left ih =>
    rw [runPasses_succ, pure_bind, CountedLoop.passes, Exec.bind_ok (h.test_eq hstep)]
    cases hin : inBounds last step n with
    | false => exact .ok ⟨n, h.env, h.heap, h.output⟩
    | true =>
      obtain ⟨next, hnext⟩ := exists_next hstep hfit hin
      have hpass := countedPass_counts start last ha hb limit h hnext
      have hword : toWord? (n.toInt + step.toInt) = some next := toWord?_eq_some_iff.mpr hnext
      simp only [if_true, bind_assoc]
      show Alike _ (EStateM.bind _ _ s) (EStateM.bind _ _ t)
      unfold EStateM.bind
      generalize CountedLoop.pass limit _ s = r, Exec.inScope _ t = r' at hpass
      cases hpass with
      | normal hcount =>
        rw [hword]
        exact ih hcount
      | @left flow s t hflow hcount =>
        cases flow with
        | normal => exact absurd rfl hflow
        | broke => exact .ok ⟨n, hcount.env, hcount.heap, hcount.output⟩
        | returned vs => exact .ok ⟨n, hcount⟩
      | error hcount => exact .error ⟨n, hcount⟩

theorem CountedLoop.counting_run_alike (hstep : 0 < step.toInt)
    (hfit : last.toInt + step.toInt < 0x8000000000000000) (delimiters : Delimiters) (s : State) :
    Alike State.Same ((CountedLoop.counting i start last step body).run limit s)
      ((Stmt.loop (.numericFor i (.int start) (.int last) (some (.int step))
        ⟨delimiters, body.statements⟩)).exec limit s) := by
  -- the states in which the passes begin: the variable is declared, and the loop is in the log
  let t : State := { s with events := s.events.push (.entered .numericFor) }
  let u : State := { s.opened with env := s.opened.env.declare i (.int start) }
  have hcount : Counting i start u t := by
    refine ⟨⟨Scope.empty.insert i (.int start), rfl, fun x => ?_⟩, rfl, rfl⟩
    rw [Scope.get?_insert, Scope.get?_empty]
  have hpasses := countedPasses_alike start last ha hb limit hstep hfit limit hcount
  have hnonzero : step ≠ 0 := by
    rintro rfl
    simp at hstep
  have hnative : (Stmt.loop (.numericFor i (.int start) (.int last) (some (.int step))
      ⟨delimiters, body.statements⟩)).exec limit s =
      numericLoop limit i start last step (Stmt.execAll limit body.statements) t := by
    rw [Stmt.exec, Loop.exec]
    show (evalBounds _ _ _ >>= _ : Exec Flow) t = _
    rw [Exec.bind_ok (evalBounds_apply rfl rfl rfl hnonzero)]
  have hsource : (CountedLoop.counting i start last step body).run limit s =
      Exec.closing ((CountedLoop.counting i start last step body).passes limit limit) u :=
    Exec.inScope_apply _ s
  rw [hnative, hsource]
  unfold numericLoop Exec.closing
  generalize CountedLoop.passes limit _ limit u = r, runPasses _ _ _ _ _ _ t = r' at hpasses
  cases hpasses with
  | ok h =>
    obtain ⟨m, h⟩ := h
    exact .ok h.closed_same
  | error h =>
    obtain ⟨m, h⟩ := h
    exact .error h.closed_same

end Loops

/-! ## The lowered loop -/

theorem Stmt.declaresAll_subset_bindsAll (ss : List Stmt) :
    Stmt.declaresAll ss ⊆ Stmt.bindsAll ss := by
  induction ss with
  | nil => exact List.nil_subset _
  | cons s ss ih =>
    apply List.append_subset.mpr
    constructor
    · apply List.subset_append_of_subset_left
      cases s with
      | «local» d => exact List.Subset.refl _
      | _ => exact List.nil_subset _
    · exact List.subset_append_of_subset_right _ ih

/-- **A counting loop agrees with the numeric `for`.** Let `a`, `b` and `c` be integers of 64 bits with
`0 < c`, such that `b + c` is one as well, and let the body neither assign nor declare the name `i` nor
have a loop with this variable, in whatever block. The loop `for (local i = a; i <= b; i = i + c) body`
is lowered to a statement that, run from any state under any limit, gives the same result or error as
the numeric `for` from `a` to `b` by `c` with that body, and leaves the same variables, heap and
output. -/
theorem counting_agrees_with_numericFor (adapter : Name) (limit : Nat) (i : Name) (hi : i ≠ "")
    (a b c : Int64) (hc : 0 < c.toInt) (hfit : b.toInt + c.toInt ≤ Int64.maxValue.toInt)
    (body : Block) (ha : i ∉ body.assigns) (hb : i ∉ body.binds) (s : State) :
    ∃ lowered node,
      (SourceLoop.counted (.counting i a b c body)).lower adapter = .ok lowered ∧
      Loop.newNumericFor (some i) (.int a) (.int b) (some (.int c)) = .ok node ∧
      observe (lowered.exec limit s) =
        observe ((Stmt.loop (node.append body.statements)).exec limit s) := by
  have hbound : b.toInt + c.toInt < 0x8000000000000000 := by
    have hmax : Int64.maxValue.toInt = 0x7fffffffffffffff := by decide
    omega
  -- the incrementor uses `i` only, which the body does not declare
  have hfree : ∀ x ∈ Stmt.declaresAll body.statements,
      x ∉ Stmt.usesAll (CountedLoop.counting i a b c body).incrementors := by
    intro x hx huse
    have hxi : x = i := by
      simpa [CountedLoop.counting, Stmt.set, Stmt.usesAll, Stmt.uses, Expr.lookupsAll, Expr.lookups,
        Expr.targetUses, Expr.qualifiedName?] using huse
    apply hb
    cases body
    exact hxi ▸ Stmt.declaresAll_subset_bindsAll _ hx
  have hname : Loop.newNumericFor (some i) (.int a) (.int b) (some (.int c)) =
      .ok (.numericFor i (.int a) (.int b) (some (.int c)) LoopKind.numericFor.emptyBody) := by
    have habsent : Name.isAbsent i = false := by simpa [Name.isAbsent] using hi
    simp [Loop.newNumericFor, Loop.requireName, habsent, bind, Except.bind]
  refine ⟨.do (CountedLoop.counting i a b c body).lower, _, rfl, hname, ?_⟩
  have hlowered := (CountedLoop.counting i a b c body).run_alike limit
    (fun _ _ hst => countedPass_alike limit _ hfree hst) s
  have hnative := CountedLoop.counting_run_alike a b ha hb limit hc hbound .doEnd s
  exact hlowered.observe_eq.trans hnative.observe_eq

/-- A body that declares `k` next to the variable `i`, prints both, sets a global in an inner loop and
breaks when `k` is seven below the greatest integer. -/
def tailBody : Block := .doEnd [
  .local ⟨["k"], [.binary .sub (.ident "i") (.int 3)]⟩,
  .expr (.call (.ident "print") [.ident "i", .ident "k"]),
  .loop (.numericFor "j" (.int 1) (.int 2) none (.doEnd [.set (.ident "total") (.ident "i")])),
  .if (.binary .eq (.ident "k") (.int (Int64.maxValue - 7))) (.bare [.break]) none]

/-- The values reach up to four below the greatest integer, and one more step still is an integer. -/
theorem counting_agrees_with_numericFor_tailBody :
    ("i" ≠ "" ∧ 0 < (4 : Int64).toInt ∧
      (Int64.maxValue - 4).toInt + (4 : Int64).toInt ≤ Int64.maxValue.toInt ∧
      "i" ∉ tailBody.assigns ∧ "i" ∉ tailBody.binds) ∧
    ∃ lowered node,
      (SourceLoop.counted (.counting "i" (Int64.maxValue - 12) (Int64.maxValue - 4) 4
        tailBody)).lower Name.defaultAdapter = .ok lowered ∧
      Loop.newNumericFor (some "i") (.int (Int64.maxValue - 12)) (.int (Int64.maxValue - 4))
        (some (.int 4)) = .ok node ∧
      observe (lowered.exec 5 ({} : RunConfig).initial) =
        observe ((Stmt.loop (node.append tailBody.statements)).exec 5 ({} : RunConfig).initial) := by
  have hname : "i" ≠ "" := by decide
  have hstep : 0 < (4 : Int64).toInt := by decide
  have hfit : (Int64.maxValue - 4).toInt + (4 : Int64).toInt ≤ Int64.maxValue.toInt := by decide
  have hassigns : "i" ∉ tailBody.assigns := by decide
  have hbinds : "i" ∉ tailBody.binds := by decide
  exact ⟨⟨hname, hstep, hfit, hassigns, hbinds⟩,
    counting_agrees_with_numericFor _ 5 "i" hname _ _ 4 hstep hfit tailBody hassigns hbinds _⟩

end LoopLowering
