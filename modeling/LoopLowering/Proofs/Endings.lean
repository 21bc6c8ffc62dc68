import LoopLowering.Proofs.Moves

/- How runs end. `Ends E Q x` says that every run of the computation `x` ends with a
   result in `Q` or with an error in `E`. It is kept by sequencing, by scopes and by
   the passes of a loop, and a loop does not end with `break` (`Ends.runPasses`).

   Two errors are about the flow of control: a `break` without a loop, and a budget of
   passes that is used up. What computes values or stores them never fails with
   either of them (`Expr.eval_failsOnly`, `Expr.assignAll_failsOnly`, `evalBounds_failsOnly`). -/
namespace LoopLowering

/-- Whether the error is about the flow of control. All other errors come from an operation on
values. -/
def RunError.isControl : RunError → Bool
  | .breakOutsideLoop | .iterationLimit _ => true
  | _ => false

/-! ## Operators -/

/-- The result is no error about the flow of control. -/
def Ordinary {α : Type} (r : Except RunError α) : Prop :=
  ∀ e, r = .error e → e.isControl = false

namespace Ordinary

variable {α β : Type}

theorem ok (a : α) : Ordinary (.ok a) := by
  rintro _ ⟨⟩

theorem error {e : RunError} (h : e.isControl = false) : Ordinary (.error e : Except RunError α) := by
  rintro _ ⟨⟩
  exact h

theorem bind {r : Except RunError α} {f : α → Except RunError β} (hr : Ordinary r)
    (hf : ∀ a, Ordinary (f a)) : Ordinary (r >>= f) := by
  cases r with
  | ok a => exact hf a
  | error e => exact error (hr e rfl)

theorem map {r : Except RunError α} (hr : Ordinary r) (f : α → β) : Ordinary (f <$> r) := by
  cases r with
  | ok a => exact ok (f a)
  | error e => exact error (hr e rfl)

end Ordinary

theorem checked_ordinary (n : Int) : Ordinary (checked n) := by
  unfold checked
  split
  · exact .ok _
  · exact .error rfl

theorem floorDivide_ordinary (a b : Int64) : Ordinary (floorDivide a b) := by
  unfold floorDivide
  split
  · exact .error rfl
  · refine .bind (checked_ordinary _) fun q => ?_
    split
    · exact checked_ordinary _
    · exact .ok q

theorem remainder_ordinary (a b : Int64) : Ordinary (remainder a b) := by
  refine .bind (floorDivide_ordinary a b) fun q => ?_
  exact .bind (checked_ordinary _) fun p => checked_ordinary _

theorem BinaryOp.compare_ordinary (op : BinaryOp) (a b : Value) (holds : Bool → Bool → Bool) :
    Ordinary (op.compare a b holds) := by
  unfold BinaryOp.compare
  split
  · exact .ok _
  · exact .error rfl

theorem BinaryOp.arithmetic_ordinary (op : BinaryOp) (a b : Value)
    {compute : Int64 → Int64 → Except RunError Int64} (h : ∀ m n, Ordinary (compute m n)) :
    Ordinary (op.arithmetic a b compute) := by
  unfold BinaryOp.arithmetic
  split
  · exact (h _ _).map _
  · exact .error rfl

theorem BinaryOp.apply_ordinary (op : BinaryOp) (a b : Value) : Ordinary (op.apply a b) := by
  cases op with
  | or | and | eq | ne => exact .ok _
  | div | pow => exact .error rfl
  | lt | le | gt | ge => exact compare_ordinary _ a b _
  | concat =>
    unfold BinaryOp.apply
    dsimp only
    split
    · exact .ok _
    · exact .error rfl
  | add | sub | mul => exact arithmetic_ordinary _ a b fun _ _ => checked_ordinary _
  | floorDiv => exact arithmetic_ordinary _ a b floorDivide_ordinary
  | mod => exact arithmetic_ordinary _ a b remainder_ordinary

theorem UnaryOp.apply_ordinary (h : Heap) (op : UnaryOp) (v : Value) : Ordinary (op.apply h v) := by
  unfold UnaryOp.apply
  split
  · exact .ok _
  · exact (checked_ordinary _).map _
  · exact (checked_ordinary _).map _
  · exact (checked_ordinary _).map _
  · exact .error rfl

theorem indexValue_ordinary (h : Heap) (v key : Value) : Ordinary (indexValue h v key) := by
  unfold indexValue
  split
  · exact .ok _
  · exact .ok _
  · exact .error rfl

/-! ## Computations -/

/-- Every run of the computation ends with a result in `Q` or with an error in `E`. -/
def Ends {α : Type} (E : RunError → Prop) (Q : α → Prop) (x : Exec α) : Prop :=
  ∀ s, match x s with
    | .ok a _ => Q a
    | .error e _ => E e

namespace Ends

variable {α β : Type} {E E' : RunError → Prop} {P Q : α → Prop} {R : β → Prop}

theorem mono {x : Exec α} (h : Ends E P x) (hE : ∀ e, E e → E' e) (hQ : ∀ a, P a → Q a) :
    Ends E' Q x := by
  intro s
  have hs := h s
  cases hr : x s with
  | ok a t => rw [hr] at hs; exact hQ a hs
  | error e t => rw [hr] at hs; exact hE e hs

theorem result {x : Exec α} (h : Ends E Q x) {s t : State} {a : α} (hr : x s = .ok a t) : Q a := by
  have hs := h s
  rw [hr] at hs
  exact hs

theorem failure {x : Exec α} (h : Ends E Q x) {s t : State} {e : RunError}
    (hr : x s = .error e t) : E e := by
  have hs := h s
  rw [hr] at hs
  exact hs

theorem pure {a : α} (h : Q a) : Ends E Q (pure a : Exec α) :=
  fun _ => h

theorem throw {e : RunError} (h : E e) : Ends E Q (throw e : Exec α) :=
  fun _ => h

theorem bind {x : Exec α} {f : α → Exec β} (hx : Ends E P x) (hf : ∀ a, P a → Ends E R (f a)) :
    Ends E R (x >>= f) := by
  intro s
  have hs := hx s
  show match EStateM.bind x f s with
    | .ok b _ => R b
    | .error e _ => E e
  unfold EStateM.bind
  cases hr : x s with
  | ok a t => rw [hr] at hs; exact hf a hs t
  | error e t => rw [hr] at hs; exact hs

theorem inScope {x : Exec α} (h : Ends E Q x) : Ends E Q (Exec.inScope x) := by
  intro s
  have hs := h { s with env := s.env.openScope }
  unfold Exec.inScope
  cases hr : x { s with env := s.env.openScope } with
  | ok a t => rw [hr] at hs; exact hs
  | error e t => rw [hr] at hs; exact hs

end Ends

/-- Every run of the computation ends with a result, or with an error in `E`. -/
abbrev FailsOnly {α : Type} (E : RunError → Prop) (x : Exec α) : Prop :=
  Ends E (fun _ => True) x

namespace FailsOnly

variable {α β : Type} {E : RunError → Prop}

theorem pure (a : α) : FailsOnly E (pure a : Exec α) :=
  Ends.pure trivial

theorem get : FailsOnly E (get : Exec State) :=
  fun _ => trivial

theorem modify (f : State → State) : FailsOnly E (modify f : Exec PUnit) :=
  fun _ => trivial

theorem modifyGet (f : State → α × State) : FailsOnly E (modifyGet f : Exec α) :=
  fun _ => trivial

theorem bind {x : Exec α} {f : α → Exec β} (hx : FailsOnly E x) (hf : ∀ a, FailsOnly E (f a)) :
    FailsOnly E (x >>= f) :=
  Ends.bind hx fun a _ => hf a

theorem passEnd {next : Exec (PassEnd β)} (hn : FailsOnly E next) (flow : Flow) :
    FailsOnly E (flow.passEnd next) := by
  cases flow with
  | normal => exact hn
  | broke => exact pure _
  | returned vs => exact pure _

end FailsOnly

/-- **A loop consumes `break`.** However its passes end, a loop ends normally, by `return` or with an
error of its test, of a pass or of its budget. -/
theorem Ends.runPasses {α β : Type} {E : RunError → Prop} {limit : Nat} {kind : LoopKind}
    {begins : β → Exec (Option α)} {pass : α → Exec (PassEnd β)} (hE : E (.iterationLimit limit))
    (hb : ∀ b, FailsOnly E (begins b)) (hp : ∀ a, FailsOnly E (pass a)) (left : Nat) (b : β) :
    Ends E (· ≠ .broke) (runPasses limit kind begins pass left b) := by
  have hfin (passes : Nat) : Ends E (· ≠ .broke) (finishLoop kind passes) :=
    Ends.bind (FailsOnly.modify _) fun _ _ => Ends.pure (by simp)
  induction left generalizing b with
  | zero =>
    rw [runPasses_zero]
    refine Ends.bind (hb b) fun test _ => ?_
    cases test with
    | none => exact hfin _
    | some a => exact Ends.throw hE
  | succ left ih =>
    rw [runPasses_succ]
    refine Ends.bind (hb b) fun test _ => ?_
    cases test with
    | none => exact hfin _
    | some a =>
      refine Ends.bind (hp a) fun ended _ => ?_
      cases ended with
      | again next => exact ih next
      | stop => exact hfin _
      | returned vs => exact Ends.pure (by simp)

/-! ## Expressions and assignments -/

abbrev NotControl (e : RunError) : Prop := e.isControl = false

theorem Exec.ofExcept_failsOnly {α : Type} {r : Except RunError α} (h : Ordinary r) :
    FailsOnly NotControl (Exec.ofExcept r) := by
  cases r with
  | ok a => exact .pure a
  | error e => exact .throw (h e rfl)

theorem Exec.lookup_failsOnly (x : Name) : FailsOnly NotControl (Exec.lookup x) := by
  refine .bind .get fun s => ?_
  split
  · exact .pure _
  · exact .throw rfl

theorem iterate_failsOnly (v : Value) : FailsOnly NotControl (iterate v) := by
  cases v with
  | table _ | str _ => exact .modifyGet _
  | iter id => exact .pure _
  | nil | bool _ | int _ | builtin _ => exact .throw rfl

theorem callValue_failsOnly (f : Value) (vs : List Value) : FailsOnly NotControl (callValue f vs) := by
  cases f with
  | builtin b =>
    cases b with
    | print => exact .bind (.modify _) fun _ => .pure _
    | each => exact iterate_failsOnly _
  | nil | bool _ | int _ | str _ | table _ | iter _ => exact .throw rfl

mutual

theorem Expr.eval_failsOnly : (e : Expr) → FailsOnly NotControl e.eval
  | .nil | .bool _ | .int _ | .str _ => .pure _
  | .ident x => Exec.lookup_failsOnly x
  | .member t x => by
    rw [Expr.eval]
    split
    · exact Exec.lookup_failsOnly _
    · exact .bind t.eval_failsOnly fun _ => .throw rfl
  | .index t k => by
    rw [Expr.eval]
    refine .bind t.eval_failsOnly fun v => ?_
    refine .bind k.eval_failsOnly fun i => ?_
    exact .bind .get fun _ => Exec.ofExcept_failsOnly (indexValue_ordinary _ v i)
  | .call c as => by
    rw [Expr.eval]
    refine .bind c.eval_failsOnly fun f => ?_
    exact .bind (Expr.evalAll_failsOnly as) fun vs => callValue_failsOnly f vs
  | .binary op l r => by
    rw [Expr.eval]
    refine .bind l.eval_failsOnly fun a => ?_
    split
    · exact .pure _
    · exact .bind r.eval_failsOnly fun b => Exec.ofExcept_failsOnly (op.apply_ordinary a b)
  | .unary op e => by
    rw [Expr.eval]
    refine .bind e.eval_failsOnly fun v => ?_
    exact .bind .get fun s => Exec.ofExcept_failsOnly (op.apply_ordinary s.heap v)
  | .paren e => by
    rw [Expr.eval]
    exact e.eval_failsOnly
  | .table es => by
    rw [Expr.eval]
    exact .bind (Expr.evalAll_failsOnly es) fun _ => .modifyGet _

theorem Expr.evalAll_failsOnly : (es : List Expr) → FailsOnly NotControl (Expr.evalAll es)
  | [] => .pure _
  | e :: es => by
    rw [Expr.evalAll]
    refine .bind e.eval_failsOnly fun v => ?_
    exact .bind (Expr.evalAll_failsOnly es) fun _ => .pure _

end

theorem Expr.assign_failsOnly (target : Expr) (v : Value) : FailsOnly NotControl (target.assign v) := by
  unfold Expr.assign
  split
  · next t k =>
    refine .bind t.eval_failsOnly fun table => ?_
    refine .bind k.eval_failsOnly fun key => ?_
    split
    · refine .bind .get fun s => ?_
      split
      · exact .modify _
      · exact .throw rfl
    · exact .throw rfl
    · exact .throw rfl
  · split
    · exact .modify _
    · exact .throw rfl

theorem Expr.assignAll_failsOnly (ts : List Expr) (vs : List Value) :
    FailsOnly NotControl (Expr.assignAll ts vs) := by
  induction ts generalizing vs with
  | nil => exact .pure _
  | cons t ts ih =>
    rw [Expr.assignAll]
    exact .bind (t.assign_failsOnly _) fun _ => ih vs.tail

theorem Bound.eval_failsOnly (bound : Bound) (e : Expr) : FailsOnly NotControl (bound.eval e) := by
  refine .bind e.eval_failsOnly fun v => ?_
  split
  · exact .pure _
  · exact .throw rfl

theorem evalBounds_failsOnly (start limit : Expr) (step : Option Expr) :
    FailsOnly NotControl (evalBounds start limit step) := by
  refine .bind (Bound.initial.eval_failsOnly start) fun a => ?_
  refine .bind (Bound.limit.eval_failsOnly limit) fun b => ?_
  refine .bind ?_ fun s => ?_
  · cases step with
    | none => exact .pure _
    | some e => exact Bound.step.eval_failsOnly e
  · split
    · exact .throw rfl
    · exact .pure _

end LoopLowering
