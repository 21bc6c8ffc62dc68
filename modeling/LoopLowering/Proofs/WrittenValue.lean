import LoopLowering.Proofs.ReadBack
import LoopLowering.Proofs.Simulation

/- The value of a written expression. The tree that is read from an expression's
   text (`Expr.written`) has more parentheses than the expression, and other trees
   for negative literals, for the least integer and for dotted paths. None of this
   changes what evaluation does, as long as `math.mininteger` has the value that its
   name says (`State.KnowsLeast`).

   Parentheses matter in one place: a chain of members on a name is looked up as a
   dotted name, and a chain on a parenthesised name is not. So the parentheses that
   are added must neither make nor break a dotted name
   (`Expr.qualifiedName?_target`). -/
namespace LoopLowering

/-! ## Dotted names -/

/-- An expression that spells a dotted name is looked up under it. -/
theorem Expr.eval_of_qualifiedName? {e : Expr} {path : Name} (h : e.qualifiedName? = some path) :
    e.eval = Exec.lookup path := by
  cases e with
  | ident x =>
    have hx : x = path := Option.some.inj h
    rw [Expr.eval, hx]
  | member t x => rw [Expr.eval, h]
  | _ => simp [Expr.qualifiedName?] at h

theorem Expr.qualifiedName?_foldl_member (xs : List Name) {t : Expr} {path : Name}
    (h : t.qualifiedName? = some path) :
    (xs.foldl Expr.member t).qualifiedName? =
      some (xs.foldl (fun path x => path ++ "." ++ x) path) := by
  induction xs generalizing t path with
  | nil => exact h
  | cons x xs ih =>
    have hmember : (Expr.member t x).qualifiedName? = some (path ++ "." ++ x) := by
      rw [Expr.qualifiedName?, h, Option.map_some]
    exact ih hmember

theorem toList_foldl_path (x : Name) (xs : List Name) :
    (xs.foldl (fun path y => path ++ "." ++ y) x).toList =
      (pathLexemes (x :: xs)).flatMap Lexeme.chars := by
  have hpath (ys : List Name) (path : Name) :
      (ys.foldl (fun path y => path ++ "." ++ y) path).toList =
        path.toList ++ ys.flatMap fun y => '.' :: y.toList := by
    induction ys generalizing path with
    | nil => simp
    | cons y ys ih => simp [ih]
  rw [hpath, pathLexemes]
  simp [Lexeme.chars, Token.spelling, Sign.spelling, List.flatMap_assoc]

theorem qualifiedName?_pathTree_parts (x : Name) : (pathTree x.parts).qualifiedName? = some x := by
  have hparts := flatMap_chars_parts x
  cases hp : x.parts with
  | nil => exact absurd hp x.parts_ne_nil
  | cons y ys =>
    rw [hp, ← toList_foldl_path] at hparts
    rw [pathTree, Expr.qualifiedName?_foldl_member ys rfl, String.toList_inj.mp hparts]

/-- What a member is selected from spells the same dotted name before and after it is written, if it
spells one. -/
theorem Expr.qualifiedName?_target : (t : Expr) →
    (Expr.parenIf (!t.takesSuffix) (t.written 0)).qualifiedName? = t.qualifiedName?
  | .ident x => by
    simp only [Expr.takesSuffix, Bool.not_true, Expr.parenIf, Expr.written, Bool.false_eq_true,
      if_false]
    exact qualifiedName?_pathTree_parts x
  | .member t x => by
    have ht := t.qualifiedName?_target
    simp only [Expr.takesSuffix, Bool.not_true, Expr.parenIf, Expr.written, Bool.false_eq_true,
      if_false, Expr.qualifiedName?] at ht ⊢
    rw [ht]
  | .index _ _ | .call _ _ | .paren _ => by
    simp [Expr.takesSuffix, Expr.parenIf, Expr.written, Expr.qualifiedName?]
  -- everything else is put between parentheses
  | .nil | .bool _ | .int _ | .str _ | .binary _ _ _ | .unary _ _ | .table _ => by
    simp [Expr.takesSuffix, Expr.parenIf, Expr.qualifiedName?]

/-! ## Evaluation -/

/-- The name `math.mininteger` has the value it stands for. -/
def State.KnowsLeast (s : State) : Prop :=
  s.env.lookup "math.mininteger" = some (.int Int64.minValue)

instance (s : State) : Decidable s.KnowsLeast :=
  inferInstanceAs (Decidable (_ = _))

/-- The two states are one, and the least integer is known in it. -/
def State.SameKnowing (s t : State) : Prop :=
  s = t ∧ s.KnowsLeast

theorem Simulates.of_grows {α : Type} {x : Exec α} (h : Moves State.Grows x) :
    Simulates State.SameKnowing x x := by
  rintro s _ ⟨rfl, hs⟩
  have henv := (h s).env
  have hend : (endState (x s)).KnowsLeast := by
    rw [State.KnowsLeast, henv]
    exact hs
  generalize x s = r at hend
  cases r with
  | ok a t => exact .ok ⟨rfl, hend⟩
  | error e t => exact .error ⟨rfl, hend⟩

/-- Computations that simulate each other from one state are the same from there. -/
theorem Simulates.apply_eq {α : Type} {x y : Exec α} (h : Simulates State.SameKnowing x y)
    {s : State} (hs : s.KnowsLeast) : x s = y s := by
  have hxy := h s s ⟨rfl, hs⟩
  generalize x s = r, y s = r' at hxy
  cases hxy with
  | ok h => rw [h.1]
  | error h => rw [h.1]

theorem Expr.eval_parenIf (wrap : Bool) (e : Expr) : (Expr.parenIf wrap e).eval = e.eval := by
  cases wrap with
  | false => rfl
  | true => rw [Expr.parenIf, if_pos rfl, Expr.eval]

/-- A minus sign in front of the absolute value of a negative integer gives the integer. -/
theorem eval_neg_int {n : Int64} (hmin : n ≠ Int64.minValue) :
    (Expr.unary .neg (.int (-n))).eval = (Expr.int n).eval := by
  have hneg : (-n).toInt = -n.toInt := by
    have hbound := natAbs_lt hmin
    rw [show -n = Int64.ofInt (-n.toInt) by rw [Int64.ofInt_neg, Int64.ofInt_toInt]]
    exact Int64.toInt_ofInt_of_le (by omega) (by omega)
  have habs : -(-n).toInt = n.toInt := by rw [hneg, Int.neg_neg]
  rw [Expr.eval, Expr.eval, Expr.eval, pure_bind]
  funext s
  show Exec.ofExcept (Value.int <$> checked (-(-n).toInt)) s = _
  rw [habs, checked, toWord?_toInt]
  rfl

theorem integerTree_simulates (n : Int64) :
    Simulates State.SameKnowing (integerTree n).eval (Expr.int n).eval := by
  unfold integerTree
  split
  case isTrue hmin =>
    -- the path is looked up, and its value is the integer
    have hpath : (pathTree ["math", "mininteger"]).qualifiedName? = some "math.mininteger" := rfl
    rw [Expr.eval_of_qualifiedName? hpath, Expr.eval, hmin]
    rintro s _ ⟨rfl, hs⟩
    rw [Exec.lookup_apply, hs]
    exact .ok ⟨rfl, hs⟩
  case isFalse hmin =>
    split
    · rw [eval_neg_int hmin]
      exact Simulates.of_grows (Expr.eval_grows _)
    · exact Simulates.of_grows (Expr.eval_grows _)

mutual

/-- The tree that is written evaluates as the expression does. -/
theorem Expr.written_simulates : (e : Expr) → (level : Nat) →
    Simulates State.SameKnowing (e.written level).eval e.eval
  | .nil, _ | .bool _, _ | .str _, _ => Simulates.of_grows (Expr.eval_grows _)
  | .int n, _ => by
    rw [Expr.written, Expr.eval_parenIf]
    exact integerTree_simulates n
  | .ident x, _ => by
    rw [Expr.written, Expr.eval_of_qualifiedName? (qualifiedName?_pathTree_parts x), Expr.eval]
    exact Simulates.of_grows (Exec.lookup_grows x)
  | .member t x, _ => by
    have hpath : (Expr.member (.parenIf (!t.takesSuffix) (t.written 0)) x).qualifiedName? =
        (Expr.member t x).qualifiedName? := by
      rw [Expr.qualifiedName?, Expr.qualifiedName?, t.qualifiedName?_target]
    rw [Expr.written, Expr.eval, Expr.eval, hpath, Expr.eval_parenIf]
    cases (Expr.member t x).qualifiedName? with
    | some path => exact Simulates.of_grows (Exec.lookup_grows path)
    | none => exact Simulates.bind (t.written_simulates 0) fun _ => Simulates.throw _
  | .index t k, _ => by
    rw [Expr.written, Expr.eval, Expr.eval, Expr.eval_parenIf]
    refine Simulates.bind (t.written_simulates 0) fun v => ?_
    refine Simulates.bind (k.written_simulates 0) fun i => ?_
    exact Simulates.of_grows (Moves.bind Moves.get fun _ => Moves.ofExcept _)
  | .call c as, _ => by
    rw [Expr.written, Expr.eval, Expr.eval, Expr.eval_parenIf]
    refine Simulates.bind (c.written_simulates 0) fun f => ?_
    refine Simulates.bind (Expr.writtenAll_simulates as) fun vs => ?_
    exact Simulates.of_grows (callValue_grows f vs)
  | .binary op l r, _ => by
    rw [Expr.written, Expr.eval_parenIf, Expr.eval, Expr.eval]
    refine Simulates.bind (l.written_simulates op.leftLevel) fun a => ?_
    -- the right operand is written, but not evaluated where the left one decides
    split
    · exact Simulates.pure a
    · exact Simulates.bind (r.written_simulates op.rightLevel) fun _ => Simulates.ofExcept _
  | .unary op e, _ => by
    rw [Expr.written, Expr.eval_parenIf, Expr.eval, Expr.eval]
    refine Simulates.bind (e.written_simulates UnaryOp.precedence) fun v => ?_
    exact Simulates.of_grows (Moves.bind Moves.get fun _ => Moves.ofExcept _)
  | .paren e, _ => by
    rw [Expr.written, Expr.eval, Expr.eval]
    exact e.written_simulates 0
  | .table es, _ => by
    rw [Expr.written, Expr.eval, Expr.eval]
    refine Simulates.bind (Expr.writtenAll_simulates es) fun vs => ?_
    exact Simulates.of_grows (Exec.newTable_grows vs)

theorem Expr.writtenAll_simulates : (es : List Expr) →
    Simulates State.SameKnowing (Expr.evalAll (Expr.writtenAll es)) (Expr.evalAll es)
  | [] => Simulates.pure _
  | e :: es => by
    rw [Expr.writtenAll, Expr.evalAll, Expr.evalAll]
    refine Simulates.bind (e.written_simulates 0) fun v => ?_
    exact Simulates.bind (Expr.writtenAll_simulates es) fun _ => Simulates.pure _

end

/-- **The text of an expression has the expression's value.** The text of an expression whose names
are proper has one tree, and from every state in which `math.mininteger` is the least integer the
evaluation of that tree ends as the evaluation of the expression does: with the same value or the same
error, and in the same state. -/
theorem text_keeps_value (e : Expr) (h : e.isWellNamed = true) :
    ∃ ts t, tokenize e.text = some ts ∧ Derives 0 ts t ∧ (∀ t', Derives 0 ts t' → t' = t) ∧
      ∀ s : State, s.KnowsLeast → t.eval s = e.eval s := by
  have hderives := (e.layout_derives h 0 (Nat.zero_le _)).atLevel (Nat.zero_le _)
  refine ⟨_, _, e.tokenize_text h, hderives, fun _ h' => h'.unique hderives, fun s hs => ?_⟩
  exact (e.written_simulates 0).apply_eq hs

/-- An expression that prints a line before it fails, unless the net is small:
`net.size + -7 < 0 or print(math.mininteger, - -7) == (net.size).x`. -/
def guardedPrint : Expr :=
  .binary .or
    (.binary .lt (.binary .add (.ident "net.size") (.int (-7))) (.int 0))
    (.binary .eq
      (.call (.ident "print") [.int Int64.minValue, .unary .neg (.int (-7))])
      (.member (.paren (.member (.ident "net") "size")) "x"))

/-- A state that knows the least integer and the size of a net. -/
def netState (size : Int64) : State where
  env := { globals := ⟨[("math.mininteger", .int Int64.minValue), ("net.size", .int size),
    ("print", .builtin .print)], by simp⟩ }

theorem text_keeps_value_guardedPrint :
    guardedPrint.isWellNamed = true ∧ (netState 9).KnowsLeast ∧
    ∃ ts t, tokenize guardedPrint.text = some ts ∧ Derives 0 ts t ∧ (∀ t', Derives 0 ts t' → t' = t) ∧
      t.eval (netState 9) = guardedPrint.eval (netState 9) := by
  have hnamed : guardedPrint.isWellNamed = true := by decide
  have hknows : (netState 9).KnowsLeast := by decide
  obtain ⟨ts, t, htokens, hderives, hunique, heval⟩ := text_keeps_value guardedPrint hnamed
  exact ⟨hnamed, hknows, ts, t, htokens, hderives, hunique, heval _ hknows⟩

end LoopLowering
