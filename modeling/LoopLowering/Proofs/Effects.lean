import LoopLowering.Proofs.Locality

/- What a run cannot take back. An expression has no effect on what is there before it
   is evaluated: it writes no variable, no table and no iterator. What it adds are new
   tables, new iterators and lines of output, and this is so wherever an error or a
   short circuit cuts the evaluation off (`Expr.eval_grows`).

   Statements do write variables, tables and iterators. Of the output no operation
   takes anything back, so that the lines printed before are still in front is a
   relation that every step keeps (`steady_output`) and hence every run. -/
namespace LoopLowering

/-- The lines that had been printed are still there, in front of those printed since. -/
def State.Prints (s t : State) : Prop :=
  s.output.toList <+: t.output.toList

theorem State.Prints.of_eq {s t : State} (h : t.output = s.output) : s.Prints t := by
  simp [State.Prints, h]

/-- No operation takes back a line, whatever names it writes. -/
theorem steady_output : Steady (fun _ => True) State.Prints where
  refl _ := List.prefix_rfl
  trans h h' := List.IsPrefix.trans h h'
  grows h := h.output
  log _ := Moves.modify fun _ => .of_eq rfl
  nextValue _ := Moves.modifyGet fun _ => .of_eq rfl
  setElement id index v := by
    intro s
    rw [Exec.setElement_apply]
    cases s.heap.set id index v <;> exact .of_eq rfl
  assign _ _ _ := .of_eq rfl
  declare _ _ _ := .of_eq rfl
  close h := h

theorem State.Prints.exists_lines {s t : State} (h : s.Prints t) :
    ∃ lines : Array String, t.output = s.output ++ lines := by
  obtain ⟨lines, hlines⟩ := h
  refine ⟨lines.toArray, ?_⟩
  rw [← Array.toList_inj, Array.toList_append, hlines]

theorem getElem?_of_prefix {α : Type} {a b : Array α} (h : a.toList <+: b.toList) {i : Nat}
    (hi : i < a.size) : b[i]? = a[i]? := by
  obtain ⟨added, hadded⟩ := h
  rw [← Array.getElem?_toList, ← Array.getElem?_toList, ← hadded, List.getElem?_append_left hi]

/-- **Evaluation changes nothing that is there, and output only grows.** However the evaluation of an
expression ends, with a value or with an error at any depth, the global variables and all scopes are
as they were, and so are the contents of every table and the position of every iterator that there
was. Lines of output may have been added at the end. Statements, however they end, take back no line
of output either. -/
theorem evaluation_only_adds (limit : Nat) (s : State) :
    (∀ e : Expr,
      (endState (e.eval s)).env.globals = s.env.globals ∧
      (endState (e.eval s)).env.scopes = s.env.scopes ∧
      (∀ id < s.heap.tables.size,
        (endState (e.eval s)).heap.tables[id]? = s.heap.tables[id]?) ∧
      (∀ id < s.heap.iterators.size,
        (endState (e.eval s)).heap.iterators[id]? = s.heap.iterators[id]?) ∧
      ∃ lines : Array String, (endState (e.eval s)).output = s.output ++ lines) ∧
    ∀ ss : List Stmt, ∃ lines : Array String,
      (endState (Stmt.execAll limit ss s)).output = s.output ++ lines := by
  constructor
  · intro e
    have h := e.eval_grows s
    refine ⟨by rw [h.env], by rw [h.env], ?_, ?_, State.Prints.exists_lines h.output⟩
    · exact fun id hid => getElem?_of_prefix h.tables hid
    · exact fun id hid => getElem?_of_prefix h.iterators hid
  · intro ss
    have hrun := Stmt.execAll_steady steady_output limit ss (fun _ _ => trivial) fun _ _ => trivial
    exact (hrun s).exists_lines

end LoopLowering
