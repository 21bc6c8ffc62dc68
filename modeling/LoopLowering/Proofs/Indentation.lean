import LoopLowering.Proofs.NameOrder
import LoopLowering.Proofs.Pen
import Mathlib.Data.List.DropRight

/- Indentation. The text of a statement is made up of the texts of its parts, and a
   part has the same text wherever it stands, but for the indentation of its lines:
   deeper by some levels, every line but the first begins with that much more
   (`Fragment.Deeper.textOf_eq`).

   The word that opens a block stands apart from what is on its line. The pen goes by
   what it has written there, and a name may have no text: after names that are empty
   the word is preceded by a blank with nothing before it (`layout_composes_iff`). -/
namespace LoopLowering

open Fragment (namesOf textOf)

/-! ## Deeper texts -/

def spaces (m : Nat) : String :=
  String.ofList (List.replicate m ' ')

/-- The text with spaces put after each of its line ends. -/
def indentLines (m : Nat) (t : String) : String :=
  String.ofList (t.toList.flatMap fun c => if c = '\n' then '\n' :: List.replicate m ' ' else [c])

theorem spaces_add (m n : Nat) : spaces (m + n) = spaces m ++ spaces n := by
  rw [spaces, List.replicate_add, String.ofList_append, spaces, spaces]

theorem indentLines_append (m : Nat) (t u : String) :
    indentLines m (t ++ u) = indentLines m t ++ indentLines m u := by
  rw [indentLines, String.toList_append, List.flatMap_append, String.ofList_append, indentLines,
    indentLines]

theorem indentLines_of_notMem (m : Nat) {t : String} (h : '\n' ∉ t.toList) : indentLines m t = t := by
  have hsame : (t.toList.flatMap fun c => if c = '\n' then '\n' :: List.replicate m ' ' else [c]) =
      t.toList.flatMap fun c => [c] := by
    apply List.flatMap_congr
    intro c hc
    have hne : c ≠ '\n' := by
      rintro rfl
      exact h hc
    exact if_neg hne
  rw [indentLines, hsame, List.flatMap_singleton', String.ofList_toList]

theorem indentLines_newline (m : Nat) : indentLines m "\n" = "\n" ++ spaces m := by
  rw [← String.toList_inj]
  simp [indentLines, spaces]

theorem newline_notMem_spaces (m : Nat) : '\n' ∉ (spaces m).toList := by
  simp [spaces]

namespace Fragment

theorem textOf_cons (n : Nat) (f : Fragment) (fs : List Fragment) :
    textOf n (f :: fs) = textOf n [f] ++ textOf n fs :=
  textOf_append n [f] fs

theorem textOf_of_emits {n : Nat} {f : Fragment} {s : String} (h : f.emits n = [.text s]) :
    textOf n [f] = s := by
  simp [textOf, emitsAll, h, Emit.textOf, Emit.toText]

theorem textOf_newline (n : Nat) : textOf n [.newline] = "\n" := rfl

theorem textOf_indent (n d : Nat) : textOf n [.indent d] = spaces (d * n) := by
  rw [← String.toList_inj, toList_textOf]
  simp [lexemesOf, lexemes, spaces, List.flatMap_replicate, Lexeme.chars]

theorem newline_notMem_integerText (m : Int64) : '\n' ∉ (integerText m).toList := by
  rw [← flatMap_chars_integerLexemes, integerLexemes]
  have hsign : '\n' ∉ (Token.sign .minus).spelling := Token.newline_notMem_spelling rfl
  have hnumeral (k : Nat) : '\n' ∉ (Token.numeral k).spelling := Token.newline_notMem_spelling rfl
  split
  · decide
  · split <;> simp [Lexeme.chars, hsign, hnumeral]

/-- A line end in the text of a fragment is one, or stands in a name. -/
theorem newline_notMem_textOf {n : Nat} {f : Fragment} (hf : f ≠ .newline)
    (hname : ∀ x, f.name? = some x → '\n' ∉ x.toList) : '\n' ∉ (textOf n [f]).toList := by
  have htext {s : String} (hs : f.emits n = [.text s]) (hline : '\n' ∉ s.toList) :
      '\n' ∉ (textOf n [f]).toList := by
    rw [textOf_of_emits hs]
    exact hline
  cases f with
  | newline => exact absurd rfl hf
  | indent d =>
    rw [textOf_indent]
    exact newline_notMem_spaces _
  | word k => exact htext rfl (by cases k <;> decide)
  | name x => exact htext rfl (hname x rfl)
  | integer m => exact htext rfl (newline_notMem_integerText m)
  | quoted s =>
    have hquoted : '\n' ∉ (Token.quoted s).spelling := Token.newline_notMem_spelling rfl
    simpa [toList_textOf, lexemesOf, lexemes, Lexeme.chars] using hquoted
  | binaryOp op => exact htext rfl (by cases op <;> decide)
  | unaryOp op => exact htext rfl (by cases op <;> decide)
  | symbol s => exact htext rfl (by cases s <;> decide)
  | space => exact newline_notMem_spaces 1

/-- The second fragments are the first ones with their lines deeper by some levels. -/
inductive Deeper (k : Nat) : List Fragment → List Fragment → Prop where
  | nil : Deeper k [] []
  | cons {f : Fragment} {fs gs : List Fragment} :
    f ≠ .newline → Deeper k fs gs → Deeper k (f :: fs) (f :: gs)
  | line {d : Nat} {fs gs : List Fragment} :
    Deeper k fs gs → Deeper k (.newline :: .indent d :: fs) (.newline :: .indent (d + k) :: gs)

namespace Deeper

variable {k : Nat} {fs gs fs' gs' : List Fragment}

theorem append (h : Deeper k fs gs) (h' : Deeper k fs' gs') : Deeper k (fs ++ fs') (gs ++ gs') := by
  induction h with
  | nil => exact h'
  | cons hf _ ih => exact .cons hf ih
  | line _ ih => exact .line ih

theorem same (h : .newline ∉ fs) : Deeper k fs fs := by
  induction fs with
  | nil => exact .nil
  | cons f fs ih =>
    obtain ⟨hf, hfs⟩ := not_or.mp (mt List.mem_cons.mpr h)
    exact .cons (Ne.symm hf) (ih hfs)

theorem word (w : Keyword) (h : Deeper k fs gs) : Deeper k (.word w :: fs) (.word w :: gs) :=
  .cons (by simp) h

theorem space (h : Deeper k fs gs) : Deeper k (.space :: fs) (.space :: gs) :=
  .cons (by simp) h

/-- Lines that are deeper begin with more spaces. -/
theorem textOf_eq (h : Deeper k fs gs) (n : Nat) (hnames : ∀ x ∈ namesOf fs, '\n' ∉ x.toList) :
    textOf n gs = indentLines (k * n) (textOf n fs) := by
  induction h with
  | nil => rfl
  | @cons f fs gs hf _ ih =>
    rw [namesOf_cons, List.forall_mem_append] at hnames
    have hline : '\n' ∉ (textOf n [f]).toList :=
      newline_notMem_textOf hf fun x hx => hnames.1 x (by simp [hx])
    rw [textOf_cons, textOf_cons n f fs, indentLines_append, indentLines_of_notMem _ hline,
      ih hnames.2]
  | @line d fs gs _ ih =>
    have hdepth : (d + k) * n = k * n + d * n := by rw [Nat.add_mul, Nat.add_comm]
    rw [textOf_cons, textOf_cons n (.indent (d + k)), textOf_cons n _ (.indent d :: fs),
      textOf_cons n (.indent d), textOf_newline, textOf_indent, textOf_indent, hdepth, spaces_add,
      indentLines_append, indentLines_append, indentLines_newline,
      indentLines_of_notMem _ (newline_notMem_spaces _), ih hnames]
    simp only [String.append_assoc]

end Deeper

end Fragment

open Fragment (Deeper)

theorem Delimiters.newline_notMem_opening (d : Delimiters) (fresh : Bool) :
    .newline ∉ d.opening fresh := by
  cases d <;> cases fresh <;> decide

theorem Delimiters.newline_notMem_closing (d : Delimiters) : .newline ∉ d.closing := by
  cases d <;> decide

theorem Expr.newline_notMem_layoutList (es : List Expr) : .newline ∉ Expr.layoutList es :=
  Fragment.newline_notMem_commaSeparated (Expr.newline_notMem_layouts es)

theorem Declaration.newline_notMem_layout (d : Declaration) : .newline ∉ d.layout := by
  rw [Declaration.layout, commaSeparated_names]
  split <;> simp [Expr.newline_notMem_layoutList]

theorem Expr.clause_deeper (k : Nat) (w : Keyword) (e : Expr) :
    Deeper k (.word w :: .space :: e.layout 0) (.word w :: .space :: e.layout 0) :=
  .word w (.space (.same (e.newline_notMem_layout 0)))

mutual

theorem Stmt.layout_deeper (k : Nat) : (s : Stmt) → (d : Nat) → (fresh : Bool) →
    Deeper k (s.layout d fresh) (s.layout (d + k) fresh)
  | .expr e, _, _ => .same (e.newline_notMem_layout 0)
  | .local d, _, _ => .same d.newline_notMem_layout
  | .assign ts vs, _, _ => .same (by simp [Stmt.layout, Expr.newline_notMem_layoutList])
  | .loop l, d, _ => l.layout_deeper k d
  | .do b, d, fresh => b.layout_deeper k d fresh
  | .if c t none, d, fresh => by
    have hthen := Deeper.space ((t.layout_deeper k d false).word .then)
    exact ((c.clause_deeper k .if).append hthen).append (.word .end .nil)
  | .if c t (some e), d, fresh => by
    have hthen := Deeper.space ((t.layout_deeper k d false).word .then)
    have helse := (e.layout_deeper k d false).word .else
    exact (((c.clause_deeper k .if).append hthen).append helse).append (.word .end .nil)
  | .break, _, _ => .same (by simp [Stmt.layout])
  | .return vs, _, _ => .same (by
      rw [Stmt.layout]
      split <;> simp [Expr.newline_notMem_layoutList])

theorem Block.layout_deeper (k : Nat) : (b : Block) → (d : Nat) → (fresh : Bool) →
    Deeper k (b.layout d fresh) (b.layout (d + k) fresh)
  | ⟨w, ss⟩, d, fresh => by
    rw [Block.layout, Block.layout, Nat.add_right_comm]
    exact ((Deeper.same (w.newline_notMem_opening fresh)).append
      (Stmt.layoutLines_deeper k ss (d + 1))).append (.line (.same w.newline_notMem_closing))

theorem Loop.layout_deeper (k : Nat) : (l : Loop) → (d : Nat) →
    Deeper k (l.layout d) (l.layout (d + k))
  | .while c b, d => by
    rw [Loop.layout, Loop.layout]
    exact (c.clause_deeper k .while).append (b.layout_deeper k d false)
  | .repeat b c, d => by
    rw [Loop.layout, Loop.layout]
    exact ((b.layout_deeper k d false).word .repeat).append (c.clause_deeper k .until)
  | .forIn x s b, d => by
    rw [Loop.layout, Loop.layout]
    exact (Deeper.same (by simp [Call.layout, Expr.newline_notMem_layout])).append
      (b.layout_deeper k d false)
  | .numericFor x i l none b, d => by
    rw [Loop.layout, Loop.layout]
    exact (Deeper.same (by simp [Expr.newline_notMem_layout])).append (b.layout_deeper k d false)
  | .numericFor x i l (some s) b, d => by
    rw [Loop.layout, Loop.layout]
    exact (Deeper.same (by simp [Expr.newline_notMem_layout])).append (b.layout_deeper k d false)

theorem Stmt.layoutLines_deeper (k : Nat) : (ss : List Stmt) → (d : Nat) →
    Deeper k (Stmt.layoutLines d ss) (Stmt.layoutLines (d + k) ss)
  | [], _ => .nil
  | s :: ss, d => by
    rw [Stmt.layoutLines, Stmt.layoutLines]
    exact (Deeper.line (s.layout_deeper k d true)).append (Stmt.layoutLines_deeper k ss d)

end

/-! ## Parts -/

/-- The text of a statement on a fresh line, at a level of indentation. -/
def Stmt.textAt (n level : Nat) (s : Stmt) : String :=
  textOf n (s.layout level true)

theorem Stmt.textAt_eq {s : Stmt} (n level : Nat)
    (hnames : ∀ x ∈ (Node.stmt s).names, '\n' ∉ x.toList) :
    s.textAt n level = indentLines (level * n) (s.textAt n 0) := by
  have hlayout := s.layout_deeper level 0 true
  rw [Nat.zero_add] at hlayout
  apply hlayout.textOf_eq
  rw [s.namesOf_layout]
  exact hnames

/-- The texts of statements, each on a new line that begins with its indentation. -/
def Stmt.textLines (n level : Nat) (ss : List Stmt) : String :=
  String.join (ss.map fun s => "\n" ++ spaces (level * n) ++ s.textAt n level)

theorem Stmt.textOf_layoutLines (n level : Nat) (ss : List Stmt) :
    textOf n (Stmt.layoutLines level ss) = Stmt.textLines n level ss := by
  induction ss with
  | nil => rfl
  | cons s ss ih =>
    rw [Stmt.layoutLines, Fragment.textOf_append, Fragment.textOf_cons,
      Fragment.textOf_cons n (.indent level), ih, Fragment.textOf_newline, Fragment.textOf_indent]
    simp [Stmt.textLines, Stmt.textAt, String.append_assoc]

/-- The text of the word that opens a block, after a blank if `spaced` holds. -/
def Delimiters.openText (d : Delimiters) (spaced : Bool) : String :=
  match d.openWord? with
  | some w => if spaced then " " ++ w.text else w.text
  | none => ""

def Delimiters.closeText (d : Delimiters) : String :=
  match d.closeWord? with
  | some w => w.text
  | none => ""

/-- The text of a block, put together from those of its parts: the word that opens it, after a blank
if `spaced` holds, then the statements on lines of their own, one level deeper, and on a last line the
word that closes it. -/
def Block.assembled (n level : Nat) (spaced : Bool) (b : Block) : String :=
  b.delimiters.openText spaced ++ Stmt.textLines n (level + 1) b.statements ++
    "\n" ++ spaces (level * n) ++ b.delimiters.closeText

theorem Block.textOf_layout (n level : Nat) (fresh : Bool) (b : Block) :
    textOf n (b.layout level fresh) = b.assembled n level (!fresh) := by
  obtain ⟨d, ss⟩ := b
  have hopen : textOf n (d.opening fresh) = d.openText (!fresh) := by
    cases d <;> cases fresh <;> rfl
  have hclose : textOf n d.closing = d.closeText := by
    cases d <;> rfl
  rw [Block.layout, Fragment.textOf_append, Fragment.textOf_append, Stmt.textOf_layoutLines,
    Fragment.textOf_cons, Fragment.textOf_cons n (.indent level), hopen, hclose,
    Fragment.textOf_newline, Fragment.textOf_indent, Block.assembled]
  simp only [String.append_assoc]

/-- The blank before the word that opens a block makes a difference where there is such a word. -/
theorem Block.assembled_inj {n level : Nat} {b : Block} {spaced spaced' : Bool} :
    b.assembled n level spaced = b.assembled n level spaced' ↔
      b.delimiters.openWord? = none ∨ spaced = spaced' := by
  constructor
  · intro h
    have hlength := congrArg String.length h
    simp only [Block.assembled, String.length_append] at hlength
    cases hopen : b.delimiters.openWord? with
    | none => exact .inl rfl
    | some w =>
      right
      by_contra hne
      obtain rfl : spaced = !spaced' := Bool.eq_not_of_ne hne
      cases spaced' <;> simp [Delimiters.openText, hopen] at hlength
  · rintro (h | h)
    · simp [Block.assembled, Delimiters.openText, h]
    · rw [h]

theorem Stmt.intercalate_textAt (n : Nat) (ss : List Stmt) (t : String) :
    "\n".intercalate (t :: ss.map (Stmt.textAt n 0)) = t ++ Stmt.textLines n 0 ss := by
  induction ss generalizing t with
  | nil => simp [Stmt.textLines]
  | cons s ss ih =>
    rw [List.map_cons, String.intercalate_cons_cons, ih]
    simp [Stmt.textLines, spaces, String.append_assoc]

/-- A chunk is its statements on lines of their own, the first one where the pen stands. -/
theorem Block.text_drawChunk_cons (n : Nat) {p : Pen} (hlevel : p.level = 0) (d : Delimiters)
    (s : Stmt) (ss : List Stmt) :
    (Block.drawChunk ⟨d, s :: ss⟩ p).text n =
      "\n".intercalate ((s.draw p).text n :: ss.map (Stmt.textAt n 0)) := by
  rw [Block.drawChunk_cons, s.draw_eq, Stmt.intercalate_textAt, Pen.text_puts, Pen.text_puts, hlevel,
    Fragment.textOf_append, Fragment.textOf_cons, Fragment.textOf_indent, Stmt.textOf_layoutLines]
  simp [spaces, String.append_assoc]

/-! ## The current line -/

namespace Fragment

/-- The fragments since the last line end. -/
def sinceLineEnd (fs : List Fragment) : List Fragment :=
  fs.rtakeWhile (· ≠ .newline)

theorem sinceLineEnd_newline (fs : List Fragment) : sinceLineEnd (fs ++ [.newline]) = [] := by
  simp [sinceLineEnd]

theorem sinceLineEnd_concat {f : Fragment} (h : f ≠ .newline) (fs : List Fragment) :
    sinceLineEnd (fs ++ [f]) = sinceLineEnd fs ++ [f] := by
  simp [sinceLineEnd, h]

/-- A line is fresh when nothing but indentation was written on it. -/
theorem leaveFresh_true_iff (fs : List Fragment) :
    leaveFresh true fs = true ↔ ∀ f ∈ sinceLineEnd fs, ∃ d, f = .indent d := by
  induction fs using List.reverseRecOn with
  | nil => exact iff_of_true rfl (List.forall_mem_nil _)
  | append_singleton fs f ih =>
    have hstep : leaveFresh true (fs ++ [f]) = f.leavesFresh (leaveFresh true fs) :=
      leaveFresh_append true fs [f]
    rw [hstep]
    cases f with
    | newline =>
      rw [sinceLineEnd_newline]
      exact iff_of_true rfl (List.forall_mem_nil _)
    | indent d =>
      rw [sinceLineEnd_concat (by simp), List.forall_mem_append]
      simpa [leavesFresh] using ih
    | _ => simp [sinceLineEnd_concat, leavesFresh]

theorem integerText_ne_empty (m : Int64) : integerText m ≠ "" := by
  rw [← String.toList_inj.ne, ← flatMap_chars_integerLexemes, integerLexemes]
  split
  · decide
  · split <;> simp [Lexeme.chars, Token.spelling, Nat.toDigits_ne_nil]

/-- Where indentation has no width, all fragments but it and empty names have a text. -/
theorem textOf_eq_empty_iff (f : Fragment) :
    textOf 0 [f] = "" ↔ f = .name "" ∨ ∃ d, f = .indent d := by
  have htext {s : String} (hs : f.emits 0 = [.text s]) (hne : s ≠ "") : textOf 0 [f] ≠ "" := by
    rw [textOf_of_emits hs]
    exact hne
  cases f with
  | indent d => exact iff_of_true (textOf_indent 0 d) (.inr ⟨d, rfl⟩)
  | name x =>
    rw [textOf_of_emits (show (Fragment.name x).emits 0 = [.text x] from rfl)]
    simp
  | word k => exact iff_of_false (htext rfl (by cases k <;> decide)) (by simp)
  | integer m => exact iff_of_false (htext rfl (integerText_ne_empty m)) (by simp)
  | quoted s =>
    have hquoted : textOf 0 [.quoted s] ≠ "" := by
      rw [← String.toList_inj.ne, toList_textOf]
      simp [lexemesOf, lexemes, Lexeme.chars, Token.spelling]
    exact iff_of_false hquoted (by simp)
  | binaryOp op => exact iff_of_false (htext rfl (by cases op <;> decide)) (by simp)
  | unaryOp op => exact iff_of_false (htext rfl (by cases op <;> decide)) (by simp)
  | symbol s => exact iff_of_false (htext rfl (by cases s <;> decide)) (by simp)
  | space => exact iff_of_false (by decide) (by simp)
  | newline => exact iff_of_false (by decide) (by simp)

end Fragment

/-- What stands on the current line, apart from its indentation. -/
def Pen.line (p : Pen) : List Char :=
  (p.text 0).toList.rtakeWhile (· ≠ '\n')

theorem rtakeWhile_append {α : Type} {p : α → Bool} {xs ys : List α} (h : ∀ y ∈ ys, p y = true) :
    (xs ++ ys).rtakeWhile p = xs.rtakeWhile p ++ ys := by
  have hrev : ∀ y ∈ ys.reverse, p y = true := fun y hy => h y (List.mem_reverse.1 hy)
  rw [List.rtakeWhile, List.reverse_append, List.takeWhile_append_of_pos hrev, List.reverse_append,
    List.reverse_reverse, List.rtakeWhile]

/-- Nothing stands on a line on which only indentation and empty names were written. -/
theorem Fragment.rtakeWhile_textOf_iff {fs : List Fragment}
    (hnames : ∀ x ∈ namesOf fs, '\n' ∉ x.toList) :
    (textOf 0 fs).toList.rtakeWhile (· ≠ '\n') = [] ↔
      ∀ f ∈ sinceLineEnd fs, f = .name "" ∨ ∃ d, f = .indent d := by
  induction fs using List.reverseRecOn with
  | nil => exact iff_of_true rfl (List.forall_mem_nil _)
  | append_singleton fs f ih =>
    rw [namesOf_append, List.forall_mem_append] at hnames
    rw [textOf_append, String.toList_append]
    by_cases hf : f = .newline
    · subst hf
      rw [sinceLineEnd_newline, textOf_newline]
      exact iff_of_true (List.rtakeWhile_concat_neg _ _ _ (by decide)) (List.forall_mem_nil _)
    · have hline : '\n' ∉ (textOf 0 [f]).toList :=
        newline_notMem_textOf hf fun x hx => hnames.2 x (by simp [hx])
      have hall : ∀ c ∈ (textOf 0 [f]).toList, decide (c ≠ '\n') = true := by
        intro c hc
        exact decide_eq_true fun heq => hline (heq ▸ hc)
      rw [rtakeWhile_append hall, List.append_eq_nil_iff, ih hnames.1, sinceLineEnd_concat hf,
        List.forall_mem_append, List.forall_mem_singleton, String.toList_eq_nil_iff,
        textOf_eq_empty_iff]

/-- Names were written on the current line, all of them empty, and nothing else but indentation. -/
def Pen.Blank (p : Pen) : Prop :=
  .name "" ∈ Fragment.sinceLineEnd p.written ∧
    ∀ f ∈ Fragment.sinceLineEnd p.written, f = .name "" ∨ ∃ d, f = .indent d

/-- The pen takes a line for one with something on it exactly when there is, unless the line is
blank. -/
theorem Pen.not_fresh_eq_iff {p : Pen} (hnames : ∀ x ∈ namesOf p.written, '\n' ∉ x.toList) :
    (!p.fresh) = decide (p.line ≠ []) ↔ ¬ p.Blank := by
  have hline : p.line = [] ↔ ∀ f ∈ Fragment.sinceLineEnd p.written, f = .name "" ∨ ∃ d, f = .indent d :=
    Fragment.rtakeWhile_textOf_iff hnames
  have hfresh : p.fresh = true ↔ ∀ f ∈ Fragment.sinceLineEnd p.written, ∃ d, f = .indent d := by
    rw [p.fresh_eq, Fragment.leaveFresh_true_iff]
  cases hf : p.fresh with
  | true =>
    have hindents := hfresh.1 hf
    have hnil : p.line = [] := hline.2 fun f hmem => .inr (hindents f hmem)
    have hblank : ¬ p.Blank := by
      rintro ⟨hname, -⟩
      obtain ⟨d, hd⟩ := hindents _ hname
      cases hd
    simp [hnil, hblank]
  | false =>
    -- something was written on the line, so it is blank if all of it is indentation or empty names
    have hblank : p.Blank ↔ p.line = [] := by
      constructor
      · rintro ⟨-, hall⟩
        exact hline.2 hall
      · intro hnil
        refine ⟨?_, hline.1 hnil⟩
        by_contra hname
        refine Bool.false_ne_true (hf.symm.trans (hfresh.2 fun f hmem => ?_))
        rcases hline.1 hnil f hmem with rfl | hindent
        · exact absurd hmem hname
        · exact hindent
    simp [hblank]

theorem Node.level_draw (p : Pen) (node : Node) : (node.draw p).level = p.level := by
  cases node with
  | chunk b =>
    obtain ⟨d, ss⟩ := b
    cases ss with
    | nil => rfl
    | cons s ss => rw [Node.draw, Block.drawChunk_cons, Pen.level_puts]
  | block b => rw [Node.draw, b.draw_eq, Pen.level_puts]
  | stmt s => rw [Node.draw, s.draw_eq, Pen.level_puts]
  | expr e => exact Pen.level_puts _ _
  | loop l => rw [Node.draw, l.draw_eq, Pen.level_puts]
  | call c => exact Pen.level_puts _ _
  | name x => rfl

/-- **Layout composes.** At a level of indentation a statement has the text that it has at the level
zero with the indentation put after every line end, where no name has a line end in it. A pen that
draws nodes writes their text; it writes a statement on a fresh line as that text at its level, a
block as its parts, and a chunk as the texts of its statements joined by line ends, and it is left at
the level where it was. The word that opens a block comes after a blank exactly when something stands
on the line, unless the line is blank: empty names count as something for the pen. -/
theorem layout_composes_iff (n : Nat) :
    (∀ (level : Nat) (s : Stmt), (∀ x ∈ (Node.stmt s).names, '\n' ∉ x.toList) →
      s.textAt n level = indentLines (level * n) (s.textAt n 0)) ∧
    (∀ nodes, (Node.drawAll nodes {}).text n = Node.rawText { indentSize := n } nodes) ∧
    ∀ p : Pen,
      (∀ s : Stmt, p.fresh = true → (s.draw p).text n = p.text n ++ s.textAt n p.level) ∧
      (∀ b : Block, (b.draw p).text n = p.text n ++ b.assembled n p.level (!p.fresh)) ∧
      ((∀ x ∈ namesOf p.written, '\n' ∉ x.toList) → ∀ b : Block,
        ((b.draw p).text n = p.text n ++ b.assembled n p.level (decide (p.line ≠ [])) ↔
          b.delimiters.openWord? = none ∨ ¬ p.Blank)) ∧
      (p.level = 0 → ∀ d s ss, (Block.drawChunk ⟨d, s :: ss⟩ p).text n =
        "\n".intercalate ((s.draw p).text n :: ss.map (Stmt.textAt n 0))) ∧
      (p.level = 0 → p.fresh = true → ∀ b : Block, (b.drawChunk p).text n =
        p.text n ++ "\n".intercalate (b.statements.map (Stmt.textAt n 0))) ∧
      ∀ node : Node, (node.draw p).level = p.level := by
  have hblock : ∀ (p : Pen) (b : Block),
      (b.draw p).text n = p.text n ++ b.assembled n p.level (!p.fresh) := by
    intro p b
    rw [b.draw_eq, Pen.text_puts, Block.textOf_layout]
  have hstmt : ∀ (p : Pen) (s : Stmt), p.fresh = true →
      (s.draw p).text n = p.text n ++ s.textAt n p.level := by
    intro p s hfresh
    rw [s.draw_eq, Pen.text_puts, hfresh, Stmt.textAt]
  refine ⟨fun level s hnames => Stmt.textAt_eq n level hnames, fun nodes => ?_, fun p => ?_⟩
  · rw [Node.drawAll_eq rfl, Pen.text_puts]
    exact String.empty_append
  refine ⟨hstmt p, hblock p, fun hnames b => ?_,
    fun hlevel d s ss => Block.text_drawChunk_cons n hlevel d s ss, fun hlevel hfresh b => ?_,
    fun node => node.level_draw p⟩
  · rw [hblock, String.append_right_inj, Block.assembled_inj, Pen.not_fresh_eq_iff hnames]
  · obtain ⟨d, ss⟩ := b
    cases ss with
    | nil => simp [Block.drawChunk]
    | cons s ss =>
      rw [Block.text_drawChunk_cons n hlevel, hstmt p s hfresh, hlevel, List.map_cons,
        Stmt.intercalate_textAt, Stmt.intercalate_textAt, String.append_assoc]

/-- A loop in a block in a condition, with a line end in a string. -/
def loopInBranch : Stmt :=
  .if (.ident "c") ⟨.bare, [.do ⟨.doEnd, [
      .loop (.while (.bool true) ⟨.doEnd, [.expr (.call (.ident "print") [.str "a\nb"]), .break]⟩)]⟩]⟩
    (some ⟨.bare, []⟩)

theorem layout_composes_iff_loopInBranch :
    (∀ x ∈ (Node.stmt loopInBranch).names, '\n' ∉ x.toList) ∧
    loopInBranch.textAt 2 3 = indentLines 6 (loopInBranch.textAt 2 0) ∧
    (Block.drawChunk ⟨.bare, [loopInBranch, .break]⟩ {}).text 2 = loopInBranch.textAt 2 0 ++ "\nbreak" ∧
    (Block.draw ⟨.doEnd, [.break]⟩ (Node.drawAll [.name "x"] {})).text 2 = "x do\n  break\nend" := by
  obtain ⟨hdeeper, -, hpen⟩ := layout_composes_iff 2
  have hnames : ∀ x ∈ (Node.stmt loopInBranch).names, '\n' ∉ x.toList := by decide +kernel
  obtain ⟨-, -, -, -, hchunk, -⟩ := hpen {}
  obtain ⟨-, -, hblock, -⟩ := hpen (Node.drawAll [.name "x"] {})
  have hnotBlank : ¬ (Node.drawAll [.name "x"] {}).Blank := fun h => absurd h.1 (by decide)
  refine ⟨hnames, hdeeper 3 loopInBranch hnames, ?_, ?_⟩
  · rw [hchunk rfl rfl]
    decide +kernel
  · rw [(hblock (by decide +kernel) ⟨.doEnd, [.break]⟩).2 (.inr hnotBlank)]
    decide +kernel

/-- After an empty name nothing stands on the line, and the word that opens a block still comes after
a blank. -/
theorem block_after_empty_name :
    let p := Node.drawAll [.name ""] {}
    let b : Block := ⟨.doEnd, []⟩
    p.line = [] ∧ p.text 4 ++ b.assembled 4 p.level (decide (p.line ≠ [])) = "do\nend" ∧
    (b.draw p).text 4 = " do\nend" ∧ Node.rawText {} [.name "", .block b] = " do\nend" := by
  decide +kernel

end LoopLowering
