import LoopLowering.Proofs.Spelling

/- The tokens of rendered programs. Between statements, and between the words and the
   expressions of a statement, stand blanks and line ends, and no token goes on over
   one of them. So the layout of statements can be read back as the tokens that were
   meant, whatever the width of the indentation (`Block.tokenize_programText`).

   Two words of a program are not kept apart by a blank: the one that closes a branch
   of `if` or a body of `repeat`, where the branch or body has delimiters of its own,
   and the word of the statement that follows it. Such statements are not legible
   (`Stmt.isLegible`). -/
namespace LoopLowering

open Lexeme
open Fragment (lexemesOf lexemesOf_append lexemesOf_cons)

/-! ## Pieces with blanks between them -/

/-- The pieces can be read back: each of them can, and neighbours are apart. -/
structure Lexeme.Spaced (ls : List Lexeme) : Prop where
  proper : ∀ l ∈ ls, l.isProper = true
  apart : ls.IsChain Apart

theorem Lexeme.Tidy.spaced {a b : Lexeme} {ls : List Lexeme} (h : Tidy a b ls) : Spaced ls :=
  ⟨h.proper, h.isChain⟩

theorem Lexeme.spaced_nil : Spaced [] :=
  ⟨List.forall_mem_nil _, .nil⟩

theorem Lexeme.Spaced.append {ls ms : List Lexeme} (hl : Spaced ls) (hm : Spaced ms)
    (h : ∀ l ∈ ls.getLast?, ∀ m ∈ ms.head?, Apart l m) : Spaced (ls ++ ms) :=
  ⟨List.forall_mem_append.mpr ⟨hl.proper, hm.proper⟩, List.isChain_append.mpr ⟨hl.apart, hm.apart, h⟩⟩

/-- No token goes on over a blank or a line end. -/
theorem Token.extend_pending_blank {c : Char} (hc : c = ' ' ∨ c = '\n') (t : Token) :
    t.pending.extend c = none := by
  rcases hc with rfl | rfl
  · cases t with
    | sign s => cases s <;> rfl
    | _ => rfl
  · cases t with
    | sign s => cases s <;> rfl
    | _ => rfl

theorem Lexeme.apart_before_blank {c : Char} (hc : c = ' ' ∨ c = '\n') (l : Lexeme) :
    Apart l (.blank c) := by
  rintro t - _ ⟨⟩
  exact t.extend_pending_blank hc

theorem Lexeme.Spaced.cons_blank {c : Char} (hc : c = ' ' ∨ c = '\n') {ls : List Lexeme}
    (h : Spaced ls) : Spaced (.blank c :: ls) := by
  have hblank : Spaced [.blank c] := by
    refine ⟨List.forall_mem_singleton.mpr ?_, .singleton _⟩
    rcases hc with rfl | rfl <;> rfl
  refine hblank.append h ?_
  rintro _ ⟨⟩ m _
  exact apart_blank c m

/-! ## Fragments with blanks between them -/

/-- Whether the text of the fragment begins with a blank or a line end. -/
def Fragment.opensBlank : Fragment → Bool
  | .space | .newline | .symbol .assign => true
  | _ => false

/-- Whether the text of the fragments begins with a blank or a line end, unless there are none. -/
def Fragment.openBlank (fs : List Fragment) : Bool :=
  fs.head?.all Fragment.opensBlank

/-- The text of the fragments can be read back. -/
def Neat (n : Nat) (fs : List Fragment) : Prop :=
  Spaced (lexemesOf n fs)

theorem neat_nil (n : Nat) : Neat n [] := spaced_nil

theorem Fragment.head?_lexemesOf {n : Nat} {fs : List Fragment} (h : Fragment.openBlank fs = true)
    {m : Lexeme} (hm : m ∈ (lexemesOf n fs).head?) : m = .blank ' ' ∨ m = .blank '\n' := by
  cases fs with
  | nil => cases hm
  | cons f fs =>
    have hf : f.opensBlank = true := h
    unfold Fragment.opensBlank at hf
    split at hf
    · cases hm
      exact .inl rfl
    · cases hm
      exact .inr rfl
    · cases hm
      exact .inl rfl
    · cases hf

namespace Neat

variable {n : Nat} {fs gs : List Fragment}

theorem append (hf : Neat n fs) (hg : Neat n gs) (hblank : Fragment.openBlank gs = true) :
    Neat n (fs ++ gs) := by
  unfold Neat at hf hg ⊢
  rw [lexemesOf_append]
  refine hf.append hg fun l _ m hm => ?_
  rcases Fragment.head?_lexemesOf hblank hm with rfl | rfl
  · exact apart_before_blank (.inl rfl) l
  · exact apart_before_blank (.inr rfl) l

theorem space (h : Neat n gs) : Neat n (.space :: gs) :=
  h.cons_blank (.inl rfl)

theorem newline (h : Neat n gs) : Neat n (.newline :: gs) :=
  h.cons_blank (.inr rfl)

theorem indent (depth : Nat) (h : Neat n gs) : Neat n (.indent depth :: gs) := by
  unfold Neat at h ⊢
  rw [lexemesOf_cons, Fragment.lexemes]
  induction depth * n with
  | zero => exact h
  | succ k ih => exact ih.cons_blank (.inl rfl)

theorem word (k : Keyword) (h : Neat n gs) (hblank : Fragment.openBlank gs = true) :
    Neat n (.word k :: gs) := by
  have hword : Neat n [.word k] := (Tidy.single (l := .token (.word k)) rfl).spaced
  exact hword.append h hblank

theorem assign (h : Neat n gs) : Neat n (.symbol .assign :: gs) := by
  have hsign : Spaced [.token (.sign .assign)] := (Tidy.single rfl).spaced
  have hrest : Spaced (.blank ' ' :: lexemesOf n gs) := h.cons_blank (.inl rfl)
  refine Spaced.cons_blank (.inl rfl) (hsign.append hrest ?_)
  rintro l - _ ⟨⟩
  exact apart_before_blank (.inl rfl) l

theorem expr {e : Expr} (he : e.isWellNamed = true) (h : Neat n gs)
    (hblank : Fragment.openBlank gs = true) : Neat n (e.layout 0 ++ gs) := by
  obtain ⟨a, b, htidy, -⟩ := e.layout_tidy n he 0
  exact append htidy.spaced h hblank

theorem exprs {es : List Expr} (hes : Expr.areWellNamed es = true) (h : Neat n gs)
    (hblank : Fragment.openBlank gs = true) : Neat n (Expr.layoutList es ++ gs) := by
  cases es with
  | nil => exact h
  | cons e es =>
    obtain ⟨a, b, htidy, -⟩ := Expr.layouts_tidy n (e :: es) hes (List.cons_ne_nil e es)
    exact append htidy.spaced h hblank

theorem name {x : Name} (hx : x.isProper = true) (h : Neat n gs)
    (hblank : Fragment.openBlank gs = true) : Neat n (.name x :: gs) := by
  obtain ⟨y, z, htidy, -⟩ := tidy_name (n := n) (Name.isPath_of_isProper hx)
  have hname : Neat n [.name x] := htidy.spaced
  exact hname.append h hblank

end Neat

/-! ## Layouts of statements -/

mutual

/-- Whether the text of the statement can be read back as its tokens: all names are proper, and the
branches of `if` and the bodies of `repeat` have no delimiters of their own. -/
def Stmt.isLegible : Stmt → Bool
  | .expr e => e.isWellNamed
  | .local d => d.names.all Name.isProper && Expr.areWellNamed d.values
  | .assign ts vs => Expr.areWellNamed ts && Expr.areWellNamed vs
  | .loop l => l.isLegible
  | .do b => b.isLegible
  | .if c t none => c.isWellNamed && t.isLegible && t.delimiters == .bare
  | .if c t (some e) =>
    c.isWellNamed && t.isLegible && t.delimiters == .bare && e.isLegible && e.delimiters == .bare
  | .break => true
  | .return vs => Expr.areWellNamed vs

def Block.isLegible : Block → Bool
  | ⟨_, ss⟩ => Stmt.areLegible ss

def Loop.isLegible : Loop → Bool
  | .while c b => c.isWellNamed && b.isLegible
  | .repeat b c => b.isLegible && b.delimiters == .bare && c.isWellNamed
  | .forIn x s b => x.isProper && s.toExpr.isWellNamed && b.isLegible
  | .numericFor x i l s b =>
    x.isProper && Expr.areWellNamed (i :: l :: s.toList) && b.isLegible

def Stmt.areLegible : List Stmt → Bool
  | [] => true
  | s :: ss => s.isLegible && Stmt.areLegible ss

end

theorem commaSeparated_names (xs : List Name) :
    commaSeparated (xs.map fun x => [.name x]) = Expr.layoutList (xs.map .ident) := by
  rw [Expr.layoutList, Expr.layouts_eq_map, List.map_map]
  congr 1

theorem areWellNamed_names {xs : List Name} (h : xs.all Name.isProper = true) :
    Expr.areWellNamed (xs.map .ident) = true := by
  induction xs with
  | nil => rfl
  | cons x xs ih =>
    obtain ⟨hx, hxs⟩ := Bool.and_eq_true_iff.mp h
    exact Bool.and_eq_true_iff.mpr ⟨Name.isPath_of_isProper hx, ih hxs⟩

theorem Loop.lexemesOf_numericFor (n depth : Nat) (x : Name) (i l : Expr) (step : Option Expr)
    (b : Block) :
    lexemesOf n ((Loop.numericFor x i l step b).layout depth) =
      lexemesOf n (.word .for :: .space :: .name x :: .symbol .assign ::
        (Expr.layoutList (i :: l :: step.toList) ++ b.layout depth false)) := by
  cases step with
  | none =>
    simp only [Loop.layout, Expr.layoutList, Expr.layouts, commaSeparated, Option.toList_none,
      lexemesOf_append, lexemesOf_cons, List.append_assoc]
    rfl
  | some s =>
    simp only [Loop.layout, Expr.layoutList, Expr.layouts, commaSeparated, Option.toList_some,
      lexemesOf_append, lexemesOf_cons, List.append_assoc]
    rfl

/-- After a header a block begins with a blank or a line end. -/
theorem Block.openBlank_layout (b : Block) (depth : Nat) (gs : List Fragment) :
    Fragment.openBlank (b.layout depth false ++ gs) = true := by
  obtain ⟨d, ss⟩ := b
  cases d with
  | doEnd => rfl
  | bare => cases ss <;> rfl

theorem Stmt.openBlank_layoutLines (ss : List Stmt) (depth : Nat) {gs : List Fragment}
    (h : Fragment.openBlank gs = true) :
    Fragment.openBlank (Stmt.layoutLines depth ss ++ gs) = true := by
  cases ss with
  | nil => exact h
  | cons s ss => rfl

mutual

theorem Stmt.layout_neat (n : Nat) : (s : Stmt) → s.isLegible = true → (depth : Nat) →
    (fresh : Bool) → {gs : List Fragment} → Neat n gs → Fragment.openBlank gs = true →
    Neat n (s.layout depth fresh ++ gs)
  | .expr e, h, _, _, gs, hgs, hblank => .expr h hgs hblank
  | .local d, h, _, _, gs, hgs, hblank => by
    obtain ⟨hnames, hvalues⟩ := Bool.and_eq_true_iff.mp h
    have hidents := areWellNamed_names hnames
    rw [Stmt.layout, Declaration.layout, commaSeparated_names]
    cases hempty : d.values.isEmpty with
    | true =>
      simp only [if_true, List.append_nil, List.cons_append]
      exact .word .local (.space (.exprs hidents hgs hblank)) rfl
    | false =>
      simp only [Bool.false_eq_true, if_false, List.cons_append, List.append_assoc]
      exact .word .local (.space (.exprs hidents (.assign (.exprs hvalues hgs hblank)) rfl)) rfl
  | .assign ts vs, h, _, _, gs, hgs, hblank => by
    obtain ⟨hts, hvs⟩ := Bool.and_eq_true_iff.mp h
    rw [Stmt.layout, List.append_assoc]
    exact .exprs hts (.assign (.exprs hvs hgs hblank)) rfl
  | .loop l, h, depth, _, gs, hgs, hblank => by
    rw [Stmt.layout]
    exact l.layout_neat n h depth hgs hblank
  | .do b, h, depth, fresh, gs, hgs, hblank => by
    rw [Stmt.layout]
    exact b.layout_neat n h depth fresh hgs fun _ => hblank
  | .if c t none, h, depth, _, gs, hgs, hblank => by
    simp only [Stmt.isLegible, Bool.and_eq_true, beq_iff_eq] at h
    obtain ⟨⟨hc, ht⟩, hbare⟩ := h
    rw [Stmt.layout]
    simp only [List.cons_append, List.append_assoc, List.nil_append]
    have hthen := t.layout_neat n ht depth false (.word .end hgs hblank)
      fun hd => absurd (hbare.symm.trans hd) (by decide)
    have hrest := Neat.word .then hthen (t.openBlank_layout depth _)
    exact .word .if (.space (.expr hc (.space hrest) rfl)) rfl
  | .if c t (some e), h, depth, _, gs, hgs, hblank => by
    simp only [Stmt.isLegible, Bool.and_eq_true, beq_iff_eq] at h
    obtain ⟨⟨⟨⟨hc, ht⟩, hbare⟩, he⟩, hbare'⟩ := h
    rw [Stmt.layout]
    simp only [List.cons_append, List.append_assoc, List.nil_append]
    have helse := e.layout_neat n he depth false (.word .end hgs hblank)
      fun hd => absurd (hbare'.symm.trans hd) (by decide)
    have hthen := t.layout_neat n ht depth false (.word .else helse (e.openBlank_layout depth _))
      fun hd => absurd (hbare.symm.trans hd) (by decide)
    have hrest := Neat.word .then hthen (t.openBlank_layout depth _)
    exact .word .if (.space (.expr hc (.space hrest) rfl)) rfl
  | .break, _, _, _, gs, hgs, hblank => .word .break hgs hblank
  | .return vs, h, _, _, gs, hgs, hblank => by
    rw [Stmt.layout]
    cases hempty : vs.isEmpty with
    | true => exact .word .return hgs hblank
    | false => exact .word .return (.space (.exprs h hgs hblank)) rfl

/-- A block in front of a blank; without delimiters it may be in front of anything. -/
theorem Block.layout_neat (n : Nat) : (b : Block) → b.isLegible = true → (depth : Nat) →
    (fresh : Bool) → {gs : List Fragment} → Neat n gs →
    (b.delimiters = .doEnd → Fragment.openBlank gs = true) → Neat n (b.layout depth fresh ++ gs)
  | ⟨.bare, ss⟩, h, depth, fresh, gs, hgs, _ => by
    have hlines := Stmt.layoutLines_neat n ss h (depth + 1) (.newline (.indent depth hgs)) rfl
    rw [Block.layout, List.append_assoc]
    exact hlines
  | ⟨.doEnd, ss⟩, h, depth, fresh, gs, hgs, hblank => by
    have hend := Neat.newline (.indent depth (.word .end hgs (hblank rfl)))
    have hlines := Stmt.layoutLines_neat n ss h (depth + 1) hend rfl
    have hdo := Neat.word .do hlines (Stmt.openBlank_layoutLines ss _ rfl)
    rw [Block.layout, List.append_assoc, List.append_assoc]
    cases fresh with
    | true => exact hdo
    | false => exact hdo.space

theorem Loop.layout_neat (n : Nat) : (l : Loop) → l.isLegible = true → (depth : Nat) →
    {gs : List Fragment} → Neat n gs → Fragment.openBlank gs = true →
    Neat n (l.layout depth ++ gs)
  | .while c b, h, depth, gs, hgs, hblank => by
    obtain ⟨hc, hb⟩ := Bool.and_eq_true_iff.mp h
    have hbody := b.layout_neat n hb depth false hgs fun _ => hblank
    rw [Loop.layout]
    simp only [List.cons_append, List.append_assoc]
    exact .word .while (.space (.expr hc hbody (b.openBlank_layout depth gs))) rfl
  | .repeat b c, h, depth, gs, hgs, hblank => by
    simp only [Loop.isLegible, Bool.and_eq_true, beq_iff_eq] at h
    obtain ⟨⟨hb, hbare⟩, hc⟩ := h
    have huntil := Neat.word .until (.space (.expr hc hgs hblank)) rfl
    have hbody := b.layout_neat n hb depth false huntil
      fun hd => absurd (hbare.symm.trans hd) (by decide)
    rw [Loop.layout]
    simp only [List.cons_append, List.append_assoc]
    exact .word .repeat hbody (b.openBlank_layout depth _)
  | .forIn x s b, h, depth, gs, hgs, hblank => by
    simp only [Loop.isLegible, Bool.and_eq_true] at h
    obtain ⟨⟨hx, hs⟩, hb⟩ := h
    have hbody := b.layout_neat n hb depth false hgs fun _ => hblank
    have hsource := Neat.expr hs hbody (b.openBlank_layout depth gs)
    rw [Loop.layout, Call.layout]
    simp only [List.cons_append, List.append_assoc, List.nil_append]
    exact .word .for (.space (.name hx (.space (.word .in (.space hsource) rfl)) rfl)) rfl
  | .numericFor x i l s b, h, depth, gs, hgs, hblank => by
    simp only [Loop.isLegible, Bool.and_eq_true] at h
    obtain ⟨⟨hx, hclauses⟩, hb⟩ := h
    have hbody := b.layout_neat n hb depth false hgs fun _ => hblank
    have hheader := Neat.exprs hclauses hbody (b.openBlank_layout depth gs)
    have hloop := Neat.word .for (.space (.name hx (.assign hheader) rfl)) rfl
    unfold Neat at hloop ⊢
    rw [lexemesOf_append, Loop.lexemesOf_numericFor, ← lexemesOf_append]
    simpa only [List.cons_append, List.append_assoc] using hloop

theorem Stmt.layoutLines_neat (n : Nat) : (ss : List Stmt) → Stmt.areLegible ss = true →
    (depth : Nat) → {gs : List Fragment} → Neat n gs → Fragment.openBlank gs = true →
    Neat n (Stmt.layoutLines depth ss ++ gs)
  | [], _, _, _, hgs, _ => hgs
  | s :: ss, h, depth, gs, hgs, hblank => by
    obtain ⟨hs, hss⟩ := Bool.and_eq_true_iff.mp h
    have hrest := Stmt.layoutLines_neat n ss hss depth hgs hblank
    have hfirst := s.layout_neat n hs depth true hrest (Stmt.openBlank_layoutLines ss depth hblank)
    rw [Stmt.layoutLines]
    simp only [List.cons_append, List.append_assoc]
    exact .newline (.indent depth hfirst)

end

/-! ## Texts of programs -/

theorem Block.chunkLayout_neat (n : Nat) {b : Block} (h : Stmt.areLegible b.statements = true)
    (fresh : Bool) {gs : List Fragment} (hgs : Neat n gs) (hblank : Fragment.openBlank gs = true) :
    Neat n (b.chunkLayout fresh ++ gs) := by
  unfold Block.chunkLayout
  split
  · exact hgs
  · next s ss heq =>
    rw [heq] at h
    obtain ⟨hs, hss⟩ := Bool.and_eq_true_iff.mp h
    have hrest := Stmt.layoutLines_neat n ss hss 0 hgs hblank
    have hfirst := s.layout_neat n hs 0 fresh hrest (Stmt.openBlank_layoutLines ss 0 hblank)
    simp only [List.cons_append, List.append_assoc]
    exact .indent 0 hfirst

theorem withFinalNewline_eq (s : String) :
    withFinalNewline s = s ∨ withFinalNewline s = s.push '\n' := by
  unfold withFinalNewline
  split
  · exact .inl rfl
  · exact .inr rfl

/-- The text of a program is that of its layout, perhaps with a newline at the end. -/
theorem Block.toList_programText (style : TextStyle) (b : Block) :
    ∃ gs, (gs = [] ∨ gs = [.newline]) ∧ (b.programText style).toList =
      (lexemesOf style.indentSize (b.chunkLayout true ++ gs)).flatMap chars := by
  have hraw : (Node.rawText style [.chunk b]).toList =
      (lexemesOf style.indentSize (b.chunkLayout true ++ [])).flatMap chars := by
    rw [Node.rawText, Fragment.toList_textOf]
    rfl
  have htext : b.programText style = Node.rawText style [.chunk b] ∨
      b.programText style = (Node.rawText style [.chunk b]).push '\n' := by
    unfold Block.programText Node.textAll
    split
    · exact withFinalNewline_eq _
    · exact .inl rfl
  rcases htext with htext | htext
  · exact ⟨[], .inl rfl, htext ▸ hraw⟩
  · refine ⟨[.newline], .inr rfl, ?_⟩
    rw [List.append_nil] at hraw
    rw [htext, String.toList_push, hraw, lexemesOf_append, List.flatMap_append]
    rfl

/-- **The text of a program is read as the tokens it is meant to write,** whatever the width of the
indentation and with or without a newline at its end. -/
theorem Block.tokenize_programText (style : TextStyle) {b : Block}
    (h : Stmt.areLegible b.statements = true) :
    tokenize (b.programText style) = some (Fragment.tokensOf (b.chunkLayout true)) := by
  obtain ⟨gs, hgs, htext⟩ := b.toList_programText style
  have hend : Neat style.indentSize gs ∧ Fragment.openBlank gs = true ∧
      (lexemesOf style.indentSize gs).filterMap token? = [] := by
    rcases hgs with rfl | rfl
    · exact ⟨neat_nil _, rfl, rfl⟩
    · exact ⟨(neat_nil _).newline, rfl, rfl⟩
  obtain ⟨hneat, hblank, htokens⟩ := hend
  have hspaced := Block.chunkLayout_neat style.indentSize h true hneat hblank
  rw [tokenize, htext, tokenize_lexemes hspaced.proper hspaced.apart, lexemesOf_append,
    List.filterMap_append, htokens, List.append_nil, Fragment.filterMap_lexemesOf]

end LoopLowering
