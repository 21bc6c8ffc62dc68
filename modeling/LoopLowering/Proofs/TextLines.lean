import LoopLowering.Proofs.Lines

/- Texts read line by line. No token has a line end in it, so a text can be cut at its
   line ends before it is read (`textRows`). What is read then is where the tokens
   stand as well as which they are, and statements that would run on into each other
   are kept apart. The rows of the text of a program are its lines
   (`Block.textRows_programText`), whatever the width of the indentation, so different
   programs have different texts. -/
namespace LoopLowering

open Lexeme
open Fragment (lexemesOf lexemesOf_append lexemesOf_cons tokensOf)

/-! ## Line ends -/

theorem Token.newline_notMem_spelling {t : Token} (h : t.isProper = true) : '\n' ∉ t.spelling := by
  cases t with
  | word k =>
    intro hmem
    cases isNameChar_of_mem (isWord_text k) hmem
  | name x =>
    intro hmem
    cases isNameChar_of_mem (Bool.and_eq_true_iff.mp h).1 hmem
  | numeral n =>
    intro hmem
    cases Nat.isDigit_of_mem_toDigits (by decide) (by decide) hmem
  | quoted s =>
    simp only [Token.spelling, List.mem_append, List.mem_cons, List.mem_flatMap, not_or, not_exists,
      not_and]
    refine ⟨⟨by decide, fun c _ hc => (plain_of_mem_escapeChar hc).1 rfl⟩, by decide, List.not_mem_nil⟩
  | sign s => cases s <;> decide

theorem Lexeme.newline_notMem_chars {l : Lexeme} (h : l.isProper = true) (hne : l ≠ .blank '\n') :
    '\n' ∉ l.chars := by
  cases l with
  | token t => exact t.newline_notMem_spelling h
  | blank c =>
    intro hmem
    rw [List.mem_singleton.mp hmem] at hne
    exact hne rfl

/-! ## Rows -/

theorem splitOn_append_cons {α : Type} [BEq α] [LawfulBEq α] (a : α) (xs ys : List α) :
    (xs ++ a :: ys).splitOn a = xs.splitOn a ++ ys.splitOn a :=
  List.splitOnP_append_cons (p := (· == a)) xs ys (beq_self_eq_true a)

/-- The tokens of the lines of a text, of those that have any. -/
def textRows (cs : List Char) : List (Option (List Token)) :=
  ((cs.splitOn '\n').map (Pending.run .nothing)).filter (· ≠ some [])

theorem textRows_append (cs ds : List Char) :
    textRows (cs ++ '\n' :: ds) = textRows cs ++ textRows ds := by
  simp only [textRows, splitOn_append_cons, List.map_append, List.filter_append]

/-- The piece in a stream of tokens and line ends. -/
def Lexeme.streamed : Lexeme → List (Option Token)
  | .token t => [some t]
  | .blank c => if c = '\n' then [none] else []

/-- The rows of a stream of tokens and line ends that have any tokens. -/
def rows (ts : List (Option Token)) : List (List Token) :=
  ((ts.splitOn none).map (List.filterMap id)).filter (· ≠ [])

theorem rows_append (ts us : List (Option Token)) : rows (ts ++ none :: us) = rows ts ++ rows us := by
  simp only [rows, splitOn_append_cons, List.map_append, List.filter_append]

theorem rows_map_some {ts : List Token} : rows (ts.map some) = [ts].filter (· ≠ []) := by
  have hnone : none ∉ ts.map some := by simp
  have hrow : (ts.map some).filterMap id = ts := by
    rw [List.filterMap_map]
    exact List.filterMap_some
  rw [rows, List.splitOn_eq_singleton hnone, List.map_singleton, hrow]

theorem Lexeme.flatMap_streamed {ls : List Lexeme} (h : .blank '\n' ∉ ls) :
    ls.flatMap streamed = (ls.filterMap token?).map some := by
  induction ls with
  | nil => rfl
  | cons l ls ih =>
    obtain ⟨hl, hls⟩ := not_or.mp (mt List.mem_cons.mpr h)
    cases l with
    | token t => simp [streamed, token?, ih hls]
    | blank c =>
      have hc : c ≠ '\n' := by
        rintro rfl
        exact hl rfl
      rw [List.flatMap_cons, streamed, if_neg hc, ih hls]
      rfl

theorem Lexeme.Spaced.of_append {ls ms : List Lexeme} (h : Spaced (ls ++ ms)) :
    Spaced ls ∧ Spaced ms := by
  obtain ⟨hl, hm⟩ := List.forall_mem_append.mp h.proper
  obtain ⟨hl', hm', -⟩ := List.isChain_append.mp h.apart
  exact ⟨⟨hl, hl'⟩, ⟨hm, hm'⟩⟩

/-- Pieces without a line end are one row. -/
theorem textRows_line {ls : List Lexeme} (h : Spaced ls) (hline : .blank '\n' ∉ ls) :
    textRows (ls.flatMap chars) = (rows (ls.flatMap streamed)).map some := by
  have hchars : '\n' ∉ ls.flatMap chars := by
    intro hmem
    obtain ⟨l, hl, hc⟩ := List.mem_flatMap.mp hmem
    exact l.newline_notMem_chars (h.proper l hl) (fun heq => hline (heq ▸ hl)) hc
  rw [textRows, List.splitOn_eq_singleton hchars, List.map_singleton,
    tokenize_lexemes h.proper h.apart, flatMap_streamed hline, rows_map_some]
  cases ls.filterMap token? <;> rfl

/-- The rows of a text are those of the pieces that it was written from. -/
theorem textRows_lexemes {ls : List Lexeme} (h : Spaced ls) :
    textRows (ls.flatMap chars) = (rows (ls.flatMap streamed)).map some := by
  induction hn : ls.length using Nat.strong_induction_on generalizing ls with
  | _ n ih =>
    by_cases hmem : .blank '\n' ∈ ls
    · obtain ⟨ms, ns, rfl⟩ := List.append_of_mem hmem
      have hlength : ms.length + ns.length + 1 = n := by
        rw [← hn, List.length_append, List.length_cons, Nat.add_assoc]
      rw [← List.singleton_append] at h
      obtain ⟨hms, hns⟩ := h.of_append
      have hfirst := ih ms.length (by omega) hms rfl
      have hrest := ih ns.length (by omega) hns.of_append.2 rfl
      simp only [List.flatMap_append, List.flatMap_cons]
      -- a line end separates rows on both sides
      show textRows (ms.flatMap chars ++ '\n' :: ns.flatMap chars) =
        (rows (ms.flatMap streamed ++ none :: ns.flatMap streamed)).map some
      rw [textRows_append, rows_append, List.map_append, hfirst, hrest]
    · exact textRows_line h hmem

/-! ## Layouts as streams -/

/-- The tokens of the fragments with the line ends between them. -/
def Fragment.stream (fs : List Fragment) : List (Option Token) :=
  (lexemesOf 0 fs).flatMap streamed

namespace Fragment

@[simp] theorem stream_nil : stream [] = [] := rfl

@[simp] theorem stream_append (fs gs : List Fragment) : stream (fs ++ gs) = stream fs ++ stream gs := by
  rw [stream, lexemesOf_append, List.flatMap_append]
  rfl

@[simp] theorem stream_word (k : Keyword) (fs : List Fragment) :
    stream (.word k :: fs) = some (.word k) :: stream fs := rfl

@[simp] theorem stream_space (fs : List Fragment) : stream (.space :: fs) = stream fs := rfl

@[simp] theorem stream_newline (fs : List Fragment) : stream (.newline :: fs) = none :: stream fs := rfl

@[simp] theorem stream_indent (depth : Nat) (fs : List Fragment) :
    stream (.indent depth :: fs) = stream fs := rfl

@[simp] theorem stream_assign (fs : List Fragment) :
    stream (.symbol .assign :: fs) = some (.sign .assign) :: stream fs := rfl

/-- The width of the indentation does not matter. -/
theorem streamed_lexemesOf (n : Nat) (fs : List Fragment) :
    (lexemesOf n fs).flatMap streamed = stream fs := by
  have hindent (k : Nat) : (List.replicate k (Lexeme.blank ' ')).flatMap streamed = [] := by
    simp [List.flatMap_replicate, streamed]
  rw [stream, lexemesOf, lexemesOf, List.flatMap_assoc, List.flatMap_assoc]
  congr 1
  funext f
  cases f with
  | indent depth => rw [lexemes, lexemes, hindent, hindent]
  | _ => rfl

theorem newline_notMem_pathLexemes (xs : List Name) : .blank '\n' ∉ pathLexemes xs := by
  cases xs <;> simp [pathLexemes]

/-- Only line ends write line ends. -/
theorem newline_mem_lexemes {n : Nat} {f : Fragment} (h : .blank '\n' ∈ f.lexemes n) :
    f = .newline := by
  cases f with
  | newline => rfl
  | name x => exact absurd h (newline_notMem_pathLexemes _)
  | integer n =>
    rw [lexemes, integerLexemes] at h
    split at h
    · exact absurd h (newline_notMem_pathLexemes _)
    · split at h <;> simp at h
  | symbol s => cases s <;> simp [lexemes, Symbol.lexemes] at h
  | indent depth => simp [lexemes] at h
  | _ => simp [lexemes] at h

/-- Fragments without a line end are a part of a line. -/
theorem stream_eq_tokensOf {fs : List Fragment} (h : .newline ∉ fs) :
    stream fs = (tokensOf fs).map some := by
  have hline : .blank '\n' ∉ lexemesOf 0 fs := by
    intro hmem
    obtain ⟨f, hf, hnewline⟩ := List.mem_flatMap.mp hmem
    exact h (newline_mem_lexemes hnewline ▸ hf)
  rw [stream, flatMap_streamed hline, filterMap_lexemesOf]

theorem newline_notMem_parenthesisedIf (wrap : Bool) {fs : List Fragment} (h : .newline ∉ fs) :
    .newline ∉ parenthesisedIf wrap fs := by
  cases wrap <;> simp [parenthesisedIf, parenthesised, h]

theorem newline_notMem_commaSeparated {items : List (List Fragment)}
    (h : ∀ fs ∈ items, .newline ∉ fs) : .newline ∉ commaSeparated items := by
  induction items using commaSeparated.induct with
  | case1 => exact List.not_mem_nil
  | case2 item => exact h item List.mem_cons_self
  | case3 item next rest ih =>
    obtain ⟨hitem, hrest⟩ := List.forall_mem_cons.mp h
    simp [commaSeparated, hitem, ih hrest]

end Fragment

open Fragment

mutual

theorem Expr.newline_notMem_layout : (e : Expr) → (level : Nat) → .newline ∉ e.layout level
  | .nil, _ => by simp [Expr.layout]
  | .bool _, _ => by simp [Expr.layout]
  | .int n, _ => by
    rw [Expr.layout]
    exact newline_notMem_parenthesisedIf _ (by simp)
  | .str _, _ => by simp [Expr.layout]
  | .ident _, _ => by simp [Expr.layout]
  | .member t x, _ => by
    have ht := newline_notMem_parenthesisedIf (!t.takesSuffix) (t.newline_notMem_layout 0)
    simp [Expr.layout, ht]
  | .index t k, _ => by
    have ht := newline_notMem_parenthesisedIf (!t.takesSuffix) (t.newline_notMem_layout 0)
    simp [Expr.layout, ht, k.newline_notMem_layout 0]
  | .call c as, _ => by
    have hc := newline_notMem_parenthesisedIf (!c.takesSuffix) (c.newline_notMem_layout 0)
    have has := newline_notMem_commaSeparated (Expr.newline_notMem_layouts as)
    simp [Expr.layout, parenthesised, hc, has]
  | .binary op l r, _ => by
    rw [Expr.layout]
    apply newline_notMem_parenthesisedIf
    simp [l.newline_notMem_layout, r.newline_notMem_layout]
  | .unary op e, _ => by
    rw [Expr.layout]
    apply newline_notMem_parenthesisedIf
    split <;> simp [e.newline_notMem_layout]
  | .paren e, _ => by simp [Expr.layout, parenthesised, e.newline_notMem_layout 0]
  | .table es, _ => by
    have hes := newline_notMem_commaSeparated (Expr.newline_notMem_layouts es)
    simp [Expr.layout, hes]

theorem Expr.newline_notMem_layouts : (es : List Expr) → ∀ fs ∈ Expr.layouts es, .newline ∉ fs
  | [] => List.forall_mem_nil _
  | e :: es => List.forall_mem_cons.mpr ⟨e.newline_notMem_layout 0, Expr.newline_notMem_layouts es⟩

end

@[simp] theorem Fragment.stream_layoutList (es : List Expr) :
    stream (Expr.layoutList es) = (tokensOf (Expr.layoutList es)).map some :=
  stream_eq_tokensOf (newline_notMem_commaSeparated (Expr.newline_notMem_layouts es))

@[simp] theorem Fragment.stream_name (x : Name) (fs : List Fragment) :
    stream (.name x :: fs) = (tokensOf (Expr.layoutList [.ident x])).map some ++ stream fs := by
  rw [← stream_layoutList, ← Fragment.stream_append]
  rfl

/-- The lines as a stream, each after a line end. -/
def Line.stream (ls : List Line) : List (Option Token) :=
  ls.flatMap fun l => none :: l.tokens.map some

theorem Line.stream_append (ls ms : List Line) : stream (ls ++ ms) = stream ls ++ stream ms :=
  List.flatMap_append

theorem Line.rows_stream {ls : List Line} (h : ∀ l ∈ ls, l.tokens ≠ []) (ts : List (Option Token)) :
    rows (ts ++ stream ls) = rows ts ++ ls.map Line.tokens := by
  induction ls generalizing ts with
  | nil => rw [stream, List.flatMap_nil, List.append_nil, List.map_nil, List.append_nil]
  | cons l ls ih =>
    obtain ⟨hl, hls⟩ := List.forall_mem_cons.mp h
    have hrow : rows (l.tokens.map some) = [l.tokens] := by
      rw [rows_map_some]
      simp [hl]
    show rows (ts ++ none :: (l.tokens.map some ++ stream ls)) = _
    rw [rows_append, ih hls, hrow, List.map_cons, List.singleton_append]

theorem Line.stream_cons (l : Line) (ls : List Line) :
    stream (l :: ls) = none :: (l.tokens.map some ++ stream ls) := rfl

theorem Line.stream_enclosed (first last : Line) (ls : List Line) :
    stream (first :: ls ++ [last]) =
      none :: (first.tokens.map some ++ stream ls ++ none :: last.tokens.map some) := by
  simp [stream]

@[simp] theorem Expr.tokensOf_layoutList_nil : tokensOf (Expr.layoutList []) = [] := rfl

@[simp] theorem Line.tokens_closing : Line.closing.tokens = [.word .end] := rfl

@[simp] theorem Line.tokens_word (k : Keyword) (es : List Expr) (rest : List Segment) :
    (Line.word k es rest).tokens = .word k :: tokensOf (Expr.layoutList es) ++
      rest.flatMap fun s => s.mark :: tokensOf (Expr.layoutList s.exprs) := rfl

@[simp] theorem Expr.stream_layout (e : Expr) :
    stream (e.layout 0) = (tokensOf (Expr.layoutList [e])).map some :=
  stream_layoutList [e]

@[simp] theorem Block.stream_bare (ss : List Stmt) (depth : Nat) (fresh : Bool) :
    stream (Block.layout depth fresh ⟨.bare, ss⟩) = stream (Stmt.layoutLines (depth + 1) ss) ++ [none] := by
  rw [Block.layout, Fragment.stream_append]
  rfl

@[simp] theorem Block.stream_doEnd (ss : List Stmt) (depth : Nat) (fresh : Bool) :
    stream (Block.layout depth fresh ⟨.doEnd, ss⟩) =
      some (.word .do) :: stream (Stmt.layoutLines (depth + 1) ss) ++ [none, some (.word .end)] := by
  rw [Block.layout, Fragment.stream_append, Fragment.stream_append]
  cases fresh <;> rfl

mutual

/-- The layout of a statement, after a line end, is that of its lines. -/
theorem Stmt.stream_layout : (s : Stmt) → s.isDelimited = true → (depth : Nat) → (fresh : Bool) →
    none :: stream (s.layout depth fresh) = Line.stream s.lines
  | .expr e, _, _, _ => by simp [Stmt.layout, Stmt.lines, Line.stream, Line.tokens]
  | .local d, _, _, _ => by
    rw [Stmt.layout, Declaration.layout, commaSeparated_names, Stmt.lines, Declaration.line]
    cases d.values <;> simp [Line.stream]
  | .assign ts vs, _, _, _ => by simp [Stmt.layout, Stmt.lines, Line.stream, Line.tokens]
  | .loop l, h, depth, _ => by
    rw [Stmt.layout, Stmt.lines]
    exact l.stream_layout h depth
  | .do b, h, depth, fresh => by
    obtain ⟨ss, rfl, hbody⟩ := b.stream_layout h (depth + 1)
    rw [Stmt.layout, Stmt.lines, Block.lines, Line.stream_enclosed, ← hbody]
    simp
  | .if c t none, h, depth, _ => by
    obtain ⟨ss, rfl, hbody⟩ := t.stream_layout h (depth + 1)
    rw [Stmt.layout, Stmt.lines, Block.lines, Line.stream_enclosed, ← hbody]
    simp
  | .if c t (some e), h, depth, _ => by
    obtain ⟨ht, he⟩ := Bool.and_eq_true_iff.mp h
    obtain ⟨ss, rfl, hthen⟩ := t.stream_layout ht (depth + 1)
    obtain ⟨es, rfl, helse⟩ := e.stream_layout he (depth + 1)
    rw [Stmt.layout, Stmt.lines, Block.lines, Block.lines, Line.stream_enclosed, Line.stream_append,
      ← hthen, Line.stream_cons, ← helse]
    simp
  | .break, _, _, _ => rfl
  | .return vs, _, _, _ => by
    rw [Stmt.layout, Stmt.lines]
    cases vs <;> simp [Line.stream]

theorem Block.stream_layout : (b : Block) → {d : Delimiters} → b.isDelimited d = true →
    (depth : Nat) → ∃ ss, b = ⟨d, ss⟩ ∧
      stream (Stmt.layoutLines depth ss) = Line.stream (Stmt.linesAll ss)
  | ⟨_, ss⟩, _, h, depth => by
    obtain ⟨hd, hss⟩ := Bool.and_eq_true_iff.mp h
    obtain rfl := beq_iff_eq.mp hd
    exact ⟨ss, rfl, Stmt.stream_layoutLines ss hss depth⟩

theorem Loop.stream_layout : (l : Loop) → l.isDelimited = true → (depth : Nat) →
    none :: stream (l.layout depth) = Line.stream l.lines
  | .while c b, h, depth => by
    obtain ⟨ss, rfl, hbody⟩ := b.stream_layout h (depth + 1)
    rw [Loop.layout, Loop.lines, Block.lines, Line.stream_enclosed, ← hbody]
    simp
  | .repeat b c, h, depth => by
    obtain ⟨ss, rfl, hbody⟩ := b.stream_layout h (depth + 1)
    rw [Loop.layout, Loop.lines, Block.lines, Line.stream_enclosed, ← hbody]
    simp
  | .forIn x s b, h, depth => by
    obtain ⟨ss, rfl, hbody⟩ := b.stream_layout h (depth + 1)
    rw [Loop.layout, Loop.lines, Block.lines, Line.stream_enclosed, ← hbody, Call.layout]
    simp
  | .numericFor x i l s b, h, depth => by
    obtain ⟨ss, rfl, hbody⟩ := b.stream_layout h (depth + 1)
    have hlist := congrArg (List.flatMap streamed)
      (Loop.lexemesOf_numericFor 0 depth x i l s ⟨.doEnd, ss⟩)
    change stream _ = stream _ at hlist
    rw [hlist, Loop.lines, Block.lines, Line.stream_enclosed, ← hbody]
    simp

theorem Stmt.stream_layoutLines : (ss : List Stmt) → Stmt.areDelimited ss = true → (depth : Nat) →
    stream (Stmt.layoutLines depth ss) = Line.stream (Stmt.linesAll ss)
  | [], _, _ => rfl
  | s :: ss, h, depth => by
    obtain ⟨hs, hss⟩ := Bool.and_eq_true_iff.mp h
    rw [Stmt.layoutLines, Stmt.linesAll, Line.stream_append, ← s.stream_layout hs depth true,
      ← Stmt.stream_layoutLines ss hss depth]
    simp

end

/-! ## Texts of programs -/

theorem rows_none_cons (ts : List (Option Token)) : rows (none :: ts) = rows ts :=
  rows_append [] ts

theorem Block.rows_chunkLayout {b : Block} (h : Stmt.areLegible b.statements = true)
    (hform : Stmt.areDelimited b.statements = true) (fresh : Bool) :
    rows (stream (b.chunkLayout fresh)) = (Stmt.linesAll b.statements).map Line.tokens := by
  have hne : ∀ l ∈ Stmt.linesAll b.statements, l.tokens ≠ [] :=
    fun l hl => Line.tokens_ne_nil (Stmt.linesAll_sound b.statements h l hl)
  have hrows : rows (Line.stream (Stmt.linesAll b.statements)) =
      (Stmt.linesAll b.statements).map Line.tokens := Line.rows_stream hne []
  rw [← hrows]
  unfold Block.chunkLayout
  split
  · next hnil =>
    rw [hnil]
    rfl
  · next s ss hcons =>
    rw [hcons] at hform ⊢
    obtain ⟨hs, hss⟩ := Bool.and_eq_true_iff.mp hform
    -- the first line end of the lines makes no row
    rw [Stmt.linesAll, Line.stream_append, ← s.stream_layout hs 0 fresh,
      ← Stmt.stream_layoutLines ss hss 0]
    simp [rows_none_cons]

/-- **The text of a program, read line by line, has the lines of the program,** whatever the width of the
indentation and with or without a newline at its end. -/
theorem Block.textRows_programText (style : TextStyle) {b : Block}
    (h : Stmt.areLegible b.statements = true) (hform : Stmt.areDelimited b.statements = true) :
    textRows (b.programText style).toList =
      ((Stmt.linesAll b.statements).map Line.tokens).map some := by
  obtain ⟨gs, hgs, htext⟩ := b.toList_programText style
  have hend : Neat style.indentSize gs ∧ Fragment.openBlank gs = true ∧
      rows (stream (b.chunkLayout true) ++ stream gs) = rows (stream (b.chunkLayout true)) := by
    rcases hgs with rfl | rfl
    · exact ⟨neat_nil _, rfl, congrArg rows (List.append_nil _)⟩
    · exact ⟨(neat_nil _).newline, rfl, (rows_append _ []).trans (List.append_nil _)⟩
  obtain ⟨hneat, hblank, hrows⟩ := hend
  rw [htext, textRows_lexemes (Block.chunkLayout_neat _ h true hneat hblank), streamed_lexemesOf,
    Fragment.stream_append, hrows, Block.rows_chunkLayout h hform]

/-- Whether the names in the block can be read back, and its blocks have the delimiters of the statements
they belong to. -/
def Block.isRegular (b : Block) : Bool :=
  Stmt.areLegible b.statements && Stmt.areDelimited b.statements

/-- **Different programs have different texts.** If the texts of two regular blocks are the same in one
style, the statements of the blocks are the same without their parentheses, when negative literals are
read as applications of the minus sign, the least integer as `math.mininteger` and dotted paths as chains
of members. -/
theorem programText_determines_statements (style : TextStyle) (a b : Block)
    (ha : a.isRegular = true) (hb : b.isRegular = true)
    (htext : a.programText style = b.programText style) :
    Stmt.mapExprsAll .erased (Stmt.mapExprsAll .spelled a.statements) =
      Stmt.mapExprsAll .erased (Stmt.mapExprsAll .spelled b.statements) := by
  obtain ⟨hlegible, hform⟩ := Bool.and_eq_true_iff.mp ha
  obtain ⟨hlegible', hform'⟩ := Bool.and_eq_true_iff.mp hb
  have hrows := congrArg (textRows ·.toList) htext
  simp only [Block.textRows_programText style hlegible hform,
    Block.textRows_programText style hlegible' hform'] at hrows
  have hlines := List.map_injective_iff.mpr (fun _ _ => Option.some.inj) hrows
  have hwritten := Stmt.written_eq_of_lines hlegible hform hlegible' hform' hlines
  rw [← Stmt.erased_written, ← Stmt.erased_written, hwritten]

/-- A program with dotted names, a negative literal, an operator that needs parentheses, an `else` and
statements that run on. -/
def dottedProgram : Block := .bare [
  .local ⟨["x"], [.ident "io.lines"]⟩,
  .expr (.call (.paren (.ident "io.write")) [.int (-3), .str "\n"]),
  .if (.ident "x") (.bare []) (some (.bare [.return [.ident "x"]])),
  .loop (.numericFor "i" (.int 1) (.binary .mul (.binary .add (.int 1) (.int 2)) (.int 3)) none
    (.doEnd []))]

/-- The program with the names as chains of members, the literal as an application of the minus sign and
the parentheses as nodes. -/
def memberProgram : Block := .bare [
  .local ⟨["x"], [.member (.ident "io") "lines"]⟩,
  .expr (.call (.paren (.member (.ident "io") "write")) [.unary .neg (.int 3), .str "\n"]),
  .if (.ident "x") (.bare []) (some (.bare [.return [.ident "x"]])),
  .loop (.numericFor "i" (.int 1) (.binary .mul (.paren (.binary .add (.int 1) (.int 2))) (.int 3)) none
    (.doEnd []))]

theorem programText_determines_statements_memberProgram :
    dottedProgram.isRegular = true ∧ memberProgram.isRegular = true ∧
    dottedProgram.programText ⟨0, true⟩ = memberProgram.programText ⟨0, true⟩ ∧
    Stmt.mapExprsAll .erased (Stmt.mapExprsAll .spelled dottedProgram.statements) =
      Stmt.mapExprsAll .erased (Stmt.mapExprsAll .spelled memberProgram.statements) := by
  have hdotted : dottedProgram.isRegular = true := by decide
  have hmember : memberProgram.isRegular = true := by decide
  have htext : dottedProgram.programText ⟨0, true⟩ = memberProgram.programText ⟨0, true⟩ := by
    decide +kernel
  exact ⟨hdotted, hmember, htext, programText_determines_statements _ _ _ hdotted hmember htext⟩

end LoopLowering
