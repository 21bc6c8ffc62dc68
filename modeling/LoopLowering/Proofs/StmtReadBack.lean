import LoopLowering.Proofs.CallCount
import LoopLowering.Proofs.Returns
import LoopLowering.Proofs.ExprChange
import LoopLowering.Proofs.StmtReader
import LoopLowering.Proofs.StmtSpelling

/- Reading programs back. The statements of a program are written one after the other,
   and what is written can be derived as those statements (`Stmt.layoutLines_derives`):
   with the parentheses that the text has, dotted paths as chains of members and
   negative literals as applications of the minus sign.

   The target language reads the text as these statements unless one of them runs on
   into the next one. Then it reads something else, since every place where a
   statement runs on is read as one call more. -/
namespace LoopLowering

/-! ## Calls that a change keeps -/

theorem Expr.callsAll_map {f : Expr → Expr} (hf : ∀ e, (f e).calls = e.calls) (es : List Expr) :
    Expr.callsAll (es.map f) = Expr.callsAll es := by
  induction es with
  | nil => rfl
  | cons e es ih => rw [List.map_cons, Expr.callsAll, Expr.callsAll, hf, ih]

mutual

theorem Stmt.calls_mapExprs {f : ExprChange} (hf : ∀ e, (f.expr e).calls = e.calls) :
    (s : Stmt) → (s.mapExprs f).calls = s.calls
  | .expr e => hf e
  | .local d => Expr.callsAll_map hf d.values
  | .assign ts vs => by
    rw [Stmt.mapExprs, Stmt.calls, Expr.callsAll_map hf, Expr.callsAll_map hf, Stmt.calls]
  | .loop l => by rw [Stmt.mapExprs, Stmt.calls, l.calls_mapExprs hf, Stmt.calls]
  | .do b => by rw [Stmt.mapExprs, Stmt.calls, b.calls_mapExprs hf, Stmt.calls]
  | .if c t none => by rw [Stmt.mapExprs, Stmt.calls, hf, t.calls_mapExprs hf, Stmt.calls]
  | .if c t (some e) => by
    rw [Stmt.mapExprs, Stmt.calls, hf, t.calls_mapExprs hf, e.calls_mapExprs hf, Stmt.calls]
  | .break => rfl
  | .return vs => Expr.callsAll_map hf vs

theorem Block.calls_mapExprs {f : ExprChange} (hf : ∀ e, (f.expr e).calls = e.calls) :
    (b : Block) → (b.mapExprs f).calls = b.calls
  | ⟨_, ss⟩ => Stmt.callsAll_mapExprs hf ss

theorem Loop.calls_mapExprs {f : ExprChange} (hf : ∀ e, (f.expr e).calls = e.calls) :
    (l : Loop) → (l.mapExprs f).calls = l.calls
  | .while c b => by rw [Loop.mapExprs, Loop.calls, hf, b.calls_mapExprs hf, Loop.calls]
  | .repeat b c => by rw [Loop.mapExprs, Loop.calls, hf, b.calls_mapExprs hf, Loop.calls]
  | .forIn x s b => by
    rw [Loop.mapExprs, Loop.calls, f.toExpr_call, hf, b.calls_mapExprs hf, Loop.calls]
  | .numericFor x i l s b => by
    have hstep : (s.map f.expr).toList = s.toList.map f.expr := by cases s <;> rfl
    rw [Loop.mapExprs, Loop.calls, hstep, ← List.map_cons, ← List.map_cons, Expr.callsAll_map hf,
      b.calls_mapExprs hf, Loop.calls]

theorem Stmt.callsAll_mapExprs {f : ExprChange} (hf : ∀ e, (f.expr e).calls = e.calls) :
    (ss : List Stmt) → Stmt.callsAll (Stmt.mapExprsAll f ss) = Stmt.callsAll ss
  | [] => rfl
  | s :: ss => by
    rw [Stmt.mapExprsAll, Stmt.callsAll, s.calls_mapExprs hf, Stmt.callsAll_mapExprs hf ss, Stmt.callsAll]

end

mutual

theorem Expr.calls_erase : (e : Expr) → e.erase.calls = e.calls
  | .nil | .bool _ | .int _ | .str _ | .ident _ => rfl
  | .member t x => t.calls_erase
  | .index t k => by rw [Expr.erase, Expr.calls, t.calls_erase, k.calls_erase, Expr.calls]
  | .call c as => by
    rw [Expr.erase, Expr.calls, c.calls_erase, Expr.callsAll_eraseAll as, Expr.calls]
  | .binary op l r => by rw [Expr.erase, Expr.calls, l.calls_erase, r.calls_erase, Expr.calls]
  | .unary op e => e.calls_erase
  | .paren e => e.calls_erase
  | .table es => Expr.callsAll_eraseAll es

theorem Expr.callsAll_eraseAll : (es : List Expr) →
    Expr.callsAll (Expr.eraseAll es) = Expr.callsAll es
  | [] => rfl
  | e :: es => by
    rw [Expr.eraseAll, Expr.callsAll, e.calls_erase, Expr.callsAll_eraseAll es, Expr.callsAll]

end

/-! ## Layouts are derivable -/

mutual

/-- Whether the statement has the form that the grammar asks for. Only calls are statements by
themselves; what is declared, assigned to and assigned is not empty; what is assigned to can be; blocks
have the delimiters of the statement that they belong to; and a `return` is the last statement of its
block. -/
def Stmt.isGrammatical : Stmt → Bool
  | .expr e => e.call?.isSome
  | .local d => !d.names.isEmpty
  | .assign ts vs => !ts.isEmpty && ts.all Expr.isTarget && !vs.isEmpty
  | .loop l => l.isGrammatical
  | .do b => b.isGrammatical .doEnd
  | .if _ t none => t.isGrammatical .bare
  | .if _ t (some e) => t.isGrammatical .bare && e.isGrammatical .bare
  | .break | .return _ => true

/-- Whether the block has the form that the grammar asks for, and the given delimiters. -/
def Block.isGrammatical (d : Delimiters) : Block → Bool
  | ⟨d', ss⟩ => d' == d && Stmt.areGrammatical ss

def Loop.isGrammatical : Loop → Bool
  | .while _ b => b.isGrammatical .doEnd
  | .repeat b _ => b.isGrammatical .bare
  | .forIn _ _ b => b.isGrammatical .doEnd
  | .numericFor _ _ _ _ b => b.isGrammatical .doEnd

def Stmt.areGrammatical : List Stmt → Bool
  | [] => true
  | s :: ss => s.isGrammatical && (ss.isEmpty || !s.isReturn) && Stmt.areGrammatical ss

end

open Fragment (tokensOf tokensOf_append tokensOf_cons)

namespace Fragment

theorem tokensOf_word (k : Keyword) (fs : List Fragment) :
    tokensOf (.word k :: fs) = .word k :: tokensOf fs := rfl

theorem tokensOf_space (fs : List Fragment) : tokensOf (.space :: fs) = tokensOf fs := rfl

theorem tokensOf_newline (fs : List Fragment) : tokensOf (.newline :: fs) = tokensOf fs := rfl

theorem tokensOf_indent (depth : Nat) (fs : List Fragment) :
    tokensOf (.indent depth :: fs) = tokensOf fs := rfl

theorem tokensOf_assign (fs : List Fragment) :
    tokensOf (.symbol .assign :: fs) = .sign .assign :: tokensOf fs := rfl

theorem tokensOf_proper {x : Name} (h : x.isProper = true) (fs : List Fragment) :
    tokensOf (.name x :: fs) = .name x :: tokensOf fs := by
  rw [tokensOf_cons, tokensOf_name, Name.parts_of_isProper h]
  rfl

end Fragment

open Fragment (tokensOf_word tokensOf_space tokensOf_newline tokensOf_indent tokensOf_assign
  tokensOf_proper)

theorem Block.tokensOf_bare (ss : List Stmt) (depth : Nat) (fresh : Bool) :
    tokensOf (Block.layout depth fresh ⟨.bare, ss⟩) = tokensOf (Stmt.layoutLines (depth + 1) ss) := by
  rw [Block.layout, tokensOf_append, tokensOf_append]
  exact List.append_nil _

theorem Block.tokensOf_doEnd (ss : List Stmt) (depth : Nat) (fresh : Bool) :
    tokensOf (Block.layout depth fresh ⟨.doEnd, ss⟩) =
      .word .do :: tokensOf (Stmt.layoutLines (depth + 1) ss) ++ [.word .end] := by
  rw [Block.layout, tokensOf_append, tokensOf_append]
  cases fresh <;> rfl

theorem Expr.writtenAll_eq_map (es : List Expr) : Expr.writtenAll es = es.map (Expr.written 0) := by
  induction es with
  | nil => rfl
  | cons e es ih => rw [Expr.writtenAll, ih, List.map_cons]

theorem Expr.isWellNamed_of_mem {es : List Expr} (h : Expr.areWellNamed es = true) {e : Expr}
    (he : e ∈ es) : e.isWellNamed = true := by
  induction es with
  | nil => cases he
  | cons e' es ih =>
    obtain ⟨hfirst, hrest⟩ := Bool.and_eq_true_iff.mp h
    rcases List.mem_cons.mp he with rfl | he
    · exact hfirst
    · exact ih hrest he

theorem ListDerives.of_layouts {item : List Token → Expr → Prop} {es : List Expr} (hne : es ≠ [])
    (h : ∀ e ∈ es, item (tokensOf (e.layout 0)) (e.written 0)) :
    ListDerives item (tokensOf (Expr.layoutList es)) (es.map (Expr.written 0)) := by
  have hitems : readItems es ≠ [] := fun hnil => hne (List.map_eq_nil_iff.mp hnil)
  have heach : ∀ i ∈ readItems es, item i.1 i.2 := by
    intro i hi
    obtain ⟨e, he, rfl⟩ := List.mem_map.mp hi
    exact h e he
  have hlist := ListDerives.of_items hitems heach
  rw [map_fst_readItems, map_snd_readItems, Expr.writtenAll_eq_map] at hlist
  exact hlist

theorem Expr.layout_derives_zero {e : Expr} (h : e.isWellNamed = true) :
    Derives 0 (tokensOf (e.layout 0)) (e.written 0) :=
  (e.layout_derives h 0 (Nat.zero_le _)).atLevel (Nat.zero_le _)

theorem Expr.layoutList_derives {es : List Expr} (hne : es ≠ []) (h : Expr.areWellNamed es = true) :
    ListDerives (Derives 0) (tokensOf (Expr.layoutList es)) (es.map (Expr.written 0)) :=
  .of_layouts hne fun _ he => Expr.layout_derives_zero (Expr.isWellNamed_of_mem h he)

theorem Expr.isTarget_foldl_member (xs : List Name) {t : Expr} (h : t.isTarget = true) :
    (xs.foldl Expr.member t).isTarget = true := by
  induction xs generalizing t with
  | nil => exact h
  | cons x xs ih => exact ih rfl

/-- What can be assigned to still can when it is written, and it carries suffixes. -/
theorem Expr.isTarget_written {e : Expr} (h : e.isTarget = true) :
    e.takesSuffix = true ∧ (e.written 0).isTarget = true := by
  cases e with
  | ident x =>
    refine ⟨rfl, ?_⟩
    rw [Expr.written]
    cases hparts : x.parts with
    | nil => exact absurd hparts x.parts_ne_nil
    | cons y ys => exact Expr.isTarget_foldl_member ys rfl
  | member t x => exact ⟨rfl, rfl⟩
  | index t k => exact ⟨rfl, rfl⟩
  | _ => cases h

theorem Expr.targets_derive {es : List Expr} (hne : es ≠ []) (h : Expr.areWellNamed es = true)
    (htarget : es.all Expr.isTarget = true) :
    ListDerives TargetDerives (tokensOf (Expr.layoutList es)) (es.map (Expr.written 0)) := by
  refine .of_layouts hne fun e he => ?_
  obtain ⟨hsuffix, hwritten⟩ := Expr.isTarget_written (List.all_eq_true.mp htarget e he)
  have hderives := e.layout_derives (Expr.isWellNamed_of_mem h he) 0 (Nat.zero_le _)
  rw [hsuffix] at hderives
  exact ⟨hderives, hwritten⟩

theorem names_derive (xs : List Name) (hne : xs ≠ []) (h : xs.all Name.isProper = true) :
    ListDerives NameDerives (tokensOf (commaSeparated (xs.map fun x => [.name x]))) xs := by
  match xs with
  | [x] =>
    have hx : x.isProper = true := List.all_eq_true.mp h x List.mem_cons_self
    exact .one (tokensOf_proper hx [])
  | x :: y :: xs =>
    obtain ⟨hx, hxs⟩ := Bool.and_eq_true_iff.mp h
    have hrest := names_derive (y :: xs) (List.cons_ne_nil y xs) hxs
    rw [List.map_cons, List.map_cons, commaSeparated, tokensOf_append]
    exact .more (tokensOf_proper hx []) hrest

/-- The clauses of a numeric `for` are a list of expressions. -/
theorem Loop.tokensOf_numericFor (depth : Nat) {x : Name} (hx : x.isProper = true) (i l : Expr)
    (step : Option Expr) (b : Block) :
    tokensOf ((Loop.numericFor x i l step b).layout depth) =
      .word .for :: .name x :: .sign .assign ::
        (tokensOf (Expr.layoutList (i :: l :: step.toList)) ++ tokensOf (b.layout depth false)) := by
  have hlexemes := Loop.lexemesOf_numericFor 0 depth x i l step b
  rw [tokensOf, hlexemes]
  show tokensOf _ = _
  rw [tokensOf_word, tokensOf_space, tokensOf_proper hx, tokensOf_assign, tokensOf_append]

mutual

/-- The layout of a statement other than `return` is derived as what is written. -/
theorem Stmt.layout_derives : (s : Stmt) → s.isLegible = true → s.isGrammatical = true →
    s.isReturn = false → (depth : Nat) → (fresh : Bool) →
    StmtDerives (tokensOf (s.layout depth fresh)) (s.mapExprs .written)
  | .expr e, h, hform, _, _, _ => by
    cases e with
    | call c as =>
      have hcall := (Expr.call c as).layout_derives h 0 (Nat.zero_le _)
      exact .call hcall
    | _ => cases hform
  | .local ⟨xs, vs⟩, h, hform, _, _, _ => by
    obtain ⟨hproper, hvalues⟩ := Bool.and_eq_true_iff.mp h
    have hne : xs ≠ [] := by
      rintro rfl
      cases hform
    have hnames := names_derive xs hne hproper
    rw [Stmt.layout, Declaration.layout]
    cases vs with
    | nil =>
      rw [List.isEmpty_nil, if_pos rfl, List.append_nil, tokensOf_word, tokensOf_space]
      exact .declare hnames
    | cons v vs =>
      have hlist := Expr.layoutList_derives (List.cons_ne_nil v vs) hvalues
      rw [List.isEmpty_cons, if_neg Bool.false_ne_true, tokensOf_append, tokensOf_word, tokensOf_space,
        tokensOf_assign]
      exact .init hnames hlist
  | .assign ts vs, h, hform, _, _, _ => by
    obtain ⟨hts, hvs⟩ := Bool.and_eq_true_iff.mp h
    simp only [Stmt.isGrammatical, Bool.and_eq_true, Bool.not_eq_true',
      List.isEmpty_eq_false_iff] at hform
    obtain ⟨⟨htsne, htargets⟩, hvsne⟩ := hform
    rw [Stmt.layout, tokensOf_append, tokensOf_assign]
    exact .assign (Expr.targets_derive htsne hts htargets) (Expr.layoutList_derives hvsne hvs)
  | .loop l, h, hform, _, depth, _ => by
    rw [Stmt.layout]
    exact l.layout_derives h hform depth
  | .do b, h, hform, _, depth, fresh => by
    obtain ⟨ss, rfl, hbody⟩ := b.lines_derive h hform (depth + 1)
    rw [Stmt.layout, Block.tokensOf_doEnd]
    exact .do hbody
  | .if c t none, h, hform, _, depth, _ => by
    simp only [Stmt.isLegible, Bool.and_eq_true] at h
    obtain ⟨⟨hc, ht⟩, -⟩ := h
    obtain ⟨ss, rfl, hthen⟩ := t.lines_derive ht hform (depth + 1)
    rw [Stmt.layout, tokensOf_append, tokensOf_append, tokensOf_word, tokensOf_space, tokensOf_space,
      tokensOf_word, Block.tokensOf_bare]
    exact .ifThen (Expr.layout_derives_zero hc) hthen
  | .if c t (some e), h, hform, _, depth, _ => by
    simp only [Stmt.isLegible, Bool.and_eq_true] at h
    obtain ⟨⟨⟨⟨hc, ht⟩, -⟩, he⟩, -⟩ := h
    obtain ⟨hformt, hforme⟩ := Bool.and_eq_true_iff.mp hform
    obtain ⟨ss, rfl, hthen⟩ := t.lines_derive ht hformt (depth + 1)
    obtain ⟨es, rfl, helse⟩ := e.lines_derive he hforme (depth + 1)
    rw [Stmt.layout, tokensOf_append, tokensOf_append, tokensOf_append, tokensOf_word, tokensOf_space,
      tokensOf_space, tokensOf_word, tokensOf_word, Block.tokensOf_bare, Block.tokensOf_bare]
    exact .ifElse (Expr.layout_derives_zero hc) hthen helse
  | .break, _, _, _, _, _ => .break
  | .return _, _, _, h, _, _ => by cases h

/-- The lines of a block are derived as what is written, and the block has its delimiters. -/
theorem Block.lines_derive : (b : Block) → b.isLegible = true → {d : Delimiters} →
    b.isGrammatical d = true → (depth : Nat) → ∃ ss, b = ⟨d, ss⟩ ∧
      StmtsDerive (tokensOf (Stmt.layoutLines depth ss)) (Stmt.mapExprsAll .written ss)
  | ⟨_, ss⟩, h, _, hform, depth => by
    obtain ⟨hd, hss⟩ := Bool.and_eq_true_iff.mp hform
    obtain rfl := beq_iff_eq.mp hd
    exact ⟨ss, rfl, Stmt.layoutLines_derives ss h hss depth⟩

theorem Loop.layout_derives : (l : Loop) → l.isLegible = true → l.isGrammatical = true →
    (depth : Nat) → StmtDerives (tokensOf (l.layout depth)) (.loop (l.mapExprs .written))
  | .while c b, h, hform, depth => by
    obtain ⟨hc, hb⟩ := Bool.and_eq_true_iff.mp h
    obtain ⟨ss, rfl, hbody⟩ := b.lines_derive hb hform (depth + 1)
    rw [Loop.layout, tokensOf_append, tokensOf_word, tokensOf_space, Block.tokensOf_doEnd,
      ← List.append_assoc]
    exact .while (Expr.layout_derives_zero hc) hbody
  | .repeat b c, h, hform, depth => by
    simp only [Loop.isLegible, Bool.and_eq_true] at h
    obtain ⟨⟨hb, -⟩, hc⟩ := h
    obtain ⟨ss, rfl, hbody⟩ := b.lines_derive hb hform (depth + 1)
    rw [Loop.layout, tokensOf_append, tokensOf_word, tokensOf_word, tokensOf_space,
      Block.tokensOf_bare]
    exact .repeat hbody (Expr.layout_derives_zero hc)
  | .forIn x s b, h, hform, depth => by
    simp only [Loop.isLegible, Bool.and_eq_true] at h
    obtain ⟨⟨hx, hs⟩, hb⟩ := h
    obtain ⟨ss, rfl, hbody⟩ := b.lines_derive hb hform (depth + 1)
    have hsource := Expr.layout_derives_zero hs
    have hcall : s.toExpr.written 0 = (ExprChange.written.call s).toExpr :=
      (ExprChange.written.toExpr_call s).symm
    rw [hcall] at hsource
    have hheader : tokensOf [.word .for, .space, .name x, .space, .word .in, .space] =
        [.word .for, .name x, .word .in] := by
      rw [tokensOf_word, tokensOf_space, tokensOf_proper hx]
      rfl
    rw [Loop.layout, tokensOf_append, tokensOf_append, hheader, Block.tokensOf_doEnd,
      ← List.append_assoc]
    exact .forIn x hsource hbody
  | .numericFor x i l s b, h, hform, depth => by
    simp only [Loop.isLegible, Bool.and_eq_true] at h
    obtain ⟨⟨hx, hclauses⟩, hb⟩ := h
    obtain ⟨ss, rfl, hbody⟩ := b.lines_derive hb hform (depth + 1)
    have hlist := Expr.layoutList_derives (List.cons_ne_nil i (l :: s.toList)) hclauses
    rw [List.map_cons, List.map_cons, ← Option.toList_map] at hlist
    rw [Loop.tokensOf_numericFor depth hx, Block.tokensOf_doEnd, ← List.append_assoc]
    exact .numericFor x hlist hbody

theorem Stmt.layoutLines_derives : (ss : List Stmt) → Stmt.areLegible ss = true →
    Stmt.areGrammatical ss = true → (depth : Nat) →
    StmtsDerive (tokensOf (Stmt.layoutLines depth ss)) (Stmt.mapExprsAll .written ss)
  | [], _, _, _ => .nil
  | s :: ss, h, hform, depth => by
    obtain ⟨hs, hss⟩ := Bool.and_eq_true_iff.mp h
    simp only [Stmt.areGrammatical, Bool.and_eq_true, Bool.or_eq_true, List.isEmpty_iff,
      Bool.not_eq_true'] at hform
    obtain ⟨⟨hfirst, hlast⟩, hothers⟩ := hform
    have hrest := Stmt.layoutLines_derives ss hss hothers depth
    rw [Stmt.layoutLines, tokensOf_append, tokensOf_newline, tokensOf_indent]
    cases hreturn : s.isReturn with
    | false => exact .cons (s.layout_derives hs hfirst hreturn depth true) hrest
    | true =>
      -- nothing follows a `return`
      obtain rfl : ss = [] := by
        rw [hreturn] at hlast
        simpa using hlast
      rw [Stmt.layoutLines]
      cases s with
      | «return» vs =>
        rw [Stmt.layout]
        cases vs with
        | nil => exact .leave
        | cons v vs =>
          have hlist := Expr.layoutList_derives (List.cons_ne_nil v vs) hs
          have hvalues := StmtsDerive.yield hlist
          rw [List.isEmpty_cons, if_neg Bool.false_ne_true, tokensOf_word, tokensOf_space]
          exact (List.append_nil _).symm ▸ hvalues
      | _ => cases hreturn

end

/-! ## Texts that are read back -/

/-- The target language reads the text as the statements: they can be derived from its tokens, and none
of them runs on into the next one. -/
def ReadsAs (text : String) (ss : List Stmt) : Prop :=
  ∃ ts, tokenize text = some ts ∧ StmtsDerive ts ss ∧ Stmt.runOnsAll ss = 0

theorem ReadsAs.unique {text : String} {ss ss' : List Stmt} (h : ReadsAs text ss)
    (h' : ReadsAs text ss') : ss = ss' := by
  obtain ⟨ts, htokens, hderives, hruns⟩ := h
  obtain ⟨ts', htokens', hderives', hruns'⟩ := h'
  obtain rfl : ts = ts' := Option.some.inj (htokens.symm.trans htokens')
  exact hderives.unique hruns hderives' hruns'

/-- The text is read as statements that, but for parentheses, are the given ones, their negative
literals read as applications of the minus sign, the least integer as `math.mininteger` and dotted paths
as chains of members; and it is read in no other way. -/
def ReadsBack (text : String) (ss : List Stmt) : Prop :=
  ∃ ss', ReadsAs text ss' ∧ (∀ ss'', ReadsAs text ss'' → ss'' = ss') ∧
    Stmt.mapExprsAll .erased ss' = Stmt.mapExprsAll .erased (Stmt.mapExprsAll .spelled ss)

/-- Whether the statements of the block have names that can be read back and the form that the grammar
asks for. -/
def Block.isValid (b : Block) : Bool :=
  Stmt.areLegible b.statements && Stmt.areGrammatical b.statements

/-- The text of a valid block is that of its statements as they are written. -/
theorem Block.programText_derives (style : TextStyle) {b : Block} (h : b.isValid = true) :
    ∃ ts, tokenize (b.programText style) = some ts ∧
      StmtsDerive ts (Stmt.mapExprsAll .written b.statements) := by
  obtain ⟨hlegible, hform⟩ := Bool.and_eq_true_iff.mp h
  have htokens : tokensOf (b.chunkLayout true) = tokensOf (Stmt.layoutLines 0 b.statements) := by
    unfold Block.chunkLayout
    cases b.statements with
    | nil => rfl
    | cons s ss => rw [Stmt.layoutLines]; rfl
  refine ⟨_, Block.tokenize_programText style hlegible, ?_⟩
  rw [htokens]
  exact Stmt.layoutLines_derives b.statements hlegible hform 0

/-- Statements that are the same without their parentheses have the same number of calls. -/
theorem Stmt.callsAll_eq_of_erased {ss ss' : List Stmt}
    (h : Stmt.mapExprsAll .erased ss = Stmt.mapExprsAll .erased ss') :
    Stmt.callsAll ss = Stmt.callsAll ss' := by
  have hcalls := congrArg Stmt.callsAll h
  rw [Stmt.callsAll_mapExprs Expr.calls_erase, Stmt.callsAll_mapExprs Expr.calls_erase] at hcalls
  exact hcalls

/-- **When the text of a program means the program.** The text of a block of valid statements is read
back as these statements exactly if none of them, as it is written, runs on into the next one. A
statement runs on if its text ends in something that can be called and the text of the next one begins
with a parenthesis, at any depth of nesting. -/
theorem program_read_back_iff (style : TextStyle) (b : Block) (h : b.isValid = true) :
    ReadsBack (b.programText style) b.statements ↔
      Stmt.runOnsAll (Stmt.mapExprsAll .written b.statements) = 0 := by
  obtain ⟨ts, htokens, hderives⟩ := Block.programText_derives style h
  have herased := Stmt.erased_written b.statements
  constructor
  · -- what is read has as many calls as what is written, so it has as many run-ons, which is none
    rintro ⟨ss, ⟨ts', htokens', hderives', hruns⟩, -, hss⟩
    obtain rfl : ts = ts' := Option.some.inj (htokens.symm.trans htokens')
    have hcalls := Stmt.callsAll_eq_of_erased (hss.trans herased.symm)
    exact (hderives'.runOns_eq hderives hcalls).symm.trans hruns
  · intro hruns
    have hreads : ReadsAs (b.programText style) (Stmt.mapExprsAll .written b.statements) :=
      ⟨ts, htokens, hderives, hruns⟩
    exact ⟨_, hreads, fun _ hreads' => hreads'.unique hreads, herased⟩

/-- A program in which statements that begin with a parenthesis follow all kinds of statements that do
not run on: a declaration without values, a literal, a block and a loop. -/
def parenProgram : Block := .bare [
  .local ⟨["x", "y"], []⟩,
  .expr (.call (.paren (.ident "io.write")) [.int (-3)]),
  .assign [.ident "x", .member (.ident "y") "z"] [.index (.ident "x") (.int 1), .str "("],
  .assign [.index (.paren (.ident "x")) (.int Int64.minValue)] [.nil],
  .loop (.repeat (.bare [.break]) (.bool true)),
  .expr (.call (.table [.unary .len (.ident "x")]) []),
  .loop (.numericFor "i" (.int 1) (.ident "y") (some (.int 2)) (.doEnd [
    .if (.ident "x") (.bare [.return []]) (some (.bare [.do (.doEnd [])]))])),
  .expr (.call (.member (.str "s") "rep") [.ident "i"]),
  .loop (.forIn "v" ⟨.ident "System.each", [.ident "x"]⟩ (.doEnd [])),
  .loop (.while (.ident "x") (.doEnd [.local ⟨["k"], [.ident "x"]⟩])),
  .return [.binary .sub (.int 1) (.unary .neg (.int (-2)))]]

theorem program_read_back_iff_parenProgram :
    parenProgram.isValid = true ∧
    ReadsBack (parenProgram.programText ⟨2, true⟩) parenProgram.statements := by
  have hvalid : parenProgram.isValid = true := by decide
  exact ⟨hvalid, (program_read_back_iff ⟨2, true⟩ parenProgram hvalid).mpr (by decide)⟩

/-- The statements `print(1)` and `(print)(2)`. -/
def printTwice : Block := .bare [
  .expr (.call (.ident "print") [.int 1]),
  .expr (.call (.paren (.ident "print")) [.int 2])]

/-- The statement `print(1)(print)(2)`, which calls what `print` returns. -/
def printChain : Stmt :=
  .expr (.call (.call (.call (.ident "print") [.int 1]) [.ident "print"]) [.int 2])

/-- The text of two valid statements is read as one: the second one begins with a parenthesis. -/
theorem statements_read_as_one :
    printTwice.isValid = true ∧ ReadsAs (printTwice.programText {}) [printChain] ∧
    ¬ ReadsBack (printTwice.programText {}) printTwice.statements := by
  have hlegible : Stmt.areLegible printTwice.statements = true := by decide
  have htokens : tokensOf (printTwice.chunkLayout true) =
      [.name "print", .sign .openParen, .numeral 1, .sign .closeParen, .sign .openParen, .name "print",
        .sign .closeParen, .sign .openParen, .numeral 2, .sign .closeParen] := by decide
  have hone : Derives 0 [.numeral 1] (.int 1) := (Derives.int (n := 1) (by decide)).looser (by decide)
  have htwo : Derives 0 [.numeral 2] (.int 2) := (Derives.int (n := 2) (by decide)).looser (by decide)
  have hprint : Derives 0 [.name "print"] (.ident "print") := (Derives.ident "print").looser (by decide)
  have hargument {ts : List Token} {e : Expr} (he : Derives 0 ts e) :
      ∀ i ∈ [(ts, e)], Derives 0 i.1 i.2 := List.forall_mem_singleton.mpr he
  have hchain : StmtsDerive (tokensOf (printTwice.chunkLayout true)) [printChain] := by
    have hfirst := (Derives.ident "print").call (hargument hone)
    have hsecond := hfirst.call (hargument hprint)
    have hthird := hsecond.call (hargument htwo)
    rw [htokens]
    exact .cons (.call hthird) .nil
  have hreads : ReadsAs (printTwice.programText {}) [printChain] :=
    ⟨_, Block.tokenize_programText {} hlegible, hchain, by decide⟩
  refine ⟨by decide, hreads, ?_⟩
  rintro ⟨ss, hss, -, herased⟩
  obtain rfl := hss.unique hreads
  -- one statement is not two
  have hlength := congrArg List.length herased
  exact absurd hlength (by decide)

end LoopLowering
