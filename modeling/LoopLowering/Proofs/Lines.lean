import LoopLowering.Proofs.StmtReadBack

/- Programs as lines. A statement is written as one line or, when it has a block, as a
   header, the lines of the block and a line that closes it. A line is divided by
   marks: reserved words of statements and the assignment sign. Between the marks
   stand lists of expressions, in which no mark occurs, so the tokens of a line say
   what it is (`Line.written_eq`).

   `Assembly` puts statements together from lines, one line after the other. It keeps
   the headers that have not been closed. The lines of statements are put together to
   these statements (`Stmt.assemble_linesAll`), so no other statements have them. -/
namespace LoopLowering

open Fragment (tokensOf tokensOf_append tokensOf_cons)

/-! ## Marks -/

/-- Whether the token belongs to statements and never to an expression. -/
def Token.isMark : Token → Bool
  | .word k => k ∉ [Keyword.nil, .true, .false, .and, .or, .not]
  | .sign s => s == .assign
  | _ => false

theorem mem_commaTokens {tss : List (List Token)} {t : Token} (h : t ∈ commaTokens tss) :
    t = .sign .comma ∨ ∃ ts ∈ tss, t ∈ ts := by
  induction tss using commaTokens.induct with
  | case1 => cases h
  | case2 ts => exact .inr ⟨ts, List.mem_singleton_self ts, h⟩
  | case3 ts us rest ih =>
    rcases List.mem_append.mp h with h | h
    · exact .inr ⟨ts, List.mem_cons_self, h⟩
    rcases List.mem_cons.mp h with h | h
    · exact .inl h
    rcases ih h with h | ⟨vs, hvs, h⟩
    · exact .inl h
    · exact .inr ⟨vs, List.mem_cons_of_mem ts hvs, h⟩

theorem isMark_commaTokens {items : List (List Token × Expr)}
    (h : ∀ i ∈ items, ∀ t ∈ i.1, t.isMark = false) :
    ∀ t ∈ commaTokens (items.map Prod.fst), t.isMark = false := by
  intro t ht
  rcases mem_commaTokens ht with rfl | ⟨ts, hts, ht⟩
  · rfl
  · obtain ⟨i, hi, rfl⟩ := List.mem_map.mp hts
    exact h i hi t ht

theorem forall_mem_enclosed {α : Type} {p : α → Prop} {a b : α} {xs : List α} (ha : p a)
    (h : ∀ x ∈ xs, p x) (hb : p b) : ∀ x ∈ a :: xs ++ [b], p x :=
  List.forall_mem_append.mpr ⟨List.forall_mem_cons.mpr ⟨ha, h⟩, List.forall_mem_singleton.mpr hb⟩

theorem BinaryOp.isMark_between (op : BinaryOp) {ts us : List Token} (h : ∀ t ∈ ts, t.isMark = false)
    (h' : ∀ t ∈ us, t.isMark = false) : ∀ t ∈ ts ++ op.token :: us, t.isMark = false := by
  have hop : op.token.isMark = false := by cases op <;> rfl
  exact List.forall_mem_append.mpr ⟨h, List.forall_mem_cons.mpr ⟨hop, h'⟩⟩

theorem Derives.isMark_eq_false {level : Nat} {ts : List Token} {e : Expr} (h : Derives level ts e) :
    ∀ t ∈ ts, t.isMark = false := by
  induction h with
  | nil | int _ | str _ | ident _ => exact List.forall_mem_singleton.mpr rfl
  | bool b => cases b <;> exact List.forall_mem_singleton.mpr rfl
  | table _ ih => exact forall_mem_enclosed rfl (isMark_commaTokens ih) rfl
  | paren _ ih => exact forall_mem_enclosed rfl ih rfl
  | member _ x ih =>
    have hname : ∀ t ∈ [Token.sign .dot, .name x], t.isMark = false := by simp [Token.isMark]
    exact List.forall_mem_append.mpr ⟨ih, hname⟩
  | index _ _ iht ihk => exact List.forall_mem_append.mpr ⟨iht, forall_mem_enclosed rfl ihk rfl⟩
  | call _ _ ihc ih =>
    exact List.forall_mem_append.mpr ⟨ihc, forall_mem_enclosed rfl (isMark_commaTokens ih) rfl⟩
  | unary op _ ih =>
    have hop : op.token.isMark = false := by cases op <;> rfl
    exact List.forall_mem_cons.mpr ⟨hop, ih⟩
  | leftAssoc _ _ _ ihl ihr => exact BinaryOp.isMark_between _ ihl ihr
  | rightAssoc _ _ _ ihl ihr => exact BinaryOp.isMark_between _ ihl ihr
  | looser _ _ ih => exact ih

/-! ## Lists of expressions -/

/-- A list is written like a table but for the braces. -/
theorem tokensOf_table (es : List Expr) :
    tokensOf ((Expr.table es).layout 0) =
      .sign .openBrace :: tokensOf (Expr.layoutList es) ++ [.sign .closeBrace] := by
  rw [Expr.layout, tokensOf_append]
  rfl

theorem Expr.table_derives {es : List Expr} (h : Expr.areWellNamed es = true) :
    Derives 0 (.sign .openBrace :: tokensOf (Expr.layoutList es) ++ [.sign .closeBrace])
      (.table (es.map (Expr.written 0))) := by
  have hderives := Expr.layout_derives_zero (e := .table es) h
  rw [tokensOf_table, Expr.written, Expr.writtenAll_eq_map] at hderives
  exact hderives

theorem Expr.isMark_layoutList {es : List Expr} (h : Expr.areWellNamed es = true) :
    ∀ t ∈ tokensOf (Expr.layoutList es), t.isMark = false := by
  intro t ht
  refine (Expr.table_derives h).isMark_eq_false t ?_
  exact List.mem_append_left _ (List.mem_cons_of_mem _ ht)

/-- The tokens of a list of expressions say what is written. -/
theorem Expr.written_eq_of_layoutList {es es' : List Expr} (h : Expr.areWellNamed es = true)
    (h' : Expr.areWellNamed es' = true)
    (htokens : tokensOf (Expr.layoutList es) = tokensOf (Expr.layoutList es')) :
    es.map (Expr.written 0) = es'.map (Expr.written 0) := by
  have hderives := Expr.table_derives h
  rw [htokens] at hderives
  exact Expr.table.inj (hderives.unique (Expr.table_derives h'))

/-! ## Lines -/

/-- A mark and the expressions that stand between it and the next one. -/
structure Segment where
  mark : Token
  exprs : List Expr

/-- Whether the mark is one and the names can be read back. -/
def Segment.isSound (s : Segment) : Bool :=
  s.mark.isMark && Expr.areWellNamed s.exprs

/-- A line: the expressions in front of the first mark, and the rest of it from there on. -/
structure Line where
  lead : List Expr
  segments : List Segment

namespace Line

def tokens (l : Line) : List Token :=
  tokensOf (Expr.layoutList l.lead) ++
    l.segments.flatMap fun s => s.mark :: tokensOf (Expr.layoutList s.exprs)

def written (l : Line) : Line :=
  ⟨l.lead.map (Expr.written 0), l.segments.map fun s => ⟨s.mark, s.exprs.map (Expr.written 0)⟩⟩

/-- Whether there is something on the line, its marks are marks and its names can be read back. -/
def isSound (l : Line) : Bool :=
  (!l.lead.isEmpty || !l.segments.isEmpty) && Expr.areWellNamed l.lead &&
    l.segments.all Segment.isSound

section Tokens

variable {es es' : List Expr} {segments segments' : List Segment}

/-- A list of expressions ends at the next mark. -/
theorem takeWhile_tokens (hes : Expr.areWellNamed es = true)
    (h : segments.all Segment.isSound = true) :
    (Line.mk es segments).tokens.takeWhile (!·.isMark) = tokensOf (Expr.layoutList es) := by
  have hlist : ∀ t ∈ tokensOf (Expr.layoutList es), (!t.isMark) = true := by
    simpa using Expr.isMark_layoutList hes
  rw [Line.tokens, List.takeWhile_append_of_pos hlist]
  cases segments with
  | nil => exact List.append_nil _
  | cons s segments =>
    have hmark : s.mark.isMark = true := by
      simp only [List.all_cons, Segment.isSound, Bool.and_eq_true] at h
      exact h.1.1
    simp [hmark]

/-- What stands in front of the first mark can be told from the rest. -/
theorem lead_eq (hes : Expr.areWellNamed es = true) (hes' : Expr.areWellNamed es' = true)
    (h : segments.all Segment.isSound = true) (h' : segments'.all Segment.isSound = true)
    (htokens : (Line.mk es segments).tokens = (Line.mk es' segments').tokens) :
    es.map (Expr.written 0) = es'.map (Expr.written 0) ∧
      (Line.mk [] segments).tokens = (Line.mk [] segments').tokens := by
  have hlist : tokensOf (Expr.layoutList es) = tokensOf (Expr.layoutList es') := by
    rw [← takeWhile_tokens hes h, htokens, takeWhile_tokens hes' h']
  rw [Line.tokens, Line.tokens, hlist, List.append_cancel_left_eq] at htokens
  exact ⟨Expr.written_eq_of_layoutList hes hes' hlist, htokens⟩

theorem written_eq_of_parts (hes : Expr.areWellNamed es = true) (hes' : Expr.areWellNamed es' = true)
    (h : segments.all Segment.isSound = true) (h' : segments'.all Segment.isSound = true)
    (htokens : (Line.mk es segments).tokens = (Line.mk es' segments').tokens) :
    (Line.mk es segments).written = (Line.mk es' segments').written := by
  obtain ⟨hlead, hrest⟩ := lead_eq hes hes' h h' htokens
  induction segments generalizing es es' segments' with
  | nil =>
    cases segments' with
    | nil => exact congrArg (Line.mk · []) hlead
    | cons s' segments' => cases hrest
  | cons s segments ih =>
    cases segments' with
    | nil => cases hrest
    | cons s' segments' =>
      simp only [List.all_cons, Segment.isSound, Bool.and_eq_true] at h h'
      -- what follows a mark is a line without it
      obtain ⟨hmark, hline⟩ := List.cons.inj hrest
      obtain ⟨hlead', hrest'⟩ := lead_eq h.1.2 h'.1.2 h.2 h'.2 hline
      have hlines := ih h.1.2 h'.1.2 h.2 h'.2 hline hlead' hrest'
      simp only [Line.written, Line.mk.injEq, List.map_cons] at hlines ⊢
      rw [hlead, hmark, hlines.1, hlines.2]
      exact ⟨rfl, rfl⟩

end Tokens

/-- The tokens of a line say what is written on it. -/
theorem written_eq {l l' : Line} (h : l.isSound = true) (h' : l'.isSound = true)
    (htokens : l.tokens = l'.tokens) : l.written = l'.written := by
  simp only [Line.isSound, Bool.and_eq_true] at h h'
  exact written_eq_of_parts h.1.2 h'.1.2 h.2 h'.2 htokens

theorem tokens_ne_nil {l : Line} (h : l.isSound = true) : l.tokens ≠ [] := by
  obtain ⟨es, segments⟩ := l
  simp only [Line.isSound, Bool.and_eq_true] at h
  obtain ⟨⟨hsome, hes⟩, -⟩ := h
  cases segments with
  | cons s segments => simp [Line.tokens]
  | nil =>
    have hne : es ≠ [] := by
      rintro rfl
      cases hsome
    obtain ⟨t, ts, hhead, -⟩ := (Expr.layoutList_derives hne hes).head
    simp [Line.tokens, hhead]

/-- A line that begins with a reserved word. -/
def word (k : Keyword) (es : List Expr) (rest : List Segment) : Line :=
  ⟨[], ⟨.word k, es⟩ :: rest⟩

/-- The line that closes most blocks. -/
def closing : Line :=
  .word .end [] []

end Line

/-! ## The lines of statements -/

def Declaration.line (d : Declaration) : Line :=
  .word .local (d.names.map .ident) (if d.values.isEmpty then [] else [⟨.sign .assign, d.values⟩])

mutual

def Stmt.lines : Stmt → List Line
  | .expr e => [⟨[e], []⟩]
  | .local d => [d.line]
  | .assign ts vs => [⟨ts, [⟨.sign .assign, vs⟩]⟩]
  | .loop l => l.lines
  | .do b => .word .do [] [] :: b.lines ++ [.closing]
  | .if c t none => .word .if [c] [⟨.word .then, []⟩] :: t.lines ++ [.closing]
  | .if c t (some e) =>
    .word .if [c] [⟨.word .then, []⟩] :: (t.lines ++ .word .else [] [] :: e.lines) ++ [.closing]
  | .break => [.word .break [] []]
  | .return vs => [.word .return vs []]

def Block.lines : Block → List Line
  | ⟨_, ss⟩ => Stmt.linesAll ss

def Loop.lines : Loop → List Line
  | .while c b => .word .while [c] [⟨.word .do, []⟩] :: b.lines ++ [.closing]
  | .repeat b c => .word .repeat [] [] :: b.lines ++ [.word .until [c] []]
  | .forIn x s b =>
    .word .for [.ident x] [⟨.word .in, [s.toExpr]⟩, ⟨.word .do, []⟩] :: b.lines ++ [.closing]
  | .numericFor x i l s b =>
    .word .for [.ident x] [⟨.sign .assign, i :: l :: s.toList⟩, ⟨.word .do, []⟩] :: b.lines ++
      [.closing]

def Stmt.linesAll : List Stmt → List Line
  | [] => []
  | s :: ss => s.lines ++ Stmt.linesAll ss

end

theorem areWellNamed_nil : Expr.areWellNamed [] = true := rfl

theorem Line.isSound_word {k : Keyword} {es : List Expr} {rest : List Segment}
    (hk : (Token.word k).isMark = true) (hes : Expr.areWellNamed es = true)
    (hrest : rest.all Segment.isSound = true) : (Line.word k es rest).isSound = true := by
  simp [Line.word, Line.isSound, Segment.isSound, hk, hes, hrest, Expr.areWellNamed]

theorem Line.isSound_single {k : Keyword} {e : Expr} {rest : List Segment}
    (hk : (Token.word k).isMark = true) (he : e.isWellNamed = true)
    (hrest : rest.all Segment.isSound = true) : (Line.word k [e] rest).isSound = true :=
  Line.isSound_word hk (Bool.and_eq_true_iff.mpr ⟨he, rfl⟩) hrest

mutual

theorem Stmt.lines_sound : (s : Stmt) → s.isLegible = true → ∀ l ∈ s.lines, l.isSound = true
  | .expr e, h => by
    have he : e.isWellNamed = true := h
    simp [Stmt.lines, Line.isSound, Expr.areWellNamed, he]
  | .local d, h => by
    obtain ⟨hnames, hvalues⟩ := Bool.and_eq_true_iff.mp h
    refine List.forall_mem_singleton.mpr (Line.isSound_word rfl (areWellNamed_names hnames) ?_)
    split
    · rfl
    · simp [Segment.isSound, Token.isMark, hvalues]
  | .assign ts vs, h => by
    obtain ⟨hts, hvs⟩ := Bool.and_eq_true_iff.mp h
    simp [Stmt.lines, Line.isSound, Segment.isSound, Token.isMark, hts, hvs]
  | .loop l, h => l.lines_sound h
  | .do b, h => forall_mem_enclosed (Line.isSound_word rfl rfl rfl) (b.lines_sound h) rfl
  | .if c t none, h => by
    simp only [Stmt.isLegible, Bool.and_eq_true] at h
    obtain ⟨⟨hc, ht⟩, -⟩ := h
    exact forall_mem_enclosed (Line.isSound_single rfl hc rfl) (t.lines_sound ht) rfl
  | .if c t (some e), h => by
    simp only [Stmt.isLegible, Bool.and_eq_true] at h
    obtain ⟨⟨⟨⟨hc, ht⟩, -⟩, he⟩, -⟩ := h
    have helse : ∀ l ∈ Line.word .else [] [] :: e.lines, l.isSound = true :=
      List.forall_mem_cons.mpr ⟨rfl, e.lines_sound he⟩
    have hbranches := List.forall_mem_append.mpr ⟨t.lines_sound ht, helse⟩
    exact forall_mem_enclosed (Line.isSound_single rfl hc rfl) hbranches rfl
  | .break, _ => List.forall_mem_singleton.mpr (Line.isSound_word rfl rfl rfl)
  | .return vs, h => List.forall_mem_singleton.mpr (Line.isSound_word rfl h rfl)

theorem Block.lines_sound : (b : Block) → b.isLegible = true → ∀ l ∈ b.lines, l.isSound = true
  | ⟨_, ss⟩, h => Stmt.linesAll_sound ss h

theorem Loop.lines_sound : (l : Loop) → l.isLegible = true → ∀ m ∈ l.lines, m.isSound = true
  | .while c b, h => by
    obtain ⟨hc, hb⟩ := Bool.and_eq_true_iff.mp h
    exact forall_mem_enclosed (Line.isSound_single rfl hc rfl) (b.lines_sound hb) rfl
  | .repeat b c, h => by
    simp only [Loop.isLegible, Bool.and_eq_true] at h
    obtain ⟨⟨hb, -⟩, hc⟩ := h
    exact forall_mem_enclosed rfl (b.lines_sound hb) (Line.isSound_single rfl hc rfl)
  | .forIn x s b, h => by
    simp only [Loop.isLegible, Bool.and_eq_true] at h
    obtain ⟨⟨hx, hs⟩, hb⟩ := h
    have hname : (Expr.ident x).isWellNamed = true := Name.isPath_of_isProper hx
    refine forall_mem_enclosed (Line.isSound_single rfl hname ?_) (b.lines_sound hb) rfl
    simp [Segment.isSound, Token.isMark, Expr.areWellNamed, hs]
  | .numericFor x i l s b, h => by
    simp only [Loop.isLegible, Bool.and_eq_true] at h
    obtain ⟨⟨hx, hclauses⟩, hb⟩ := h
    have hname : (Expr.ident x).isWellNamed = true := Name.isPath_of_isProper hx
    refine forall_mem_enclosed (Line.isSound_single rfl hname ?_) (b.lines_sound hb) rfl
    simp [Segment.isSound, Token.isMark, hclauses, areWellNamed_nil]

theorem Stmt.linesAll_sound : (ss : List Stmt) → Stmt.areLegible ss = true →
    ∀ l ∈ Stmt.linesAll ss, l.isSound = true
  | [], _ => List.forall_mem_nil _
  | s :: ss, h => by
    obtain ⟨hs, hss⟩ := Bool.and_eq_true_iff.mp h
    exact List.forall_mem_append.mpr ⟨s.lines_sound hs, Stmt.linesAll_sound ss hss⟩

end

/-! ## Putting statements together -/

def Expr.name? : Expr → Option Name
  | .ident x => some x
  | _ => none

/-- The beginning of a statement that has a block: all that stands in front of it. -/
inductive Header where
  | «do»
  | «while» (condition : Expr)
  | «repeat»
  | forIn (var : Name) (source : Call)
  | numericFor (var : Name) (start limit : Expr) (step : Option Expr)
  | «then» (condition : Expr)
  | «else» (condition : Expr) (thenBlock : List Stmt)

/-- The statement with the given header and block; `condition` is what follows `until`. -/
def Header.close (body : List Stmt) (condition : Expr) : Header → Stmt
  | .do => .do (.doEnd body)
  | .while c => .loop (.while c (.doEnd body))
  | .repeat => .loop (.repeat (.bare body) condition)
  | .forIn x s => .loop (.forIn x s (.doEnd body))
  | .numericFor x i l s => .loop (.numericFor x i l s (.doEnd body))
  | .then c => .if c (.bare body) none
  | .else c ss => .if c (.bare ss) (some (.bare body))

/-- Statements that are being put together: those of the innermost block that has not been closed, and
for each such block its header and what stands before it. -/
structure Assembly where
  done : List Stmt
  outer : List (Header × List Stmt)

namespace Assembly

variable (a : Assembly)

def add (ss : List Stmt) : Assembly :=
  { a with done := a.done ++ ss }

def enter (header : Header) : Assembly :=
  ⟨[], (header, a.done) :: a.outer⟩

def leave (condition : Expr) : Assembly :=
  match a.outer with
  | (header, before) :: outer => ⟨before ++ [header.close a.done condition], outer⟩
  | [] => a

/-- Goes on with the other branch of an `if`. -/
def turn : Assembly :=
  match a.outer with
  | (.then c, before) :: outer => ⟨[], (.else c a.done, before) :: outer⟩
  | _ => a

/-- Reads a line that begins with the word. -/
def readWord (es : List Expr) (rest : List Segment) : Keyword → Assembly
  | .local => a.add [.local ⟨es.filterMap Expr.name?, rest.flatMap Segment.exprs⟩]
  | .break => a.add [.break]
  | .return => a.add [.return es]
  | .do => a.enter .do
  | .while => a.enter (.while (es.headD .nil))
  | .repeat => a.enter .repeat
  | .for =>
    match es, rest with
    | [.ident x], ⟨.word .in, [.call c as]⟩ :: _ => a.enter (.forIn x ⟨c, as⟩)
    | [.ident x], ⟨.sign .assign, i :: l :: step⟩ :: _ => a.enter (.numericFor x i l step.head?)
    | _, _ => a
  | .if => a.enter (.then (es.headD .nil))
  | .else => a.turn
  | .end | .until => a.leave (es.headD .nil)
  | _ => a

def read : Line → Assembly
  | ⟨_, ⟨.word k, es⟩ :: rest⟩ => a.readWord es rest k
  | ⟨ts, ⟨.sign .assign, vs⟩ :: _⟩ => a.add [.assign ts vs]
  | ⟨es, _⟩ => a.add (es.map .expr)

end Assembly

namespace Assembly

def readAll (a : Assembly) (ls : List Line) : Assembly :=
  ls.foldl Assembly.read a

theorem readAll_cons (a : Assembly) (l : Line) (ls : List Line) :
    a.readAll (l :: ls) = (a.read l).readAll ls := rfl

theorem readAll_append (a : Assembly) (ls ms : List Line) :
    a.readAll (ls ++ ms) = (a.readAll ls).readAll ms :=
  List.foldl_append

theorem add_add (a : Assembly) (ss ss' : List Stmt) : (a.add ss).add ss' = a.add (ss ++ ss') := by
  rw [add, add, add, List.append_assoc]

end Assembly

mutual

/-- Whether the blocks within the statement have the delimiters of the statement they belong to. -/
def Stmt.isDelimited : Stmt → Bool
  | .expr _ | .local _ | .assign _ _ | .break | .return _ => true
  | .loop l => l.isDelimited
  | .do b => b.isDelimited .doEnd
  | .if _ t none => t.isDelimited .bare
  | .if _ t (some e) => t.isDelimited .bare && e.isDelimited .bare

/-- Whether the block has the given delimiters, and the blocks within it those of their statements. -/
def Block.isDelimited (d : Delimiters) : Block → Bool
  | ⟨d', ss⟩ => d' == d && Stmt.areDelimited ss

def Loop.isDelimited : Loop → Bool
  | .while _ b => b.isDelimited .doEnd
  | .repeat b _ => b.isDelimited .bare
  | .forIn _ _ b => b.isDelimited .doEnd
  | .numericFor _ _ _ _ b => b.isDelimited .doEnd

def Stmt.areDelimited : List Stmt → Bool
  | [] => true
  | s :: ss => s.isDelimited && Stmt.areDelimited ss

end

/-- Lines between a header and a closing line. The header may have changed when the block is closed. -/
theorem Assembly.readAll_enclosed (a : Assembly) {header header' : Header} {first last : Line}
    {ls : List Line} {ss : List Stmt} {condition : Expr} (hfirst : a.read first = a.enter header)
    (hbody : (a.enter header).readAll ls = (a.enter header').add ss)
    (hlast : ((a.enter header').add ss).read last = ((a.enter header').add ss).leave condition) :
    a.readAll (first :: ls ++ [last]) = a.add [header'.close ss condition] := by
  have hopened : a.readAll (first :: ls) = (a.enter header').add ss := by
    rw [Assembly.readAll_cons, hfirst, hbody]
  rw [Assembly.readAll_append, hopened, Assembly.readAll_cons, hlast]
  rfl

theorem Name.written_of_isProper {x : Name} (h : x.isProper = true) :
    (Expr.ident x).written 0 = .ident x := by
  rw [Expr.written, Name.parts_of_isProper h]
  rfl

theorem filterMap_name?_written {xs : List Name} (h : xs.all Name.isProper = true) :
    ((xs.map Expr.ident).map (Expr.written 0)).filterMap Expr.name? = xs := by
  induction xs with
  | nil => rfl
  | cons x xs ih =>
    obtain ⟨hx, hxs⟩ := Bool.and_eq_true_iff.mp h
    rw [List.map_cons, List.map_cons, Name.written_of_isProper hx, List.filterMap_cons, ih hxs]
    rfl

mutual

/-- The lines of a statement, as they are written, are put together to the statement. -/
theorem Stmt.assemble_lines : (s : Stmt) → s.isLegible = true → s.isDelimited = true →
    (a : Assembly) → a.readAll (s.lines.map Line.written) = a.add [s.mapExprs .written]
  | .expr e, _, _, a => rfl
  | .local ⟨xs, vs⟩, h, _, a => by
    obtain ⟨hnames, -⟩ := Bool.and_eq_true_iff.mp h
    have hread := filterMap_name?_written hnames
    cases vs with
    | nil =>
      show a.add [.local ⟨_, _⟩] = _
      rw [hread]
      rfl
    | cons v vs =>
      show a.add [.local ⟨_, _⟩] = _
      rw [hread]
      exact congrArg (fun values => a.add [.local ⟨xs, values⟩]) (List.append_nil _)
  | .assign ts vs, _, _, a => rfl
  | .loop l, h, hform, a => l.assemble_lines h hform a
  | .do b, h, hform, a => by
    obtain ⟨ss, rfl, hbody⟩ := b.assemble_lines h hform (a.enter .do)
    rw [Stmt.lines, Block.lines, List.map_append, List.map_cons]
    exact a.readAll_enclosed rfl hbody rfl
  | .if c t none, h, hform, a => by
    simp only [Stmt.isLegible, Bool.and_eq_true] at h
    obtain ⟨ss, rfl, hbody⟩ := t.assemble_lines h.1.2 hform (a.enter (.then (c.written 0)))
    rw [Stmt.lines, Block.lines, List.map_append, List.map_cons]
    exact a.readAll_enclosed rfl hbody rfl
  | .if c t (some e), h, hform, a => by
    simp only [Stmt.isLegible, Bool.and_eq_true] at h
    obtain ⟨⟨⟨⟨-, ht⟩, -⟩, he⟩, -⟩ := h
    obtain ⟨hformt, hforme⟩ := Bool.and_eq_true_iff.mp hform
    obtain ⟨ss, rfl, hthen⟩ := t.assemble_lines ht hformt (a.enter (.then (c.written 0)))
    obtain ⟨es, rfl, helse⟩ := e.assemble_lines he hforme
      (a.enter (.else (c.written 0) (Stmt.mapExprsAll .written ss)))
    have hbranches : (a.enter (.then (c.written 0))).readAll
        ((Stmt.linesAll ss ++ .word .else [] [] :: Stmt.linesAll es).map Line.written) =
          (a.enter (.else (c.written 0) (Stmt.mapExprsAll .written ss))).add
            (Stmt.mapExprsAll .written es) := by
      rw [List.map_append, Assembly.readAll_append, hthen]
      exact helse
    rw [Stmt.lines, Block.lines, Block.lines, List.map_append, List.map_cons]
    exact a.readAll_enclosed rfl hbranches rfl
  | .break, _, _, a => rfl
  | .return vs, _, _, a => rfl

theorem Block.assemble_lines : (b : Block) → b.isLegible = true → {d : Delimiters} →
    b.isDelimited d = true → (a : Assembly) → ∃ ss, b = ⟨d, ss⟩ ∧
      a.readAll ((Stmt.linesAll ss).map Line.written) = a.add (Stmt.mapExprsAll .written ss)
  | ⟨_, ss⟩, h, _, hform, a => by
    obtain ⟨hd, hss⟩ := Bool.and_eq_true_iff.mp hform
    obtain rfl := beq_iff_eq.mp hd
    exact ⟨ss, rfl, Stmt.assemble_linesAll ss h hss a⟩

theorem Loop.assemble_lines : (l : Loop) → l.isLegible = true → l.isDelimited = true →
    (a : Assembly) → a.readAll (l.lines.map Line.written) = a.add [.loop (l.mapExprs .written)]
  | .while c b, h, hform, a => by
    obtain ⟨-, hb⟩ := Bool.and_eq_true_iff.mp h
    obtain ⟨ss, rfl, hbody⟩ := b.assemble_lines hb hform (a.enter (.while (c.written 0)))
    rw [Loop.lines, Block.lines, List.map_append, List.map_cons]
    exact a.readAll_enclosed rfl hbody rfl
  | .repeat b c, h, hform, a => by
    simp only [Loop.isLegible, Bool.and_eq_true] at h
    obtain ⟨ss, rfl, hbody⟩ := b.assemble_lines h.1.1 hform (a.enter .repeat)
    rw [Loop.lines, Block.lines, List.map_append, List.map_cons]
    exact a.readAll_enclosed rfl hbody rfl
  | .forIn x s b, h, hform, a => by
    simp only [Loop.isLegible, Bool.and_eq_true] at h
    obtain ⟨⟨hx, -⟩, hb⟩ := h
    obtain ⟨ss, rfl, hbody⟩ := b.assemble_lines hb hform (a.enter (.forIn x (ExprChange.written.call s)))
    rw [Loop.lines, Block.lines, List.map_append, List.map_cons]
    refine a.readAll_enclosed ?_ hbody rfl
    show a.readWord [(Expr.ident x).written 0] (⟨.word .in, [ExprChange.written.expr s.toExpr]⟩ :: _)
      .for = _
    rw [Name.written_of_isProper hx, ← ExprChange.written.toExpr_call]
    rfl
  | .numericFor x i l s b, h, hform, a => by
    simp only [Loop.isLegible, Bool.and_eq_true] at h
    obtain ⟨⟨hx, -⟩, hb⟩ := h
    obtain ⟨ss, rfl, hbody⟩ := b.assemble_lines hb hform
      (a.enter (.numericFor x (i.written 0) (l.written 0) (s.map (Expr.written 0))))
    rw [Loop.lines, Block.lines, List.map_append, List.map_cons]
    refine a.readAll_enclosed ?_ hbody rfl
    show a.readWord [(Expr.ident x).written 0] (⟨.sign .assign, _ :: _ :: _⟩ :: _) .for = _
    rw [Name.written_of_isProper hx]
    cases s <;> rfl

theorem Stmt.assemble_linesAll : (ss : List Stmt) → Stmt.areLegible ss = true →
    Stmt.areDelimited ss = true → (a : Assembly) →
    a.readAll ((Stmt.linesAll ss).map Line.written) = a.add (Stmt.mapExprsAll .written ss)
  | [], _, _, a => congrArg (Assembly.mk · a.outer) (List.append_nil a.done).symm
  | s :: ss, h, hform, a => by
    obtain ⟨hs, hss⟩ := Bool.and_eq_true_iff.mp h
    obtain ⟨hforms, hformss⟩ := Bool.and_eq_true_iff.mp hform
    rw [Stmt.linesAll, List.map_append, Assembly.readAll_append, s.assemble_lines hs hforms,
      Stmt.assemble_linesAll ss hss hformss, Assembly.add_add]
    rfl

end

theorem Line.map_written_eq {ls ls' : List Line} (h : ∀ l ∈ ls, l.isSound = true)
    (h' : ∀ l ∈ ls', l.isSound = true) (htokens : ls.map Line.tokens = ls'.map Line.tokens) :
    ls.map Line.written = ls'.map Line.written := by
  induction ls generalizing ls' with
  | nil =>
    obtain rfl := List.map_eq_nil_iff.mp htokens.symm
    rfl
  | cons l ls ih =>
    cases ls' with
    | nil => cases htokens
    | cons l' ls' =>
      obtain ⟨hl, hls⟩ := List.forall_mem_cons.mp h
      obtain ⟨hl', hls'⟩ := List.forall_mem_cons.mp h'
      obtain ⟨hfirst, hrest⟩ := List.cons.inj htokens
      rw [List.map_cons, List.map_cons, Line.written_eq hl hl' hfirst, ih hls hls' hrest]

/-- **The tokens of its lines say what a program is,** but for parentheses and the ways to write integers
and paths. -/
theorem Stmt.written_eq_of_lines {ss ss' : List Stmt} (h : Stmt.areLegible ss = true)
    (hform : Stmt.areDelimited ss = true) (h' : Stmt.areLegible ss' = true)
    (hform' : Stmt.areDelimited ss' = true)
    (htokens : (Stmt.linesAll ss).map Line.tokens = (Stmt.linesAll ss').map Line.tokens) :
    Stmt.mapExprsAll .written ss = Stmt.mapExprsAll .written ss' := by
  have hlines := Line.map_written_eq (Stmt.linesAll_sound ss h) (Stmt.linesAll_sound ss' h') htokens
  have hread := Stmt.assemble_linesAll ss h hform ⟨[], []⟩
  rw [hlines, Stmt.assemble_linesAll ss' h' hform' ⟨[], []⟩] at hread
  exact (congrArg Assembly.done hread).symm

end LoopLowering
