import LoopLowering.Proofs.Decoding
import LoopLowering.Proofs.Lines
import LoopLowering.Proofs.StmtTokens

/- Words around blocks. In the target language the words `do` and `then` are closed by
   an `end` of their own, `then` perhaps with an `else` in between, and `repeat` by an
   `until`. `Matched` says this of a sequence of tokens, and `Stmt.Frames` says that the
   tokens are framed as the statement asks: its blocks stand between these words.

   Decoding puts the right delimiters around the bodies of loops only. A branch of
   `if` that has delimiters of its own runs into the next word, so that its `do` is
   never closed, and a `do` block without delimiters is written without its words.
   Counting shows both: `Stmt.tally_tokens` says how many blocks stay open and how many
   words are missing, while matched words leave no block open
   (`Matched.totalRise_eq`) and frames miss no word (`Stmt.closerCount_of_frames`). So the
   right delimiters are needed as well as enough (`block_words_matched_iff`). -/
namespace LoopLowering

open Fragment (tokensOf tokensOf_append tokensOf_word tokensOf_space tokensOf_assign)

/-! ## Matched words -/

namespace Token

/-- Whether the token is a word that opens, divides or closes a block. -/
def isBlockWord : Token → Bool
  | .word k => k ∈ [Keyword.do, .then, .else, .end, .repeat, .until]
  | _ => false

/-- Whether the token ends a block, or the branch before `else`. -/
def isCloser : Token → Bool
  | .word k => k ∈ [Keyword.else, .end]
  | _ => false

/-- The number of blocks that the token opens for an `end` to close, less those that it closes. -/
def rise : Token → Int
  | .word .do | .word .then => 1
  | .word .end => -1
  | _ => 0

theorem isCloser_eq_false {t : Token} (h : t.isBlockWord = false) : t.isCloser = false := by
  cases t with
  | word k => cases k <;> first | rfl | cases h
  | name _ | numeral _ | quoted _ | sign _ => rfl

theorem rise_eq_zero {t : Token} (h : t.isBlockWord = false) : t.rise = 0 := by
  cases t with
  | word k => cases k <;> first | rfl | cases h
  | name _ | numeral _ | quoted _ | sign _ => rfl

end Token

def NoBlockWords (ts : List Token) : Prop :=
  ∀ t ∈ ts, t.isBlockWord = false

/-- The words around blocks are matched: each word that opens a block is closed by its own. -/
inductive Matched : List Token → Prop
  | free {ts : List Token} (h : NoBlockWords ts) : Matched ts
  | append {ts us : List Token} (h : Matched ts) (h' : Matched us) : Matched (ts ++ us)
  | doEnd {ts : List Token} (h : Matched ts) : Matched (.word .do :: ts ++ [.word .end])
  | thenEnd {ts : List Token} (h : Matched ts) : Matched (.word .then :: ts ++ [.word .end])
  | thenElse {ts us : List Token} (h : Matched ts) (h' : Matched us) :
    Matched (.word .then :: ts ++ .word .else :: us ++ [.word .end])
  | repeatUntil {ts : List Token} (h : Matched ts) : Matched (.word .repeat :: ts ++ [.word .until])

def closerCount (ts : List Token) : Nat :=
  ts.countP Token.isCloser

def totalRise : List Token → Int
  | [] => 0
  | t :: ts => t.rise + totalRise ts

@[simp] theorem closerCount_nil : closerCount [] = 0 := rfl

@[simp] theorem closerCount_cons (t : Token) (ts : List Token) :
    closerCount (t :: ts) = closerCount ts + if t.isCloser then 1 else 0 :=
  List.countP_cons

@[simp] theorem closerCount_append (ts us : List Token) :
    closerCount (ts ++ us) = closerCount ts + closerCount us :=
  List.countP_append

@[simp] theorem totalRise_nil : totalRise [] = 0 := rfl

@[simp] theorem totalRise_cons (t : Token) (ts : List Token) :
    totalRise (t :: ts) = t.rise + totalRise ts := rfl

@[simp] theorem totalRise_append (ts us : List Token) :
    totalRise (ts ++ us) = totalRise ts + totalRise us := by
  induction ts with
  | nil => exact (Int.zero_add _).symm
  | cons t ts ih => rw [List.cons_append, totalRise, totalRise, ih, Int.add_assoc]

namespace NoBlockWords

variable {ts us : List Token}

theorem nil : NoBlockWords [] :=
  List.forall_mem_nil _

theorem cons {t : Token} (ht : t.isBlockWord = false) (h : NoBlockWords ts) :
    NoBlockWords (t :: ts) :=
  List.forall_mem_cons.mpr ⟨ht, h⟩

theorem append (h : NoBlockWords ts) (h' : NoBlockWords us) : NoBlockWords (ts ++ us) :=
  List.forall_mem_append.mpr ⟨h, h'⟩

theorem of_isMark (h : ∀ t ∈ ts, t.isMark = false) : NoBlockWords ts := by
  intro t ht
  have hmark := h t ht
  cases t with
  | word k => cases k <;> first | rfl | cases hmark
  | name _ | numeral _ | quoted _ | sign _ => rfl

theorem expr {e : Expr} (h : e.isWellNamed = true) : NoBlockWords (tokensOf (e.layout 0)) :=
  of_isMark (Expr.layout_derives_zero h).isMark_eq_false

theorem exprs {es : List Expr} (h : Expr.areWellNamed es = true) :
    NoBlockWords (tokensOf (Expr.layoutList es)) :=
  of_isMark (Expr.isMark_layoutList h)

theorem closerCount_eq (h : NoBlockWords ts) : closerCount ts = 0 := by
  refine List.countP_eq_zero.mpr fun t ht => ?_
  rw [Token.isCloser_eq_false (h t ht)]
  exact Bool.false_ne_true

theorem totalRise_eq (h : NoBlockWords ts) : totalRise ts = 0 := by
  induction ts with
  | nil => rfl
  | cons t ts ih =>
    obtain ⟨ht, hts⟩ := List.forall_mem_cons.mp h
    rw [totalRise_cons, Token.rise_eq_zero ht, ih hts]
    rfl

end NoBlockWords

/-- In matched tokens as many blocks are closed by `end` as are opened. -/
theorem Matched.totalRise_eq {ts : List Token} (h : Matched ts) : totalRise ts = 0 := by
  induction h with
  | free h => exact h.totalRise_eq
  | append _ _ ih ih' => rw [totalRise_append, ih, ih']; rfl
  | doEnd _ ih | thenEnd _ ih | repeatUntil _ ih => simp [ih, Token.rise]
  | thenElse _ _ ih ih' => simp [ih, ih', Token.rise]

/-! ## Statements in their frames -/

mutual

/-- The tokens are framed as the statement asks: the statements of a `do` block stand between `do`
and `end`, and those of branches and loops between the words of the `if` or of the loop. -/
def Stmt.Frames : Stmt → List Token → Prop
  | .loop l, ts => l.Frames ts
  | .do b, ts => ∃ us, b.Frames us ∧ ts = .word .do :: us ++ [.word .end]
  | .if _ t none, ts => ∃ cs us, NoBlockWords cs ∧ t.Frames us ∧
      ts = cs ++ .word .then :: us ++ [.word .end]
  | .if _ t (some e), ts => ∃ cs us vs, NoBlockWords cs ∧ t.Frames us ∧ e.Frames vs ∧
      ts = cs ++ .word .then :: us ++ .word .else :: vs ++ [.word .end]
  | .expr _, ts | .local _, ts | .assign _ _, ts | .break, ts | .return _, ts => NoBlockWords ts

def Block.Frames : Block → List Token → Prop
  | ⟨_, ss⟩, ts => Stmt.FramesAll ss ts

def Loop.Frames : Loop → List Token → Prop
  | .while _ b, ts | .forIn _ _ b, ts | .numericFor _ _ _ _ b, ts =>
    ∃ cs us, NoBlockWords cs ∧ b.Frames us ∧ ts = cs ++ .word .do :: us ++ [.word .end]
  | .repeat b _, ts =>
    ∃ us cs, b.Frames us ∧ NoBlockWords cs ∧ ts = .word .repeat :: us ++ .word .until :: cs

def Stmt.FramesAll : List Stmt → List Token → Prop
  | [], ts => ts = []
  | s :: ss, ts => ∃ us vs, s.Frames us ∧ Stmt.FramesAll ss vs ∧ ts = us ++ vs

end

/-- Where a block stands that is no body of a loop: as a branch of `if`, or alone. -/
inductive BlockPlace where
  | branch
  | alone
  deriving DecidableEq, Repr

/-- The delimiters that the place asks for: the words of `if` already end its branches. -/
def BlockPlace.delimiters : BlockPlace → Delimiters
  | .branch => .bare
  | .alone => .doEnd

mutual

/-- The places and the delimiters of the blocks of a statement, at any depth, without the bodies of
loops. -/
def Stmt.placedBlocks : Stmt → List (BlockPlace × Delimiters)
  | .loop l => l.placedBlocks
  | .do b => (.alone, b.delimiters) :: b.placedBlocks
  | .if _ t none => (.branch, t.delimiters) :: t.placedBlocks
  | .if _ t (some e) =>
    (.branch, t.delimiters) :: t.placedBlocks ++ (.branch, e.delimiters) :: e.placedBlocks
  | .expr _ | .local _ | .assign _ _ | .break | .return _ => []

def Block.placedBlocks : Block → List (BlockPlace × Delimiters)
  | ⟨_, ss⟩ => Stmt.placedBlocksAll ss

def Loop.placedBlocks : Loop → List (BlockPlace × Delimiters)
  | .while _ b | .repeat b _ | .forIn _ _ b | .numericFor _ _ _ _ b => b.placedBlocks

def Stmt.placedBlocksAll : List Stmt → List (BlockPlace × Delimiters)
  | [] => []
  | s :: ss => s.placedBlocks ++ Stmt.placedBlocksAll ss

end

mutual

/-- How many words `end` and `else` the blocks of a statement call for. -/
def Stmt.closers : Stmt → Nat
  | .loop l => l.closers
  | .do b => b.closers + 1
  | .if _ t none => t.closers + 1
  | .if _ t (some e) => t.closers + e.closers + 2
  | .expr _ | .local _ | .assign _ _ | .break | .return _ => 0

def Block.closers : Block → Nat
  | ⟨_, ss⟩ => Stmt.closersAll ss

def Loop.closers : Loop → Nat
  | .while _ b | .forIn _ _ b | .numericFor _ _ _ _ b => b.closers + 1
  | .repeat b _ => b.closers

def Stmt.closersAll : List Stmt → Nat
  | [] => 0
  | s :: ss => s.closers + Stmt.closersAll ss

end

/-! ## Words that are missing -/

mutual

/-- Tokens that are framed as a statement asks have as many words to close blocks. -/
theorem Stmt.closerCount_of_frames : (s : Stmt) → {ts : List Token} → s.Frames ts →
    closerCount ts = s.closers
  | .loop l, _, h => l.closerCount_of_frames h
  | .do b, _, ⟨us, hus, hts⟩ => by
    simp [hts, b.closerCount_of_frames hus, Stmt.closers, Token.isCloser]
  | .if c t none, _, ⟨cs, us, hcs, hus, hts⟩ => by
    simp [hts, hcs.closerCount_eq, t.closerCount_of_frames hus, Stmt.closers, Token.isCloser]
  | .if c t (some e), _, ⟨cs, us, vs, hcs, hus, hvs, hts⟩ => by
    simp [hts, hcs.closerCount_eq, t.closerCount_of_frames hus, e.closerCount_of_frames hvs,
      Stmt.closers, Token.isCloser]
    omega
  | .expr _, _, h | .local _, _, h | .assign _ _, _, h | .break, _, h | .return _, _, h =>
    NoBlockWords.closerCount_eq h

theorem Block.closerCount_of_frames : (b : Block) → {ts : List Token} → b.Frames ts →
    closerCount ts = b.closers
  | ⟨_, ss⟩, _, h => Stmt.closerCount_of_framesAll ss h

theorem Loop.closerCount_of_frames : (l : Loop) → {ts : List Token} → l.Frames ts →
    closerCount ts = l.closers
  | .while _ b, _, ⟨cs, us, hcs, hus, hts⟩ | .forIn _ _ b, _, ⟨cs, us, hcs, hus, hts⟩
  | .numericFor _ _ _ _ b, _, ⟨cs, us, hcs, hus, hts⟩ => by
    simp [hts, hcs.closerCount_eq, b.closerCount_of_frames hus, Loop.closers, Token.isCloser]
  | .repeat b _, _, ⟨us, cs, hus, hcs, hts⟩ => by
    simp [hts, hcs.closerCount_eq, b.closerCount_of_frames hus, Loop.closers, Token.isCloser]

theorem Stmt.closerCount_of_framesAll : (ss : List Stmt) → {ts : List Token} →
    Stmt.FramesAll ss ts → closerCount ts = Stmt.closersAll ss
  | [], _, h => by rw [h]; rfl
  | s :: ss, _, ⟨us, vs, hus, hvs, hts⟩ => by
    simp [hts, s.closerCount_of_frames hus, Stmt.closerCount_of_framesAll ss hvs, Stmt.closersAll]

end

/-! ## Statements as they are read -/

/-- Whether the statement has no block. -/
def Stmt.isPlain : Stmt → Bool
  | .loop _ | .do _ | .if .. => false
  | .expr _ | .local _ | .assign _ _ | .break | .return _ => true

theorem Stmt.noBlockWords_tokens : {s : Stmt} → s.isPlain = true → s.isWellNamed = true →
    NoBlockWords s.tokens
  | .expr _, _, h => .expr h
  | .local d, _, h => by
    obtain ⟨hnames, hvalues⟩ := Bool.and_eq_true_iff.mp h
    have hidents := NoBlockWords.exprs (areWellNamed_names hnames)
    rw [Stmt.tokens, Declaration.layout, commaSeparated_names, tokensOf_append, tokensOf_word,
      tokensOf_space]
    refine .append (.cons rfl hidents) ?_
    split
    · exact .nil
    · exact .cons rfl (.exprs hvalues)
  | .assign ts vs, _, h => by
    obtain ⟨hts, hvs⟩ := Bool.and_eq_true_iff.mp h
    rw [Stmt.tokens, tokensOf_append, tokensOf_assign]
    exact .append (.exprs hts) (.cons rfl (.exprs hvs))
  | .break, _, _ => .cons rfl .nil
  | .return _, _, h => .cons rfl (.exprs h)

/-- What a loop is read as before its body, unless it is a `repeat`. -/
def Loop.head : Loop → List Token
  | .while c _ => .word .while :: tokensOf (c.layout 0)
  | .repeat _ _ => []
  | .forIn x s _ => .word .for :: .name x :: .word .in :: tokensOf s.layout
  | .numericFor x i l s _ =>
    .word .for :: .name x :: .sign .assign :: tokensOf (Expr.layoutList (i :: l :: s.toList))

theorem Loop.noBlockWords_head : {l : Loop} → l.isWellNamed = true → NoBlockWords l.head
  | .while _ _, h => .cons rfl (.expr (Bool.and_eq_true_iff.mp h).1)
  | .repeat _ _, _ => .nil
  | .forIn _ _ _, h => by
    simp only [Loop.isWellNamed, Bool.and_eq_true] at h
    exact .cons rfl (.cons rfl (.cons rfl (.expr h.1.2)))
  | .numericFor _ _ _ _ _, h => by
    simp only [Loop.isWellNamed, Bool.and_eq_true] at h
    exact .cons rfl (.cons rfl (.cons rfl (.exprs h.1.2)))

/-- Whether the delimiters of a block are not those that its place asks for. -/
def isMisplaced (p : BlockPlace × Delimiters) : Bool :=
  p.2 != p.1.delimiters

/-- Each branch with delimiters opens a block that is not closed, and of the words that are called
for to close blocks one is missing for each block with the wrong delimiters. -/
structure Tally (placed : List (BlockPlace × Delimiters)) (closers : Nat) (ts : List Token) :
    Prop where
  unclosed : placed.count (.branch, .doEnd) ≤ totalRise ts
  missing : closerCount ts + placed.countP isMisplaced = closers

namespace Tally

variable {placed placed' : List (BlockPlace × Delimiters)} {n m : Nat} {cs ts us : List Token}

theorem free (h : NoBlockWords ts) : Tally [] 0 ts :=
  ⟨Int.le_of_eq h.totalRise_eq.symm, h.closerCount_eq⟩

theorem append (h : Tally placed n ts) (h' : Tally placed' m us) :
    Tally (placed ++ placed') (n + m) (ts ++ us) := by
  obtain ⟨hunclosed, hmissing⟩ := h
  obtain ⟨hunclosed', hmissing'⟩ := h'
  constructor
  · rw [List.count_append, totalRise_append]
    omega
  · rw [List.countP_append, closerCount_append]
    omega

theorem prepend (hcs : NoBlockWords cs) (h : Tally placed n ts) : Tally placed n (cs ++ ts) := by
  have happend := (free hcs).append h
  rwa [List.nil_append, Nat.zero_add] at happend

theorem doEnd (h : Tally placed n ts) : Tally placed (n + 1) (.word .do :: ts ++ [.word .end]) := by
  obtain ⟨hunclosed, hmissing⟩ := h
  constructor
  · simp [Token.rise]
    omega
  · simp [Token.isCloser]
    omega

theorem repeatUntil (h : Tally placed n ts) (hcs : NoBlockWords cs) :
    Tally placed n (.word .repeat :: ts ++ .word .until :: cs) := by
  obtain ⟨hunclosed, hmissing⟩ := h
  constructor
  · simpa [Token.rise, hcs.totalRise_eq] using hunclosed
  · simpa [Token.isCloser, hcs.closerCount_eq] using hmissing

theorem alone (d : Delimiters) {ss : List Stmt} (h : Tally placed n (Stmt.tokensAll ss)) :
    Tally ((.alone, d) :: placed) (n + 1) (Block.tokens ⟨d, ss⟩) := by
  obtain ⟨hunclosed, hmissing⟩ := h
  cases d <;> constructor <;>
    simp [Block.tokens, Token.rise, Token.isCloser, isMisplaced, BlockPlace.delimiters,
      List.countP_cons] <;> omega

theorem thenEnd (d : Delimiters) {ss : List Stmt} (h : Tally placed n (Stmt.tokensAll ss)) :
    Tally ((.branch, d) :: placed) (n + 1) (.word .then :: Block.tokensBefore .end ⟨d, ss⟩) := by
  obtain ⟨hunclosed, hmissing⟩ := h
  cases d <;> constructor <;>
    simp [Block.tokensBefore, Token.rise, Token.isCloser, isMisplaced, BlockPlace.delimiters,
      List.countP_cons] <;> omega

/-- Both branches of an `if`. Only the second is closed by `end`. -/
theorem thenElse (d d' : Delimiters) {ss ss' : List Stmt} (h : Tally placed n (Stmt.tokensAll ss))
    (h' : Tally placed' m (Stmt.tokensAll ss')) :
    Tally ((.branch, d) :: placed ++ (.branch, d') :: placed') (n + m + 2)
      (.word .then :: Block.tokensBefore .else ⟨d, ss⟩ ++ Block.tokensBefore .end ⟨d', ss'⟩) := by
  obtain ⟨hunclosed, hmissing⟩ := h
  obtain ⟨hunclosed', hmissing'⟩ := h'
  cases d <;> cases d' <;> constructor <;>
    simp [Block.tokensBefore, Token.rise, Token.isCloser, isMisplaced, BlockPlace.delimiters,
      List.countP_cons] <;> omega

end Tally

mutual

/-- What the tokens of a statement miss is what its branches and blocks have wrong. -/
theorem Stmt.tally_tokens : (s : Stmt) → s.isWellNamed = true → WellFormed s.loops →
    Tally s.placedBlocks s.closers s.tokens
  | .loop l, h, hloops => l.tally_tokens h hloops
  | .do ⟨d, ss⟩, h, hloops => (Stmt.tally_tokensAll ss h hloops).alone d
  | .if c ⟨d, ss⟩ none, h, hloops => by
    obtain ⟨hc, hss⟩ := Bool.and_eq_true_iff.mp h
    have hbranch := (Stmt.tally_tokensAll ss hss hloops).thenEnd d
    exact .prepend (.cons rfl (.expr hc)) hbranch
  | .if c ⟨d, ss⟩ (some ⟨d', ss'⟩), h, hloops => by
    simp only [Stmt.isWellNamed, Bool.and_eq_true] at h
    obtain ⟨⟨hc, hss⟩, hss'⟩ := h
    obtain ⟨hloopst, hloopse⟩ := wellFormed_append.mp hloops
    have hbranches := (Stmt.tally_tokensAll ss hss hloopst).thenElse d d'
      (Stmt.tally_tokensAll ss' hss' hloopse)
    rw [Stmt.tokens, List.append_assoc]
    exact .prepend (.cons rfl (.expr hc)) hbranches
  | .expr _, h, _ | .local _, h, _ | .assign _ _, h, _ | .break, h, _ | .return _, h, _ =>
    .free (Stmt.noBlockWords_tokens rfl h)

theorem Loop.tally_tokens : (l : Loop) → l.isWellNamed = true → WellFormed l.loops →
    Tally l.placedBlocks l.closers l.tokens
  | .while _ ⟨d, ss⟩, h, hloops | .forIn _ _ ⟨d, ss⟩, h, hloops
  | .numericFor _ _ _ _ ⟨d, ss⟩, h, hloops => by
    obtain ⟨⟨-, hd⟩, hinner⟩ := wellFormed_cons.mp hloops
    obtain rfl : d = .doEnd := hd
    have hbody := Stmt.tally_tokensAll ss (Bool.and_eq_true_iff.mp h).2 hinner
    exact .prepend (Loop.noBlockWords_head h) hbody.doEnd
  | .repeat ⟨d, ss⟩ c, h, hloops => by
    obtain ⟨hss, hc⟩ := Bool.and_eq_true_iff.mp h
    obtain ⟨⟨-, hd⟩, hinner⟩ := wellFormed_cons.mp hloops
    obtain rfl : d = .bare := hd
    exact (Stmt.tally_tokensAll ss hss hinner).repeatUntil (.expr hc)

theorem Stmt.tally_tokensAll : (ss : List Stmt) → Stmt.areWellNamed ss = true →
    WellFormed (Stmt.loopsAll ss) →
    Tally (Stmt.placedBlocksAll ss) (Stmt.closersAll ss) (Stmt.tokensAll ss)
  | [], _, _ => .free .nil
  | s :: ss, h, hloops => by
    obtain ⟨hs, hss⟩ := Bool.and_eq_true_iff.mp h
    obtain ⟨hfirst, hrest⟩ := wellFormed_append.mp hloops
    exact (s.tally_tokens hs hfirst).append (Stmt.tally_tokensAll ss hss hrest)

end

theorem delimiters_of_not_mem {d : Delimiters} {placed : List (BlockPlace × Delimiters)}
    (h : (.branch, .doEnd) ∉ (.branch, d) :: placed) : d = .bare ∧ (.branch, .doEnd) ∉ placed := by
  refine ⟨?_, List.not_mem_of_not_mem_cons h⟩
  cases d with
  | bare => rfl
  | doEnd => exact absurd List.mem_cons_self h

mutual

/-- The words are matched unless a branch has delimiters. -/
theorem Stmt.matched_tokens : (s : Stmt) → s.isWellNamed = true → WellFormed s.loops →
    (.branch, .doEnd) ∉ s.placedBlocks → Matched s.tokens
  | .loop l, h, hloops, hbare => l.matched_tokens h hloops hbare
  | .do ⟨d, ss⟩, h, hloops, hbare => by
    have hblock := Stmt.matched_tokensAll ss h hloops (List.not_mem_of_not_mem_cons hbare)
    cases d with
    | bare => exact hblock
    | doEnd => exact hblock.doEnd
  | .if c ⟨d, ss⟩ none, h, hloops, hbare => by
    obtain ⟨hc, hss⟩ := Bool.and_eq_true_iff.mp h
    obtain ⟨rfl, hbares⟩ := delimiters_of_not_mem hbare
    have hthen := Stmt.matched_tokensAll ss hss hloops hbares
    exact .append (.free (.cons rfl (.expr hc))) hthen.thenEnd
  | .if c ⟨d, ss⟩ (some ⟨d', ss'⟩), h, hloops, hbare => by
    simp only [Stmt.isWellNamed, Bool.and_eq_true] at h
    obtain ⟨⟨hc, hss⟩, hss'⟩ := h
    obtain ⟨hloopst, hloopse⟩ := wellFormed_append.mp hloops
    obtain ⟨hbare, hbare'⟩ := not_or.mp (mt List.mem_append.mpr hbare)
    obtain ⟨rfl, hbares⟩ := delimiters_of_not_mem hbare
    obtain ⟨rfl, hbares'⟩ := delimiters_of_not_mem hbare'
    have hthen := Stmt.matched_tokensAll ss hss hloopst hbares
    have helse := Stmt.matched_tokensAll ss' hss' hloopse hbares'
    have hcond : NoBlockWords (.word .if :: tokensOf (c.layout 0)) := .cons rfl (.expr hc)
    have hif := Matched.append (.free hcond) (hthen.thenElse helse)
    simpa only [Stmt.tokens, Block.tokensBefore, List.append_assoc, List.cons_append,
      List.nil_append] using hif
  | .expr _, h, _, _ | .local _, h, _, _ | .assign _ _, h, _, _ | .break, h, _, _
  | .return _, h, _, _ => .free (Stmt.noBlockWords_tokens rfl h)

theorem Loop.matched_tokens : (l : Loop) → l.isWellNamed = true → WellFormed l.loops →
    (.branch, .doEnd) ∉ l.placedBlocks → Matched l.tokens
  | .while _ ⟨d, ss⟩, h, hloops, hbare | .forIn _ _ ⟨d, ss⟩, h, hloops, hbare
  | .numericFor _ _ _ _ ⟨d, ss⟩, h, hloops, hbare => by
    obtain ⟨⟨-, hd⟩, hinner⟩ := wellFormed_cons.mp hloops
    obtain rfl : d = .doEnd := hd
    have hbody := Stmt.matched_tokensAll ss (Bool.and_eq_true_iff.mp h).2 hinner hbare
    exact .append (.free (Loop.noBlockWords_head h)) hbody.doEnd
  | .repeat ⟨d, ss⟩ c, h, hloops, hbare => by
    obtain ⟨hss, hc⟩ := Bool.and_eq_true_iff.mp h
    obtain ⟨⟨-, hd⟩, hinner⟩ := wellFormed_cons.mp hloops
    obtain rfl : d = .bare := hd
    have hbody := (Stmt.matched_tokensAll ss hss hinner hbare).repeatUntil
    have hloop := hbody.append (.free (.expr hc))
    rwa [← List.append_cons] at hloop

theorem Stmt.matched_tokensAll : (ss : List Stmt) → Stmt.areWellNamed ss = true →
    WellFormed (Stmt.loopsAll ss) → (.branch, .doEnd) ∉ Stmt.placedBlocksAll ss →
    Matched (Stmt.tokensAll ss)
  | [], _, _, _ => .free .nil
  | s :: ss, h, hloops, hbare => by
    obtain ⟨hs, hss⟩ := Bool.and_eq_true_iff.mp h
    obtain ⟨hfirst, hrest⟩ := wellFormed_append.mp hloops
    obtain ⟨hbare, hbares⟩ := not_or.mp (mt List.mem_append.mpr hbare)
    exact .append (s.matched_tokens hs hfirst hbare) (Stmt.matched_tokensAll ss hss hrest hbares)

end

mutual

theorem Stmt.frames_tokens : (s : Stmt) → s.isWellNamed = true → WellFormed s.loops →
    (∀ p ∈ s.placedBlocks, p.2 = p.1.delimiters) → s.Frames s.tokens
  | .loop l, h, hloops, hplaced => l.frames_tokens h hloops hplaced
  | .do ⟨d, ss⟩, h, hloops, hplaced => by
    obtain ⟨hd, hinner⟩ := List.forall_mem_cons.mp hplaced
    obtain rfl : d = .doEnd := hd
    exact ⟨_, Stmt.frames_tokensAll ss h hloops hinner, rfl⟩
  | .if c ⟨d, ss⟩ none, h, hloops, hplaced => by
    obtain ⟨hc, hss⟩ := Bool.and_eq_true_iff.mp h
    obtain ⟨hd, hinner⟩ := List.forall_mem_cons.mp hplaced
    obtain rfl : d = .bare := hd
    have hthen := Stmt.frames_tokensAll ss hss hloops hinner
    refine ⟨.word .if :: tokensOf (c.layout 0), _, .cons rfl (.expr hc), hthen, ?_⟩
    rw [List.append_assoc]
    rfl
  | .if c ⟨d, ss⟩ (some ⟨d', ss'⟩), h, hloops, hplaced => by
    simp only [Stmt.isWellNamed, Bool.and_eq_true] at h
    obtain ⟨⟨hc, hss⟩, hss'⟩ := h
    obtain ⟨hloopst, hloopse⟩ := wellFormed_append.mp hloops
    obtain ⟨hplaced, hplaced'⟩ := List.forall_mem_append.mp hplaced
    obtain ⟨hd, hinner⟩ := List.forall_mem_cons.mp hplaced
    obtain ⟨hd', hinner'⟩ := List.forall_mem_cons.mp hplaced'
    obtain rfl : d = .bare := hd
    obtain rfl : d' = .bare := hd'
    have hthen := Stmt.frames_tokensAll ss hss hloopst hinner
    have helse := Stmt.frames_tokensAll ss' hss' hloopse hinner'
    refine ⟨.word .if :: tokensOf (c.layout 0), _, _, .cons rfl (.expr hc), hthen, helse, ?_⟩
    simp only [Stmt.tokens, Block.tokensBefore, List.append_assoc, List.cons_append,
      List.nil_append]
  | .expr _, h, _, _ | .local _, h, _, _ | .assign _ _, h, _, _ | .break, h, _, _
  | .return _, h, _, _ => Stmt.noBlockWords_tokens rfl h

theorem Loop.frames_tokens : (l : Loop) → l.isWellNamed = true → WellFormed l.loops →
    (∀ p ∈ l.placedBlocks, p.2 = p.1.delimiters) → l.Frames l.tokens
  | .while _ ⟨d, ss⟩, h, hloops, hplaced | .forIn _ _ ⟨d, ss⟩, h, hloops, hplaced
  | .numericFor _ _ _ _ ⟨d, ss⟩, h, hloops, hplaced => by
    obtain ⟨⟨-, hd⟩, hinner⟩ := wellFormed_cons.mp hloops
    obtain rfl : d = .doEnd := hd
    have hbody := Stmt.frames_tokensAll ss (Bool.and_eq_true_iff.mp h).2 hinner hplaced
    refine ⟨_, _, Loop.noBlockWords_head h, hbody, ?_⟩
    rw [List.append_assoc]
    rfl
  | .repeat ⟨d, ss⟩ c, h, hloops, hplaced => by
    obtain ⟨hss, hc⟩ := Bool.and_eq_true_iff.mp h
    obtain ⟨⟨-, hd⟩, hinner⟩ := wellFormed_cons.mp hloops
    obtain rfl : d = .bare := hd
    exact ⟨_, _, Stmt.frames_tokensAll ss hss hinner hplaced, .expr hc, rfl⟩

theorem Stmt.frames_tokensAll : (ss : List Stmt) → Stmt.areWellNamed ss = true →
    WellFormed (Stmt.loopsAll ss) → (∀ p ∈ Stmt.placedBlocksAll ss, p.2 = p.1.delimiters) →
    Stmt.FramesAll ss (Stmt.tokensAll ss)
  | [], _, _, _ => rfl
  | s :: ss, h, hloops, hplaced => by
    obtain ⟨hs, hss⟩ := Bool.and_eq_true_iff.mp h
    obtain ⟨hfirst, hrest⟩ := wellFormed_append.mp hloops
    obtain ⟨hplaced, hplacedAll⟩ := List.forall_mem_append.mp hplaced
    have hline := s.frames_tokens hs hfirst hplaced
    exact ⟨_, _, hline, Stmt.frames_tokensAll ss hss hrest hplacedAll, rfl⟩

end

/-! ## Statements that were decoded -/

/-- **Which decoded statements have matched words.** The text of a statement that decodes can be
read. The words around its blocks are matched exactly when no branch of `if` has delimiters. The
statements of each block also stand between the words that belong to it exactly when each branch is
without delimiters and each `do` block has them. -/
theorem block_words_matched_iff {d : Data} {s : Stmt} (hd : Stmt.ofData d = .ok s)
    (hnames : s.isWellNamed = true) :
    ∃ ts, tokenize s.text = some ts ∧ (Matched ts ↔ (.branch, .doEnd) ∉ s.placedBlocks) ∧
      (Matched ts ∧ s.Frames ts ↔ ∀ p ∈ s.placedBlocks, p.2 = p.1.delimiters) := by
  obtain ⟨t, ht⟩ := Stmt.described d s hd
  have hloops : WellFormed s.loops := (Stmt.codec.eq_of_decode ht hd).2
  obtain ⟨hunclosed, hmissing⟩ := s.tally_tokens hnames hloops
  refine ⟨s.tokens, Stmt.tokenize_text hnames hloops, ⟨?_, ?_⟩, ⟨?_, ?_⟩⟩
  · intro hmatched
    rw [hmatched.totalRise_eq] at hunclosed
    exact List.count_eq_zero.mp (by omega)
  · exact s.matched_tokens hnames hloops
  · rintro ⟨-, hframes⟩ p hp
    have hclosers := s.closerCount_of_frames hframes
    have hright := List.countP_eq_zero.mp (show s.placedBlocks.countP isMisplaced = 0 by omega) p hp
    simpa [isMisplaced] using hright
  · intro hplaced
    refine ⟨s.matched_tokens hnames hloops fun hmem => ?_, s.frames_tokens hnames hloops hplaced⟩
    cases hplaced _ hmem

/-- A branch that leaves, and another with a block inside. -/
def guardedExit (branch block : Delimiters) : Stmt :=
  .if (.ident "done") ⟨branch, [.break]⟩ (some ⟨.bare, [.do ⟨block, [.return []]⟩]⟩)

theorem guardedExit_wellFormed (branch block : Delimiters) :
    WellFormed (guardedExit branch block).loops :=
  fun _ h => absurd h List.not_mem_nil

theorem guardedExit_decoded (branch block : Delimiters) :
    Stmt.ofData (guardedExit branch block).toData = .ok (guardedExit branch block) :=
  (Stmt.codec.decode_encode_iff (guardedExit branch block)).mpr (guardedExit_wellFormed _ _)

theorem block_words_matched_iff_guardedExit :
    ∃ ts, tokenize (guardedExit .bare .doEnd).text = some ts ∧ Matched ts ∧
      (guardedExit .bare .doEnd).Frames ts := by
  obtain ⟨ts, hts, -, hright⟩ :=
    block_words_matched_iff (guardedExit_decoded .bare .doEnd) (by decide)
  exact ⟨ts, hts, hright.mpr (by decide)⟩

/-- A branch with delimiters leaves words unmatched, and a `do` block without them has no words. -/
theorem guardedExit_misread :
    (Stmt.ofData (guardedExit .doEnd .doEnd).toData = .ok (guardedExit .doEnd .doEnd) ∧
      (guardedExit .doEnd .doEnd).isWellNamed = true ∧
      (guardedExit .doEnd .doEnd).text =
        "if done then do\n    break\nendelse\n    do\n        return\n    end\nend" ∧
      ∀ ts, tokenize (guardedExit .doEnd .doEnd).text = some ts → ¬ Matched ts) ∧
    (Stmt.ofData (guardedExit .bare .bare).toData = .ok (guardedExit .bare .bare) ∧
      (guardedExit .bare .bare).isWellNamed = true ∧
      (guardedExit .bare .bare).text =
        "if done then\n    break\nelse\n    \n        return\n    \nend" ∧
      ∀ ts, tokenize (guardedExit .bare .bare).text = some ts →
        ¬ (guardedExit .bare .bare).Frames ts) := by
  refine ⟨⟨guardedExit_decoded _ _, by decide, by decide, fun ts hts hmatched => ?_⟩,
    ⟨guardedExit_decoded _ _, by decide, by decide, fun ts hts hframes => ?_⟩⟩
  · rw [Stmt.tokenize_text (by decide) (guardedExit_wellFormed _ _)] at hts
    cases hts
    -- the `do` of the branch is not closed
    exact absurd hmatched.totalRise_eq (by decide)
  · rw [Stmt.tokenize_text (by decide) (guardedExit_wellFormed _ _)] at hts
    cases hts
    -- one `end` is missing
    exact absurd (Stmt.closerCount_of_frames _ hframes) (by decide)

end LoopLowering
