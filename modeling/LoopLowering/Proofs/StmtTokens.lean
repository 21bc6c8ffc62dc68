import LoopLowering.Proofs.LoopNodes
import LoopLowering.Proofs.StmtReadBack

/- The tokens of statements with any delimiters. A branch of `if` may have delimiters
   of its own, and then the word `end` that closes it and the word that goes on with
   the `if` are written without a blank between them. The two are read as one
   name (`Block.tokensBefore`).

   `Stmt.tokens` says how a statement is read. It is what the lexer finds in the text of
   every statement whose loops are well-formed and whose names are proper
   (`Stmt.tokenize_text`). -/
namespace LoopLowering

open Lexeme
open Fragment (lexemesOf lexemesOf_append lexemesOf_cons tokensOf)

/-! ## Reading in front of a blank -/

/-- The text begins with a blank or a line end, unless it is empty. -/
def OpensBlank (cs : List Char) : Prop :=
  ∀ c ∈ cs.head?, c = ' ' ∨ c = '\n'

theorem Token.stops_before {cs : List Char} (h : OpensBlank cs) (t : Token) :
    ∀ c ∈ cs.head?, t.pending.extend c = none :=
  fun c hc => t.extend_pending_blank (h c hc)

theorem Lexeme.Spaced.run_append {ls : List Lexeme} (h : Spaced ls) {cs : List Char}
    (hcs : OpensBlank cs) : Pending.run .nothing (ls.flatMap chars ++ cs) =
      (Pending.run .nothing cs).map (ls.filterMap token? ++ ·) := by
  apply run_lexemes h.proper h.apart cs
  intro l _ c hc
  cases l with
  | token t => exact t.stops_before hcs c hc
  | blank b => rfl

namespace Fragment

/-- The text of the fragments is read as the tokens. -/
def ReadAs (n : Nat) (fs : List Fragment) (ts : List Token) : Prop :=
  Pending.run .nothing ((lexemesOf n fs).flatMap chars) = some ts

theorem opensBlank_chars (n : Nat) {fs : List Fragment} (h : openBlank fs = true) :
    OpensBlank ((lexemesOf n fs).flatMap chars) := by
  cases hl : lexemesOf n fs with
  | nil =>
    intro c hc
    cases hc
  | cons l ls =>
    have hhead : l ∈ (lexemesOf n fs).head? := by rw [hl]; rfl
    intro c hc
    rcases head?_lexemesOf h hhead with rfl | rfl
    · cases hc
      exact .inl rfl
    · cases hc
      exact .inr rfl

namespace ReadAs

variable {n : Nat} {fs gs : List Fragment} {us : List Token}

theorem nil : ReadAs n [] [] := rfl

theorem append (hf : Neat n fs) (hg : ReadAs n gs us) (hblank : openBlank gs = true) :
    ReadAs n (fs ++ gs) (tokensOf fs ++ us) := by
  unfold ReadAs at hg ⊢
  rw [lexemesOf_append, List.flatMap_append,
    Lexeme.Spaced.run_append hf (opensBlank_chars n hblank), hg, filterMap_lexemesOf]
  rfl

theorem word (k : Keyword) (hg : ReadAs n gs us) (hblank : openBlank gs = true) :
    ReadAs n (.word k :: gs) (.word k :: us) :=
  append (Neat.word k (neat_nil n) rfl) hg hblank

theorem expr {e : Expr} (he : e.isWellNamed = true) (hg : ReadAs n gs us)
    (hblank : openBlank gs = true) : ReadAs n (e.layout 0 ++ gs) (tokensOf (e.layout 0) ++ us) := by
  have hneat := Neat.expr he (neat_nil n) rfl
  rw [List.append_nil] at hneat
  exact append hneat hg hblank

theorem exprs {es : List Expr} (hes : Expr.areWellNamed es = true) (hg : ReadAs n gs us)
    (hblank : openBlank gs = true) :
    ReadAs n (Expr.layoutList es ++ gs) (tokensOf (Expr.layoutList es) ++ us) := by
  have hneat := Neat.exprs hes (neat_nil n) rfl
  rw [List.append_nil] at hneat
  exact append hneat hg hblank

theorem name {x : Name} (hx : x.isProper = true) (hg : ReadAs n gs us)
    (hblank : openBlank gs = true) : ReadAs n (.name x :: gs) (.name x :: us) := by
  have hread := append (Neat.name hx (neat_nil n) rfl) hg hblank
  rw [tokensOf_proper hx] at hread
  exact hread

theorem assign (hg : ReadAs n gs us) : ReadAs n (.symbol .assign :: gs) (.sign .assign :: us) := by
  have hsign : Spaced [.blank ' ', .token (.sign .assign)] :=
    (Tidy.single rfl).spaced.cons_blank (.inl rfl)
  have hblank : OpensBlank (' ' :: (lexemesOf n gs).flatMap chars) := by
    rintro c ⟨⟩
    exact .inl rfl
  have hread := hsign.run_append hblank
  rw [Pending.run_nothing] at hread
  exact hread.trans (congrArg _ hg)

theorem space (hg : ReadAs n gs us) : ReadAs n (.space :: gs) us :=
  (Pending.run_nothing _ _).trans hg

theorem newline (hg : ReadAs n gs us) : ReadAs n (.newline :: gs) us :=
  (Pending.run_nothing _ _).trans hg

theorem indent (depth : Nat) (hg : ReadAs n gs us) : ReadAs n (.indent depth :: gs) us := by
  unfold ReadAs at hg ⊢
  rw [lexemesOf_cons, lexemes]
  induction depth * n with
  | zero => exact hg
  | succ k ih => exact (Pending.run_nothing _ _).trans ih

/-- The word `end` and the word after it are read as one name. -/
theorem fused {k : Keyword} (hk : Name.isProper ("end" ++ k.text) = true) (hg : ReadAs n gs us)
    (hblank : openBlank gs = true) :
    ReadAs n (.word .end :: .word k :: gs) (.name ("end" ++ k.text) :: us) := by
  have hname : (Token.name ("end" ++ k.text)).isProper = true := hk
  have hstop := (Token.name ("end" ++ k.text)).stops_before (opensBlank_chars n hblank)
  have hchars : (lexemesOf n (.word .end :: .word k :: gs)).flatMap chars =
      (Token.name ("end" ++ k.text)).spelling ++ (lexemesOf n gs).flatMap chars := by
    rw [Token.spelling, String.toList_append, List.append_assoc]
    rfl
  unfold ReadAs at hg ⊢
  rw [hchars, Token.run_spelling hname, Pending.run_finish (Token.finish_pending hname) hstop, hg]
  rfl

end ReadAs

end Fragment

open Fragment (ReadAs)

/-! ## Statements as they are read -/

mutual

def Stmt.isWellNamed : Stmt → Bool
  | .expr e => e.isWellNamed
  | .local d => d.names.all Name.isProper && Expr.areWellNamed d.values
  | .assign ts vs => Expr.areWellNamed ts && Expr.areWellNamed vs
  | .loop l => l.isWellNamed
  | .do b => b.isWellNamed
  | .if c t none => c.isWellNamed && t.isWellNamed
  | .if c t (some e) => c.isWellNamed && t.isWellNamed && e.isWellNamed
  | .break => true
  | .return vs => Expr.areWellNamed vs

def Block.isWellNamed : Block → Bool
  | ⟨_, ss⟩ => Stmt.areWellNamed ss

def Loop.isWellNamed : Loop → Bool
  | .while c b => c.isWellNamed && b.isWellNamed
  | .repeat b c => b.isWellNamed && c.isWellNamed
  | .forIn x s b => x.isProper && s.toExpr.isWellNamed && b.isWellNamed
  | .numericFor x i l s b =>
    x.isProper && Expr.areWellNamed (i :: l :: s.toList) && b.isWellNamed

def Stmt.areWellNamed : List Stmt → Bool
  | [] => true
  | s :: ss => s.isWellNamed && Stmt.areWellNamed ss

end

mutual

def Stmt.tokens : Stmt → List Token
  | .expr e => tokensOf (e.layout 0)
  | .local d => tokensOf d.layout
  | .assign ts vs => tokensOf (Expr.layoutList ts ++ .symbol .assign :: Expr.layoutList vs)
  | .loop l => l.tokens
  | .do b => b.tokens
  | .if c t none => .word .if :: tokensOf (c.layout 0) ++ .word .then :: t.tokensBefore .end
  | .if c t (some e) =>
    .word .if :: tokensOf (c.layout 0) ++ .word .then :: t.tokensBefore .else ++ e.tokensBefore .end
  | .break => [.word .break]
  | .return vs => .word .return :: tokensOf (Expr.layoutList vs)

/-- The tokens that a block is read as, in front of a blank. -/
def Block.tokens : Block → List Token
  | ⟨.bare, ss⟩ => Stmt.tokensAll ss
  | ⟨.doEnd, ss⟩ => .word .do :: Stmt.tokensAll ss ++ [.word .end]

/-- The tokens that a block and the word right after it are read as. The word `end` of a block with
delimiters runs into that word. -/
def Block.tokensBefore (k : Keyword) : Block → List Token
  | ⟨.bare, ss⟩ => Stmt.tokensAll ss ++ [.word k]
  | ⟨.doEnd, ss⟩ => .word .do :: Stmt.tokensAll ss ++ [.name ("end" ++ k.text)]

def Loop.tokens : Loop → List Token
  | .while c b => .word .while :: tokensOf (c.layout 0) ++ b.tokens
  | .repeat b c => .word .repeat :: b.tokens ++ .word .until :: tokensOf (c.layout 0)
  | .forIn x s b => .word .for :: .name x :: .word .in :: tokensOf s.layout ++ b.tokens
  | .numericFor x i l s b =>
    .word .for :: .name x :: .sign .assign :: tokensOf (Expr.layoutList (i :: l :: s.toList)) ++
      b.tokens

/-- The tokens that statements on lines of their own are read as. -/
def Stmt.tokensAll : List Stmt → List Token
  | [] => []
  | s :: ss => s.tokens ++ Stmt.tokensAll ss

end

mutual

theorem Stmt.layout_readAs (n : Nat) : (s : Stmt) → s.isWellNamed = true → WellFormed s.loops →
    (depth : Nat) → (fresh : Bool) → {gs : List Fragment} → {us : List Token} → ReadAs n gs us →
    Fragment.openBlank gs = true → ReadAs n (s.layout depth fresh ++ gs) (s.tokens ++ us)
  | .expr e, h, _, _, _, gs, us, hgs, hblank => .expr h hgs hblank
  | .local d, h, _, depth, fresh, gs, us, hgs, hblank => by
    have hneat := (Stmt.local d).layout_neat n h depth fresh (neat_nil n) rfl
    rw [List.append_nil] at hneat
    exact .append hneat hgs hblank
  | .assign ts vs, h, _, depth, fresh, gs, us, hgs, hblank => by
    have hneat := (Stmt.assign ts vs).layout_neat n h depth fresh (neat_nil n) rfl
    rw [List.append_nil] at hneat
    exact .append hneat hgs hblank
  | .loop l, h, hloops, depth, _, gs, us, hgs, hblank => by
    rw [Stmt.layout, Stmt.tokens]
    exact l.layout_readAs n h hloops depth hgs hblank
  | .do b, h, hloops, depth, fresh, gs, us, hgs, hblank => by
    rw [Stmt.layout, Stmt.tokens]
    exact b.layout_readAs n h hloops depth fresh hgs hblank
  | .if c t none, h, hloops, depth, _, gs, us, hgs, hblank => by
    obtain ⟨hc, ht⟩ := Bool.and_eq_true_iff.mp h
    have hthen := t.branch_readAs n ht hloops depth (k := .end) (by decide) hgs hblank
    have hrest := ReadAs.word .then hthen (t.openBlank_layout depth _)
    rw [Stmt.layout, Stmt.tokens]
    simp only [List.cons_append, List.append_assoc, List.nil_append]
    exact .word .if (.space (.expr hc hrest.space rfl)) rfl
  | .if c t (some e), h, hloops, depth, _, gs, us, hgs, hblank => by
    simp only [Stmt.isWellNamed, Bool.and_eq_true] at h
    obtain ⟨⟨hc, ht⟩, he⟩ := h
    obtain ⟨hloopst, hloopse⟩ := wellFormed_append.mp hloops
    have helse := e.branch_readAs n he hloopse depth (k := .end) (by decide) hgs hblank
    have hthen := t.branch_readAs n ht hloopst depth (k := .else) (by decide) helse
      (e.openBlank_layout depth _)
    have hrest := ReadAs.word .then hthen (t.openBlank_layout depth _)
    rw [Stmt.layout, Stmt.tokens]
    simp only [List.cons_append, List.append_assoc, List.nil_append]
    exact .word .if (.space (.expr hc hrest.space rfl)) rfl
  | .break, _, _, _, _, gs, us, hgs, hblank => .word .break hgs hblank
  | .return [], _, _, _, _, gs, us, hgs, hblank => .word .return hgs hblank
  | .return (v :: vs), h, _, _, _, gs, us, hgs, hblank =>
    .word .return (.space (.exprs h hgs hblank)) rfl

theorem Block.layout_readAs (n : Nat) : (b : Block) → b.isWellNamed = true → WellFormed b.loops →
    (depth : Nat) → (fresh : Bool) → {gs : List Fragment} → {us : List Token} → ReadAs n gs us →
    Fragment.openBlank gs = true → ReadAs n (b.layout depth fresh ++ gs) (b.tokens ++ us)
  | ⟨.bare, ss⟩, h, hloops, depth, fresh, gs, us, hgs, _ => by
    have hlines := Stmt.layoutLines_readAs n ss h hloops (depth + 1)
      (.newline (.indent depth hgs)) rfl
    rw [Block.layout, List.append_assoc]
    exact hlines
  | ⟨.doEnd, ss⟩, h, hloops, depth, fresh, gs, us, hgs, hblank => by
    have hend := ReadAs.newline (.indent depth (.word .end hgs hblank))
    have hlines := Stmt.layoutLines_readAs n ss h hloops (depth + 1) hend rfl
    have hdo := ReadAs.word .do hlines (Stmt.openBlank_layoutLines ss _ rfl)
    rw [Block.layout, Block.tokens, List.append_assoc, List.append_assoc, List.append_assoc]
    cases fresh with
    | true => exact hdo
    | false => exact hdo.space

theorem Block.branch_readAs (n : Nat) : (b : Block) → b.isWellNamed = true → WellFormed b.loops →
    (depth : Nat) → {k : Keyword} → Name.isProper ("end" ++ k.text) = true → {gs : List Fragment} →
    {us : List Token} → ReadAs n gs us → Fragment.openBlank gs = true →
    ReadAs n (b.layout depth false ++ .word k :: gs) (b.tokensBefore k ++ us)
  | ⟨.bare, ss⟩, h, hloops, depth, k, _, gs, us, hgs, hblank => by
    have hword := ReadAs.newline (.indent depth (.word k hgs hblank))
    have hlines := Stmt.layoutLines_readAs n ss h hloops (depth + 1) hword rfl
    rw [Block.layout, Block.tokensBefore, List.append_assoc, List.append_assoc, List.append_assoc]
    exact hlines
  | ⟨.doEnd, ss⟩, h, hloops, depth, k, hk, gs, us, hgs, hblank => by
    have hword := ReadAs.newline (.indent depth (.fused hk hgs hblank))
    have hlines := Stmt.layoutLines_readAs n ss h hloops (depth + 1) hword rfl
    have hdo := ReadAs.word .do hlines (Stmt.openBlank_layoutLines ss _ rfl)
    rw [Block.layout, Block.tokensBefore, List.append_assoc, List.append_assoc, List.append_assoc]
    exact hdo.space

theorem Loop.layout_readAs (n : Nat) : (l : Loop) → l.isWellNamed = true → WellFormed l.loops →
    (depth : Nat) → {gs : List Fragment} → {us : List Token} → ReadAs n gs us →
    Fragment.openBlank gs = true → ReadAs n (l.layout depth ++ gs) (l.tokens ++ us)
  | .while c b, h, hloops, depth, gs, us, hgs, hblank => by
    obtain ⟨hc, hb⟩ := Bool.and_eq_true_iff.mp h
    have hbody := b.layout_readAs n hb (wellFormed_cons.mp hloops).2 depth false hgs hblank
    rw [Loop.layout, Loop.tokens]
    simp only [List.cons_append, List.append_assoc]
    exact .word .while (.space (.expr hc hbody (b.openBlank_layout depth gs))) rfl
  | .repeat ⟨d, ss⟩ c, h, hloops, depth, gs, us, hgs, hblank => by
    obtain ⟨hb, hc⟩ := Bool.and_eq_true_iff.mp h
    obtain ⟨⟨-, hd⟩, hinner⟩ := wellFormed_cons.mp hloops
    -- the body of a `repeat` has no delimiters, so `until` stands alone
    obtain rfl : d = .bare := hd
    have huntil := ReadAs.word .until (.space (.expr hc hgs hblank)) rfl
    have hlines := Stmt.layoutLines_readAs n ss hb hinner (depth + 1)
      (.newline (.indent depth huntil)) rfl
    rw [Loop.layout, Loop.tokens, Block.layout, Block.tokens]
    simp only [List.cons_append, List.append_assoc]
    exact .word .repeat hlines (Stmt.openBlank_layoutLines ss _ rfl)
  | .forIn x s b, h, hloops, depth, gs, us, hgs, hblank => by
    simp only [Loop.isWellNamed, Bool.and_eq_true] at h
    obtain ⟨⟨hx, hs⟩, hb⟩ := h
    have hbody := b.layout_readAs n hb (wellFormed_cons.mp hloops).2 depth false hgs hblank
    have hsource := ReadAs.expr hs hbody (b.openBlank_layout depth gs)
    rw [Loop.layout, Loop.tokens, Call.layout]
    simp only [List.cons_append, List.append_assoc, List.nil_append]
    exact .word .for (.space (.name hx (.space (.word .in (.space hsource) rfl)) rfl)) rfl
  | .numericFor x i l s b, h, hloops, depth, gs, us, hgs, hblank => by
    simp only [Loop.isWellNamed, Bool.and_eq_true] at h
    obtain ⟨⟨hx, hclauses⟩, hb⟩ := h
    have hbody := b.layout_readAs n hb (wellFormed_cons.mp hloops).2 depth false hgs hblank
    have hheader := ReadAs.exprs hclauses hbody (b.openBlank_layout depth gs)
    have hloop := ReadAs.word .for (.space (.name hx (.assign hheader) rfl)) rfl
    unfold ReadAs at hloop ⊢
    rw [lexemesOf_append, Loop.lexemesOf_numericFor, ← lexemesOf_append, Loop.tokens]
    simpa only [List.cons_append, List.append_assoc] using hloop

theorem Stmt.layoutLines_readAs (n : Nat) : (ss : List Stmt) → Stmt.areWellNamed ss = true →
    WellFormed (Stmt.loopsAll ss) → (depth : Nat) → {gs : List Fragment} → {us : List Token} →
    ReadAs n gs us → Fragment.openBlank gs = true →
    ReadAs n (Stmt.layoutLines depth ss ++ gs) (Stmt.tokensAll ss ++ us)
  | [], _, _, _, _, _, hgs, _ => hgs
  | s :: ss, h, hloops, depth, gs, us, hgs, hblank => by
    obtain ⟨hs, hss⟩ := Bool.and_eq_true_iff.mp h
    obtain ⟨hfirst, hrest⟩ := wellFormed_append.mp hloops
    have hlines := Stmt.layoutLines_readAs n ss hss hrest depth hgs hblank
    have hline := s.layout_readAs n hs hfirst depth true hlines
      (Stmt.openBlank_layoutLines ss depth hblank)
    rw [Stmt.layoutLines, Stmt.tokensAll]
    simp only [List.cons_append, List.append_assoc]
    exact .newline (.indent depth hline)

end

/-- **A statement is read as its tokens,** whatever delimiters its branches and blocks have. -/
theorem Stmt.tokenize_text {s : Stmt} (h : s.isWellNamed = true) (hloops : WellFormed s.loops) :
    tokenize s.text = some s.tokens := by
  have hread := s.layout_readAs TextStyle.inline.indentSize h hloops 0 true .nil rfl
  have htext : s.text.toList =
      (lexemesOf TextStyle.inline.indentSize (s.layout 0 true ++ [])).flatMap chars :=
    Fragment.toList_textOf _ _
  rw [List.append_nil s.tokens] at hread
  rw [tokenize, htext]
  exact hread

end LoopLowering
