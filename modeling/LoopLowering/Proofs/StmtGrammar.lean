import LoopLowering.Proofs.Grammar
import LoopLowering.Stmt

/- The grammar of statements. `StmtDerives ts s` says that the tokens `ts` are a
   statement and that `s` is its tree, and `StmtsDerive ts ss` says the same of the
   statements of a block. Nothing stands between two statements, so a statement that
   ends in something callable and one that begins with a parenthesis can be read as
   one call. The target language always reads them so: of the trees that can be
   derived it takes the one without such neighbours (`Stmt.runOnsAll`).

   Unless a statement runs on, the tokens after it do not go on with it
   (`StmtsDerive.bounds`). -/
namespace LoopLowering

/-! ## The grammar -/

/-- The tokens are one or more items with commas between them. -/
inductive ListDerives {α : Type} (item : List Token → α → Prop) : List Token → List α → Prop
  | one {ts : List Token} {a : α} (h : item ts a) : ListDerives item ts [a]
  | more {ts us : List Token} {a b : α} {as : List α} (h : item ts a)
      (hs : ListDerives item us (b :: as)) :
      ListDerives item (ts ++ .sign .comma :: us) (a :: b :: as)

theorem ListDerives.of_items {α : Type} {item : List Token → α → Prop}
    {items : List (List Token × α)} (hne : items ≠ []) (h : ∀ i ∈ items, item i.1 i.2) :
    ListDerives item (commaTokens (items.map Prod.fst)) (items.map Prod.snd) := by
  induction items with
  | nil => exact absurd rfl hne
  | cons i items ih =>
    obtain ⟨hi, hitems⟩ := List.forall_mem_cons.mp h
    cases items with
    | nil => exact .one hi
    | cons j items => exact .more hi (ih (List.cons_ne_nil j items) hitems)

/-- Whether something may be assigned to the expression. -/
def Expr.isTarget : Expr → Bool
  | .ident _ | .member .. | .index .. => true
  | _ => false

def NameDerives (ts : List Token) (x : Name) : Prop :=
  ts = [.name x]

def TargetDerives (ts : List Token) (e : Expr) : Prop :=
  Derives suffixLevel ts e ∧ e.isTarget = true

mutual

/-- The tokens are a statement, with the given tree. -/
inductive StmtDerives : List Token → Stmt → Prop
  | call {ts : List Token} {c : Expr} {as : List Expr} (h : Derives suffixLevel ts (.call c as)) :
      StmtDerives ts (.expr (.call c as))
  | declare {ts : List Token} {xs : List Name} (h : ListDerives NameDerives ts xs) :
      StmtDerives (.word .local :: ts) (.local ⟨xs, []⟩)
  | init {ts us : List Token} {xs : List Name} {vs : List Expr} (hx : ListDerives NameDerives ts xs)
      (hv : ListDerives (Derives 0) us vs) :
      StmtDerives (.word .local :: ts ++ .sign .assign :: us) (.local ⟨xs, vs⟩)
  | assign {ts us : List Token} {es vs : List Expr} (he : ListDerives TargetDerives ts es)
      (hv : ListDerives (Derives 0) us vs) :
      StmtDerives (ts ++ .sign .assign :: us) (.assign es vs)
  | «do» {ts : List Token} {ss : List Stmt} (h : StmtsDerive ts ss) :
      StmtDerives (.word .do :: ts ++ [.word .end]) (.do (.doEnd ss))
  | ifThen {cs ts : List Token} {c : Expr} {ss : List Stmt} (hc : Derives 0 cs c)
      (ht : StmtsDerive ts ss) :
      StmtDerives (.word .if :: cs ++ .word .then :: ts ++ [.word .end]) (.if c (.bare ss) none)
  | ifElse {cs ts us : List Token} {c : Expr} {ss es : List Stmt} (hc : Derives 0 cs c)
      (ht : StmtsDerive ts ss) (he : StmtsDerive us es) :
      StmtDerives (.word .if :: cs ++ .word .then :: ts ++ .word .else :: us ++ [.word .end])
        (.if c (.bare ss) (some (.bare es)))
  | «while» {cs ts : List Token} {c : Expr} {ss : List Stmt} (hc : Derives 0 cs c)
      (hb : StmtsDerive ts ss) :
      StmtDerives (.word .while :: cs ++ .word .do :: ts ++ [.word .end]) (.loop (.while c (.doEnd ss)))
  | «repeat» {cs ts : List Token} {c : Expr} {ss : List Stmt} (hb : StmtsDerive ts ss)
      (hc : Derives 0 cs c) :
      StmtDerives (.word .repeat :: ts ++ .word .until :: cs) (.loop (.repeat (.bare ss) c))
  | forIn (x : Name) {cs ts : List Token} {c : Expr} {as : List Expr} {ss : List Stmt}
      (hc : Derives 0 cs (.call c as)) (hb : StmtsDerive ts ss) :
      StmtDerives (.word .for :: .name x :: .word .in :: cs ++ .word .do :: ts ++ [.word .end])
        (.loop (.forIn x ⟨c, as⟩ (.doEnd ss)))
  | numericFor (x : Name) {cs ts : List Token} {i l : Expr} {step : Option Expr} {ss : List Stmt}
      (hc : ListDerives (Derives 0) cs (i :: l :: step.toList)) (hb : StmtsDerive ts ss) :
      StmtDerives (.word .for :: .name x :: .sign .assign :: cs ++ .word .do :: ts ++ [.word .end])
        (.loop (.numericFor x i l step (.doEnd ss)))
  | «break» : StmtDerives [.word .break] .break

/-- The tokens are the statements of a block, with the given trees. Only the last one may be a
`return`. -/
inductive StmtsDerive : List Token → List Stmt → Prop
  | nil : StmtsDerive [] []
  | cons {ts us : List Token} {s : Stmt} {ss : List Stmt} (h : StmtDerives ts s)
      (hs : StmtsDerive us ss) : StmtsDerive (ts ++ us) (s :: ss)
  | leave : StmtsDerive [.word .return] [.return []]
  | yield {ts : List Token} {vs : List Expr} (h : ListDerives (Derives 0) ts vs) :
      StmtsDerive (.word .return :: ts) [.return vs]

end

/-! ## Statements that run on -/

/-- Whether the text of the expression begins with a parenthesis. -/
def Expr.opensParen : Expr → Bool
  | .paren _ => true
  | .member t _ | .index t _ | .call t _ | .binary _ t _ => t.opensParen
  | _ => false

/-- Whether the last one of the expressions ends in something that carries suffixes. -/
def Expr.endOpen (es : List Expr) : Bool :=
  es.getLast?.any Expr.endsOpen

def Stmt.endsOpen : Stmt → Bool
  | .expr e => e.endsOpen
  | .local d => Expr.endOpen d.values
  | .assign _ vs => Expr.endOpen vs
  | .loop (.repeat _ c) => c.endsOpen
  | _ => false

def Stmt.opensParen : Stmt → Bool
  | .expr e => e.opensParen
  | .assign (t :: _) _ => t.opensParen
  | _ => false

/-- Whether the statement runs on into the first one of those that follow: it ends in something that
carries suffixes, and there a parenthesis is read as a call. -/
def Stmt.runsInto (s : Stmt) (ss : List Stmt) : Bool :=
  s.endsOpen && ss.head?.any Stmt.opensParen

mutual

/-- How many of the statements within the statement run on into the next one. -/
def Stmt.runOns : Stmt → Nat
  | .expr _ | .local _ | .assign _ _ | .break | .return _ => 0
  | .loop l => l.runOns
  | .do b => b.runOns
  | .if _ t none => t.runOns
  | .if _ t (some e) => t.runOns + e.runOns

def Block.runOns : Block → Nat
  | ⟨_, ss⟩ => Stmt.runOnsAll ss

def Loop.runOns : Loop → Nat
  | .while _ b => b.runOns
  | .repeat b _ => b.runOns
  | .forIn _ _ b => b.runOns
  | .numericFor _ _ _ _ b => b.runOns

/-- How many of the statements, and of those within them, run on into the next one. -/
def Stmt.runOnsAll : List Stmt → Nat
  | [] => 0
  | s :: ss => s.runOns + (s.runsInto ss).toNat + Stmt.runOnsAll ss

end

/-! ## What may follow a statement -/

def Token.endsBlock (t : Token) : Bool :=
  t ∈ [.word .end, .word .else, .word .until]

def Token.beginsStmt : Token → Bool
  | .name _ | .sign .openParen => true
  | .word k => k ∈ [.local, .do, .if, .while, .repeat, .for, .break]
  | _ => false

/-- Whether the token may follow a statement: another one begins with it, or the block ends. -/
def Token.isBoundary (t : Token) : Bool :=
  t.beginsStmt || t == .word .return || t.endsBlock

/-- Tokens that may follow a statement, which may or may not end in something that carries suffixes. -/
structure Bounds (suffixable : Bool) (rest : List Token) : Prop where
  boundary : ∀ t ∈ rest.head?, t.isBoundary = true
  noCall : suffixable = true → rest.head? ≠ some (.sign .openParen)

/-- Tokens that may follow a block. -/
def Closes (rest : List Token) : Prop :=
  ∀ t ∈ rest.head?, t.endsBlock = true

theorem Token.binaryOp?_of_isBoundary {t : Token} (h : t.isBoundary = true) : t.binaryOp? = none := by
  cases hop : t.binaryOp? with
  | none => rfl
  | some op =>
    rw [Token.eq_of_binaryOp? hop] at h
    cases op <;> cases h

theorem Token.eq_openParen_of_isBoundary {t : Token} (h : t.isBoundary = true)
    (hs : t.opensSuffix = true) : t = .sign .openParen := by
  unfold Token.opensSuffix at hs
  split at hs
  · cases h
  · cases h
  · rfl
  · cases hs

theorem Bounds.follows {b : Bool} {rest : List Token} (h : Bounds b rest) : Follows 0 b rest := by
  cases rest with
  | nil => exact follows_nil 0 b
  | cons t rest =>
    have ht := h.boundary t rfl
    refine follows_mark 0 rest (fun hb => ?_) (Token.binaryOp?_of_isBoundary ht)
    refine Bool.eq_false_iff.mpr fun hs => h.noCall hb ?_
    exact congrArg some (Token.eq_openParen_of_isBoundary ht hs)

/-- What goes on with a statement does not follow one. -/
theorem Bounds.head_ne {b : Bool} {rest : List Token} (h : Bounds b rest) {t : Token}
    (ht : t.isBoundary = false) : rest.head? ≠ some t := by
  intro hhead
  have htrue := h.boundary t hhead
  rw [ht] at htrue
  cases htrue

theorem Closes.bounds {rest : List Token} (h : Closes rest) (b : Bool) : Bounds b rest where
  boundary t ht := by
    rw [Token.isBoundary, h t ht, Bool.or_true]
  noCall _ hhead := by
    cases h _ hhead

theorem closes_nil : Closes [] := by
  rintro _ ⟨⟩

theorem closes_cons {t : Token} (h : t.endsBlock = true) (rest : List Token) : Closes (t :: rest) := by
  rintro _ ⟨⟩
  exact h

/-- What carries suffixes begins with a name or a parenthesis, and it can be called. -/
theorem Derives.suffixed {level : Nat} {ts : List Token} {e : Expr} (h : Derives level ts e)
    (hlevel : suffixLevel ≤ level) :
    e.endsOpen = true ∧ ∃ t us, ts = t :: us ∧
      ((∃ x, t = .name x) ∧ e.opensParen = false ∨ t = .sign .openParen ∧ e.opensParen = true) := by
  induction h with
  | nil | bool _ | int _ | str _ | table _ _ | unary _ _ _ => exact absurd hlevel (by decide)
  | ident x => exact ⟨rfl, _, _, rfl, .inl ⟨⟨x, rfl⟩, rfl⟩⟩
  | paren _ _ => exact ⟨rfl, _, _, rfl, .inr ⟨rfl, rfl⟩⟩
  | member _ _ ih | index _ _ ih _ | call _ _ ih _ =>
    obtain ⟨-, t, us, rfl, ht⟩ := ih hlevel
    exact ⟨rfl, t, _, rfl, ht⟩
  | @leftAssoc op _ _ _ _ _ _ _ _ _ => exact absurd hlevel (by cases op <;> decide)
  | @rightAssoc op _ _ _ _ _ _ _ _ _ => exact absurd hlevel (by cases op <;> decide)
  | looser _ hle ih => exact ih (hlevel.trans hle)

/-- What a statement begins with, and when it is a parenthesis. -/
theorem StmtDerives.head {ts : List Token} {s : Stmt} (h : StmtDerives ts s) :
    ∃ t us, ts = t :: us ∧ t.beginsStmt = true ∧ (t = .sign .openParen → s.opensParen = true) := by
  -- a call and an assignment begin with what carries suffixes, all others with a word
  have hsuffixed {ts : List Token} {e : Expr} (he : Derives suffixLevel ts e) (us : List Token) :
      ∃ t us', ts ++ us = t :: us' ∧ t.beginsStmt = true ∧
        (t = .sign .openParen → e.opensParen = true) := by
    obtain ⟨-, t, us', rfl, ⟨⟨x, rfl⟩, -⟩ | ⟨rfl, hparen⟩⟩ := he.suffixed (Nat.le_refl _)
    · exact ⟨_, _, rfl, rfl, fun h => by cases h⟩
    · exact ⟨_, _, rfl, rfl, fun _ => hparen⟩
  cases h with
  | call he =>
    have hhead := hsuffixed he []
    rw [List.append_nil] at hhead
    exact hhead
  | assign he hv =>
    cases he with
    | one ht => exact hsuffixed ht.1 _
    | more ht _ =>
      rw [List.append_assoc]
      exact hsuffixed ht.1 _
  | _ => exact ⟨_, _, rfl, rfl, fun h => by cases h⟩

/-- No expression begins with a token that ends a block. -/
theorem Derives.head {level : Nat} {ts : List Token} {e : Expr} (h : Derives level ts e) :
    ∃ t us, ts = t :: us ∧ t.endsBlock = false := by
  induction h with
  | nil | int _ | str _ | table _ _ | ident _ | paren _ _ => exact ⟨_, _, rfl, rfl⟩
  | bool b => cases b <;> exact ⟨_, _, rfl, rfl⟩
  | unary op _ _ => cases op <;> exact ⟨_, _, rfl, rfl⟩
  | member _ _ ih | index _ _ ih _ | call _ _ ih _ | leftAssoc _ _ _ ih _ | rightAssoc _ _ _ ih _ =>
    obtain ⟨t, us, rfl, ht⟩ := ih
    exact ⟨t, _, rfl, ht⟩
  | looser _ _ ih => exact ih

theorem ListDerives.head {ts : List Token} {es : List Expr} (h : ListDerives (Derives 0) ts es) :
    ∃ t us, ts = t :: us ∧ t.endsBlock = false := by
  cases h with
  | one h => exact h.head
  | more h _ =>
    obtain ⟨t, us, rfl, ht⟩ := h.head
    exact ⟨t, _, rfl, ht⟩

theorem Token.isBoundary_of_beginsStmt {t : Token} (h : t.beginsStmt = true) :
    t.isBoundary = true := by
  rw [Token.isBoundary, h, Bool.true_or, Bool.true_or]

theorem Token.endsBlock_of_beginsStmt {t : Token} (h : t.beginsStmt = true) :
    t.endsBlock = false := by
  unfold Token.beginsStmt at h
  split at h
  · rfl
  · rfl
  · next k => cases k <;> first | rfl | cases h
  · cases h

/-- Between a statement and those that follow it nothing goes on with it, unless it runs on. -/
theorem StmtsDerive.bounds {us : List Token} {ss : List Stmt} (h : StmtsDerive us ss) {s : Stmt}
    (hs : s.runsInto ss = false) {rest : List Token} (hrest : Closes rest) :
    Bounds s.endsOpen (us ++ rest) := by
  cases h with
  | nil => exact hrest.bounds _
  | cons h _ =>
    obtain ⟨t, vs, rfl, ht, hparen⟩ := h.head
    constructor
    · rintro _ ⟨⟩
      exact Token.isBoundary_of_beginsStmt ht
    · intro hopen hhead
      rw [Stmt.runsInto, hopen, List.head?_cons, Option.any_some,
        hparen (Option.some.inj hhead)] at hs
      cases hs
  | leave | yield _ =>
    constructor
    · rintro _ ⟨⟩
      rfl
    · rintro _ ⟨⟩

end LoopLowering
