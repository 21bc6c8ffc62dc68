import LoopLowering.Proofs.StmtGrammar

/- Reading statements. `readStmt` reads a statement from the front of the tokens, and
   `readStmts` reads statements up to the end of their block. They take an expression
   as far as it goes, so a parenthesis after something callable is always read as a
   call, and they find every tree in which no statement runs on
   (`StmtsDerive.yields`). Hence there is at most one such tree
   (`StmtsDerive.unique`).

   A bound on the depth and on the lengths of lists makes the readers total. What is
   read does not depend on it once it is large enough (`Yields`). -/
namespace LoopLowering

/-! ## The reader -/

def readName : List Token → Option (Name × List Token)
  | .name x :: ts => some (x, ts)
  | _ => none

def readExpr (ts : List Token) : Option (Expr × List Token) :=
  Reader.run (.operand []) ts

/-- Reads up to the given token, and the token as well. -/
def readUpTo {α : Type} (read : List Token → Option (α × List Token)) (mark : Token)
    (ts : List Token) : Option (α × List Token) := do
  let (a, rest) ← read ts
  match rest with
  | t :: rest => if t = mark then some (a, rest) else none
  | [] => none

/-- Reads items as long as commas stand between them, at most as many as the bound says. -/
def readList {α : Type} (read : List Token → Option (α × List Token)) :
    Nat → List Token → Option (List α × List Token)
  | 0, _ => none
  | n + 1, ts => do
    let (a, rest) ← read ts
    match rest with
    | .sign .comma :: us => do
      let (as, rest) ← readList read n us
      return (a :: as, rest)
    | rest => return ([a], rest)

/-- Reads what follows the names of a declaration. -/
def readDeclared (n : Nat) (xs : List Name) : List Token → Option (Stmt × List Token)
  | .sign .assign :: ts => do
    let (vs, ts) ← readList readExpr n ts
    return (.local ⟨xs, vs⟩, ts)
  | ts => some (.local ⟨xs, []⟩, ts)

/-- Reads what follows the expressions at the beginning of a statement. -/
def readAssigned (n : Nat) (es : List Expr) : List Token → Option (Stmt × List Token)
  | .sign .assign :: ts => do
    let (vs, ts) ← readList readExpr n ts
    return (.assign es vs, ts)
  | ts => do
    let e ← es.head?
    return (.expr e, ts)

/-- Reads what follows the first branch of an `if`, given how statements are read. -/
def readBranch (read : List Token → Option (List Stmt × List Token)) (c : Expr) (ss : List Stmt) :
    List Token → Option (Stmt × List Token)
  | .word .else :: ts => do
    let (es, ts) ← readUpTo read (.word .end) ts
    return (.if c (.bare ss) (some (.bare es)), ts)
  | .word .end :: ts => some (.if c (.bare ss) none, ts)
  | _ => none

mutual

/-- Reads a statement; the bound limits the depth of statements and the length of lists. -/
def readStmt : Nat → List Token → Option (Stmt × List Token)
  | 0, _ => none
  | n + 1, .word .local :: ts => do
    let (xs, ts) ← readList readName n ts
    readDeclared n xs ts
  | n + 1, .word .do :: ts => do
    let (ss, ts) ← readUpTo (readStmts n) (.word .end) ts
    return (.do (.doEnd ss), ts)
  | n + 1, .word .if :: ts => do
    let (c, ts) ← readUpTo readExpr (.word .then) ts
    let (ss, ts) ← readStmts n ts
    readBranch (readStmts n) c ss ts
  | n + 1, .word .while :: ts => do
    let (c, ts) ← readUpTo readExpr (.word .do) ts
    let (ss, ts) ← readUpTo (readStmts n) (.word .end) ts
    return (.loop (.while c (.doEnd ss)), ts)
  | n + 1, .word .repeat :: ts => do
    let (ss, ts) ← readUpTo (readStmts n) (.word .until) ts
    let (c, ts) ← readExpr ts
    return (.loop (.repeat (.bare ss) c), ts)
  | n + 1, .word .for :: .name x :: .word .in :: ts => do
    let (e, ts) ← readUpTo readExpr (.word .do) ts
    let source ← e.call?
    let (ss, ts) ← readUpTo (readStmts n) (.word .end) ts
    return (.loop (.forIn x source (.doEnd ss)), ts)
  | n + 1, .word .for :: .name x :: .sign .assign :: ts => do
    let (cs, ts) ← readUpTo (readList readExpr n) (.word .do) ts
    let i ← cs.head?
    let l ← cs.tail.head?
    let (ss, ts) ← readUpTo (readStmts n) (.word .end) ts
    return (.loop (.numericFor x i l cs.tail.tail.head? (.doEnd ss)), ts)
  | _ + 1, .word .break :: ts => some (.break, ts)
  | n + 1, ts => do
    let (es, ts) ← readList readExpr n ts
    readAssigned n es ts

def readStmts : Nat → List Token → Option (List Stmt × List Token)
  | 0, _ => none
  | _ + 1, [] => some ([], [])
  | n + 1, .word .return :: ts =>
    if ts.head?.all Token.endsBlock then some ([.return []], ts)
    else do
      let (vs, ts) ← readList readExpr n ts
      return ([.return vs], ts)
  | n + 1, t :: ts =>
    if t.endsBlock then some ([], t :: ts)
    else do
      let (s, ts) ← readStmt n (t :: ts)
      let (ss, ts) ← readStmts n ts
      return (s :: ss, ts)

end

/-! ## What is derived is read -/

/-- With every bound that is large enough, the tokens are read with the given result. -/
def Yields {α : Type} (read : Nat → List Token → Option α) (ts : List Token) (a : α) : Prop :=
  ∃ k, ∀ n, k ≤ n → read n ts = some a

section

variable {α β : Type} {read : Nat → List Token → Option α} {ts : List Token} {a : α}

theorem Yields.of_succ (k : Nat) (h : ∀ n, k ≤ n → read (n + 1) ts = some a) :
    Yields read ts a := by
  refine ⟨k + 1, fun n hn => ?_⟩
  cases n with
  | zero => omega
  | succ n => exact h n (by omega)

theorem Yields.both {read' : Nat → List Token → Option β} {ts' : List Token} {b : β}
    (h : Yields read ts a) (h' : Yields read' ts' b) :
    ∃ k, ∀ n, k ≤ n → read n ts = some a ∧ read' n ts' = some b := by
  obtain ⟨k, hk⟩ := h
  obtain ⟨k', hk'⟩ := h'
  exact ⟨max k k', fun n hn => ⟨hk n (by omega), hk' n (by omega)⟩⟩

theorem Yields.unique {b : α} (h : Yields read ts a) (h' : Yields read ts b) : a = b := by
  obtain ⟨k, hk⟩ := h.both h'
  obtain ⟨ha, hb⟩ := hk k (Nat.le_refl k)
  exact Option.some.inj (ha.symm.trans hb)

end

theorem ListDerives.mono {α : Type} {item item' : List Token → α → Prop} {ts : List Token}
    {as : List α} (h : ListDerives item ts as) (himp : ∀ ts a, item ts a → item' ts a) :
    ListDerives item' ts as := by
  induction h with
  | one h => exact .one (himp _ _ h)
  | more h _ ih => exact .more (himp _ _ h) ih

/-- A list is read if its items are, each up to the comma or the tokens that follow the list. -/
theorem ListDerives.yields {α : Type} {item : List Token → α → Prop}
    {read : List Token → Option (α × List Token)} (stops : α → List Token → Prop)
    (hread : ∀ {ts a} rest, item ts a → stops a rest → read (ts ++ rest) = some (a, rest))
    (hcomma : ∀ a us, stops a (.sign .comma :: us)) {ts : List Token} {as : List α}
    (h : ListDerives item ts as) {rest : List Token} (hlast : ∀ a ∈ as.getLast?, stops a rest)
    (hrest : rest.head? ≠ some (.sign .comma)) :
    Yields (readList read) (ts ++ rest) (as, rest) := by
  induction h with
  | @one ts a h =>
    refine .of_succ 0 fun n _ => ?_
    have hitem := hread rest h (hlast a rfl)
    simp only [readList, hitem, Option.bind_eq_bind, Option.bind_some]
    split
    · exact absurd rfl hrest
    · rfl
  | @more ts us a b as h _ ih =>
    obtain ⟨k, hk⟩ := ih (by rwa [List.getLast?_cons_cons] at hlast)
    refine .of_succ k fun n hn => ?_
    have hitem := hread (.sign .comma :: (us ++ rest)) h (hcomma a _)
    rw [List.append_assoc, List.cons_append]
    simp only [readList, hitem, hk n hn, Option.bind_eq_bind, Option.bind_some]
    rfl

theorem readExpr_of_derives {level : Nat} {ts rest : List Token} {e : Expr} (h : Derives level ts e)
    (hrest : Follows 0 e.endsOpen rest) : readExpr (ts ++ rest) = some (e, rest) :=
  h.run_eq hrest

theorem ListDerives.yields_exprs {ts : List Token} {es : List Expr}
    (h : ListDerives (Derives 0) ts es) (rest : List Token) (hlast : Follows 0 (Expr.endOpen es) rest)
    (hrest : rest.head? ≠ some (.sign .comma)) :
    Yields (readList readExpr) (ts ++ rest) (es, rest) := by
  refine h.yields (fun e rest => Follows 0 e.endsOpen rest) ?_ ?_ ?_ hrest
  · exact fun rest he hfollow => readExpr_of_derives he hfollow
  · exact fun e us => follows_mark 0 us (fun _ => rfl) rfl
  · intro e he
    rw [Expr.endOpen, he] at hlast
    exact hlast

theorem ListDerives.yields_names {ts : List Token} {xs : List Name}
    (h : ListDerives NameDerives ts xs) (rest : List Token)
    (hrest : rest.head? ≠ some (.sign .comma)) :
    Yields (readList readName) (ts ++ rest) (xs, rest) := by
  refine h.yields (fun _ _ => True) ?_ (fun _ _ => trivial) (fun _ _ => trivial) hrest
  rintro _ x rest rfl _
  rfl

theorem readUpTo_of_read {α : Type} {read : List Token → Option (α × List Token)} {mark : Token}
    {ts rest : List Token} {a : α} (h : read ts = some (a, mark :: rest)) :
    readUpTo read mark ts = some (a, rest) := by
  simp [readUpTo, h]

/-- What begins with something that carries suffixes is not read as another kind of statement. -/
theorem readStmt_of_suffixed {ts : List Token} {e : Expr} (h : Derives suffixLevel ts e) (n : Nat)
    (rest : List Token) :
    readStmt (n + 1) (ts ++ rest) =
      (readList readExpr n (ts ++ rest)).bind fun r => readAssigned n r.1 r.2 := by
  obtain ⟨-, t, us, rfl, ⟨⟨x, rfl⟩, -⟩ | ⟨rfl, -⟩⟩ := h.suffixed (Nat.le_refl _)
  · simp [readStmt]
  · simp [readStmt]

theorem readAssigned_of_head (n : Nat) (e : Expr) {rest : List Token}
    (h : rest.head? ≠ some (.sign .assign)) : readAssigned n [e] rest = some (.expr e, rest) := by
  unfold readAssigned
  split
  · exact absurd rfl h
  · rfl

theorem readDeclared_of_head (n : Nat) (xs : List Name) {rest : List Token}
    (h : rest.head? ≠ some (.sign .assign)) :
    readDeclared n xs rest = some (.local ⟨xs, []⟩, rest) := by
  unfold readDeclared
  split
  · exact absurd rfl h
  · rfl

theorem ListDerives.first_target {ts : List Token} {es : List Expr}
    (h : ListDerives TargetDerives ts es) :
    ∃ us vs e, ts = us ++ vs ∧ Derives suffixLevel us e := by
  cases h with
  | one h => exact ⟨_, [], _, (List.append_nil _).symm, h.1⟩
  | more h _ => exact ⟨_, _, _, rfl, h.1⟩

theorem follows_word {k : Keyword} (h : (Token.word k).binaryOp? = none) (b : Bool)
    (rest : List Token) : Follows 0 b (.word k :: rest) :=
  follows_mark 0 rest (fun _ => rfl) h

mutual

/-- A statement within which none runs on is read as its tree, up to tokens that may follow it. -/
theorem StmtDerives.yields {ts : List Token} {s : Stmt} (h : StmtDerives ts s) (hs : s.runOns = 0)
    {rest : List Token} (hrest : Bounds s.endsOpen rest) :
    Yields readStmt (ts ++ rest) (s, rest) := by
  match h with
  | .call h =>
    have hlist := ListDerives.one (h.looser (Nat.zero_le _))
    obtain ⟨k, hk⟩ := hlist.yields_exprs rest hrest.follows (hrest.head_ne rfl)
    refine .of_succ k fun n hn => ?_
    -- no comma and no assignment follows, so the expression is all of the statement
    rw [readStmt_of_suffixed h, hk n hn, Option.bind_some]
    exact readAssigned_of_head n _ (hrest.head_ne rfl)
  | .declare h =>
    obtain ⟨k, hk⟩ := h.yields_names rest (hrest.head_ne rfl)
    refine .of_succ k fun n hn => ?_
    simp only [List.cons_append, readStmt, hk n hn, Option.bind_eq_bind, Option.bind_some]
    exact readDeclared_of_head n _ (hrest.head_ne rfl)
  | @StmtDerives.init ts us xs vs hx hv =>
    have hnames := hx.yields_names (.sign .assign :: (us ++ rest)) (by simp)
    have hvalues := hv.yields_exprs rest hrest.follows (hrest.head_ne rfl)
    obtain ⟨k, hk⟩ := hnames.both hvalues
    refine .of_succ k fun n hn => ?_
    obtain ⟨hnames, hvalues⟩ := hk n hn
    simp [readStmt, readDeclared, hnames, hvalues]
  | @StmtDerives.assign ts us es vs he hv =>
    have hmono := he.mono fun _ _ h => h.1.looser (Nat.zero_le _)
    have htargets := hmono.yields_exprs (.sign .assign :: (us ++ rest))
      (follows_mark 0 _ (fun _ => rfl) rfl) (by simp)
    have hvalues := hv.yields_exprs rest hrest.follows (hrest.head_ne rfl)
    obtain ⟨k, hk⟩ := htargets.both hvalues
    obtain ⟨ts', vs', e, rfl, hfirst⟩ := he.first_target
    refine .of_succ k fun n hn => ?_
    obtain ⟨htargets, hvalues⟩ := hk n hn
    simp only [List.append_assoc, List.cons_append] at htargets ⊢
    rw [readStmt_of_suffixed hfirst, htargets]
    simp [readAssigned, hvalues]
  | .do h =>
    obtain ⟨k, hk⟩ := h.yields hs (closes_cons (t := .word .end) rfl rest)
    refine .of_succ k fun n hn => ?_
    simp [readStmt, readUpTo_of_read (hk n hn)]
  | @StmtDerives.ifThen cs ts c ss hc ht =>
    have hcond := readExpr_of_derives hc (follows_word (k := .then) rfl _ (ts ++ .word .end :: rest))
    obtain ⟨k, hk⟩ := ht.yields hs (closes_cons (t := .word .end) rfl rest)
    refine .of_succ k fun n hn => ?_
    simp [readStmt, readUpTo_of_read hcond, hk n hn, readBranch]
  | @StmtDerives.ifElse cs ts us c ss es hc ht he =>
    obtain ⟨hthen, helse⟩ := Nat.add_eq_zero_iff.mp hs
    have hcond := readExpr_of_derives hc
      (follows_word (k := .then) rfl _ (ts ++ .word .else :: (us ++ .word .end :: rest)))
    have hfirst := ht.yields hthen (closes_cons (t := .word .else) rfl (us ++ .word .end :: rest))
    obtain ⟨k, hk⟩ := hfirst.both (he.yields helse (closes_cons (t := .word .end) rfl rest))
    refine .of_succ k fun n hn => ?_
    obtain ⟨hfirst, hsecond⟩ := hk n hn
    simp [readStmt, readUpTo_of_read hcond, hfirst, readBranch, readUpTo_of_read hsecond]
  | @StmtDerives.while cs ts c ss hc hb =>
    have hcond := readExpr_of_derives hc (follows_word (k := .do) rfl _ (ts ++ .word .end :: rest))
    obtain ⟨k, hk⟩ := hb.yields hs (closes_cons (t := .word .end) rfl rest)
    refine .of_succ k fun n hn => ?_
    simp [readStmt, readUpTo_of_read hcond, readUpTo_of_read (hk n hn)]
  | @StmtDerives.repeat cs ts c ss hb hc =>
    have hcond := readExpr_of_derives hc hrest.follows
    obtain ⟨k, hk⟩ := hb.yields hs (closes_cons (t := .word .until) rfl (cs ++ rest))
    refine .of_succ k fun n hn => ?_
    simp [readStmt, hcond, readUpTo_of_read (hk n hn)]
  | @StmtDerives.forIn x cs ts c as ss hc hb =>
    have hsource := readExpr_of_derives hc (follows_word (k := .do) rfl _ (ts ++ .word .end :: rest))
    obtain ⟨k, hk⟩ := hb.yields hs (closes_cons (t := .word .end) rfl rest)
    refine .of_succ k fun n hn => ?_
    simp [readStmt, readUpTo_of_read hsource, readUpTo_of_read (hk n hn), Expr.call?]
  | @StmtDerives.numericFor x cs ts i l step ss hc hb =>
    have hclauses := hc.yields_exprs (.word .do :: (ts ++ .word .end :: rest))
      (follows_word rfl _ _) (by simp)
    obtain ⟨k, hk⟩ := hclauses.both (hb.yields hs (closes_cons (t := .word .end) rfl rest))
    refine .of_succ k fun n hn => ?_
    obtain ⟨hclauses, hbody⟩ := hk n hn
    cases step <;> simp [readStmt, readUpTo_of_read hclauses, readUpTo_of_read hbody]
  | .break => exact .of_succ 0 fun n _ => by simp [readStmt]

theorem StmtsDerive.yields {ts : List Token} {ss : List Stmt} (h : StmtsDerive ts ss)
    (hs : Stmt.runOnsAll ss = 0) {rest : List Token} (hrest : Closes rest) :
    Yields readStmts (ts ++ rest) (ss, rest) := by
  match h with
  | .nil =>
    refine .of_succ 0 fun n _ => ?_
    cases rest with
    | nil => simp [readStmts]
    | cons t rest =>
      have ht : t.endsBlock = true := hrest t rfl
      have hne : t ≠ .word .return := by rintro rfl; cases ht
      simp [readStmts, ht]
  | .cons h hss =>
    simp only [Stmt.runOnsAll, Nat.add_eq_zero_iff, Bool.toNat_eq_zero] at hs
    obtain ⟨⟨hwithin, hnext⟩, hafter⟩ := hs
    -- the statement does not run on, so it is read up to where the next one begins
    obtain ⟨k, hk⟩ := (h.yields hwithin (hss.bounds hnext hrest)).both (hss.yields hafter hrest)
    obtain ⟨t, us, rfl, ht, -⟩ := h.head
    have hblock := Token.endsBlock_of_beginsStmt ht
    have hne : t ≠ .word .return := by rintro rfl; cases ht
    refine .of_succ k fun n hn => ?_
    obtain ⟨hfirst, hothers⟩ := hk n hn
    simp only [List.cons_append, List.append_assoc] at hfirst hothers ⊢
    simp [readStmts, hblock, hfirst, hothers]
  | .leave =>
    refine .of_succ 0 fun n _ => ?_
    have hall : rest.head?.all Token.endsBlock = true := by
      cases rest with
      | nil => rfl
      | cons t rest => exact hrest t rfl
    simp only [List.cons_append, List.nil_append, readStmts, hall, if_true]
  | @StmtsDerive.yield us vs h =>
    have hbounds := hrest.bounds (Expr.endOpen vs)
    obtain ⟨k, hk⟩ := h.yields_exprs rest hbounds.follows (hbounds.head_ne rfl)
    obtain ⟨t, ts, rfl, ht⟩ := h.head
    refine .of_succ k fun n hn => ?_
    have hvalues := hk n hn
    simp only [List.cons_append] at hvalues ⊢
    simp [readStmts, ht, hvalues]

end

/-- **What the target language reads is determined.** Among the trees of tokens, at most one has no
statements that run on. -/
theorem StmtsDerive.unique {ts : List Token} {ss ss' : List Stmt} (h : StmtsDerive ts ss)
    (hs : Stmt.runOnsAll ss = 0) (h' : StmtsDerive ts ss') (hs' : Stmt.runOnsAll ss' = 0) :
    ss = ss' := by
  have hyields := h.yields hs closes_nil
  have hyields' := h'.yields hs' closes_nil
  exact congrArg Prod.fst (hyields.unique hyields')

end LoopLowering
