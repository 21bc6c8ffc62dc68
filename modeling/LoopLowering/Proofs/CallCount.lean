import LoopLowering.Proofs.StmtGrammar

/- Counting calls. An opening parenthesis is read as a call where something callable
   stands before it: a name, a closing parenthesis or a closing bracket, but not a
   name that is being declared. So the number of such parentheses can be counted on
   the tokens alone (`scan`). In statements that are derived from the tokens they are
   the calls of the statements and the places where a statement runs on into the next
   one (`StmtsDerive.scans`).

   Hence two trees of the same tokens with equally many calls have equally many
   statements that run on (`StmtsDerive.runOns_eq`). -/
namespace LoopLowering

/-! ## Calls of trees -/

mutual

def Expr.calls : Expr → Nat
  | .nil | .bool _ | .int _ | .str _ | .ident _ => 0
  | .member t _ => t.calls
  | .index t k => t.calls + k.calls
  | .call c as => c.calls + 1 + Expr.callsAll as
  | .binary _ l r => l.calls + r.calls
  | .unary _ e => e.calls
  | .paren e => e.calls
  | .table es => Expr.callsAll es

def Expr.callsAll : List Expr → Nat
  | [] => 0
  | e :: es => e.calls + Expr.callsAll es

end

mutual

def Stmt.calls : Stmt → Nat
  | .expr e => e.calls
  | .local d => Expr.callsAll d.values
  | .assign ts vs => Expr.callsAll ts + Expr.callsAll vs
  | .loop l => l.calls
  | .do b => b.calls
  | .if c t none => c.calls + t.calls
  | .if c t (some e) => c.calls + t.calls + e.calls
  | .break => 0
  | .return vs => Expr.callsAll vs

def Block.calls : Block → Nat
  | ⟨_, ss⟩ => Stmt.callsAll ss

def Loop.calls : Loop → Nat
  | .while c b => c.calls + b.calls
  | .repeat b c => b.calls + c.calls
  | .forIn _ s b => s.toExpr.calls + b.calls
  | .numericFor _ i l s b => Expr.callsAll (i :: l :: s.toList) + b.calls

def Stmt.callsAll : List Stmt → Nat
  | [] => 0
  | s :: ss => s.calls + Stmt.callsAll ss

end

/-! ## Calls of tokens -/

/-- What stands before a token: nothing that can be called, something that can, the beginning of a
list of names that are declared, or a name of such a list. -/
inductive Place where
  | plain
  | callable
  | names
  | named
  deriving DecidableEq

def Place.next : Place → Token → Place
  | _, .word .local => .names
  | .names, .name _ => .named
  | .named, .sign .comma => .names
  | _, .name _ | _, .sign .closeParen | _, .sign .closeBracket => .callable
  | _, _ => .plain

/-- Whether the token is read as the beginning of a call. -/
def Place.calls : Place → Token → Bool
  | .callable, .sign .openParen => true
  | _, _ => false

/-- How many of the tokens begin a call, and what stands after them. -/
def scan : Place → List Token → Nat × Place
  | p, [] => (0, p)
  | p, t :: ts => ((p.calls t).toNat + (scan (p.next t) ts).1, (scan (p.next t) ts).2)

theorem scan_append (p : Place) (ts us : List Token) :
    scan p (ts ++ us) = ((scan p ts).1 + (scan (scan p ts).2 us).1, (scan (scan p ts).2 us).2) := by
  induction ts generalizing p with
  | nil => simp [scan]
  | cons t ts ih => simp [scan, ih, Nat.add_assoc]

/-- Among the tokens `n` begin a call if they stand at the one place, and they lead to the other. -/
def Scans (p : Place) (ts : List Token) (n : Nat) (q : Place) : Prop :=
  scan p ts = (n, q)

namespace Scans

variable {p q r : Place} {ts us : List Token} {m n : Nat}

theorem append (h : Scans p ts m q) (h' : Scans q us n r) : Scans p (ts ++ us) (m + n) r := by
  unfold Scans at h h' ⊢
  rw [scan_append, h, h']

theorem cons {t : Token} (ht : p.calls t = false) (h : Scans (p.next t) ts n q) :
    Scans p (t :: ts) n q := by
  unfold Scans at h ⊢
  rw [scan, h, ht, Bool.toNat_false, Nat.zero_add]

/-- A word stands anywhere, and after it nothing can be called. -/
theorem word {k : Keyword} (hk : k ≠ .local) (h : Scans .plain ts n q) :
    Scans p (.word k :: ts) n q := by
  have hcalls : p.calls (.word k) = false := by cases p <;> rfl
  have hnext : p.next (.word k) = .plain := by
    cases k with
    | «local» => exact absurd rfl hk
    | _ => cases p <;> rfl
  exact .cons hcalls (hnext ▸ h)

theorem of_eq (h : Scans p ts m q) (hn : m = n) : Scans p ts n q := hn ▸ h

end Scans

/-- The place after an expression, which may or may not end in something that carries suffixes. -/
def Place.afterExpr (suffixable : Bool) : Place :=
  if suffixable then .callable else .plain

/-- The tokens have `n` calls, and one more where they stand after something callable if they begin
with a parenthesis. They are no list of declared names. -/
def ScansAs (ts : List Token) (n : Nat) (opensParen : Bool) (q : Place) : Prop :=
  ∀ p, p ≠ .names → Scans p ts (n + (p == .callable && opensParen).toNat) q

namespace ScansAs

variable {q r : Place} {ts us : List Token} {m n : Nat} {b : Bool}

theorem plain (h : ScansAs ts n b q) : Scans .plain ts n q :=
  h .plain (by decide)

theorem append (h : ScansAs ts m b q) (h' : Scans q us n r) : ScansAs (ts ++ us) (m + n) b r := by
  intro p hp
  exact ((h p hp).append h').of_eq (by omega)

theorem of_eq (h : ScansAs ts m b q) (hn : m = n) : ScansAs ts n b q := hn ▸ h

theorem of_scans (h : ∀ p, p ≠ .names → Scans p ts n q) : ScansAs ts n false q := by
  intro p hp
  rw [Bool.and_false]
  exact h p hp

theorem cons {t : Token} (hcalls : ∀ p : Place, p.calls t = false)
    (hnext : ∀ p : Place, p ≠ .names → p.next t = .plain) (h : Scans .plain ts n q) :
    ScansAs (t :: ts) n false q := by
  refine of_scans fun p hp => .cons (hcalls p) ?_
  rw [hnext p hp]
  exact h

theorem literal {t : Token} (hcalls : ∀ p : Place, p.calls t = false)
    (hnext : ∀ p : Place, p ≠ .names → p.next t = .plain) : ScansAs [t] 0 false .plain :=
  cons hcalls hnext rfl

theorem word {k : Keyword} (hk : k ≠ .local) (h : Scans .plain ts n q) :
    ScansAs (.word k :: ts) n false q :=
  of_scans fun _ _ => .word hk h

/-- A parenthesis begins a call after something callable, and only there. -/
theorem paren (h : Scans .plain ts n q) : ScansAs (.sign .openParen :: ts) n true q := by
  intro p _
  unfold Scans at h ⊢
  cases p <;> simp [scan, Place.next, Place.calls, h, Nat.add_comm]

end ScansAs

/-! ## Expressions -/

/-- How the tokens of an expression are scanned. -/
abbrev ExprScans (ts : List Token) (e : Expr) : Prop :=
  ScansAs ts e.calls e.opensParen (.afterExpr e.endsOpen)

/-- After an expression a sign other than a parenthesis begins no call, and what follows it is not
called. -/
theorem Scans.afterExpr {b : Bool} {s : Sign} (hcalls : Place.calls .callable (.sign s) = false)
    (hnext : Place.next .callable (.sign s) = .plain) (hplain : Place.next .plain (.sign s) = .plain)
    {ts : List Token} {n : Nat} {q : Place} (h : Scans .plain ts n q) :
    Scans (.afterExpr b) (.sign s :: ts) n q := by
  cases b with
  | false =>
    refine .cons rfl ?_
    rw [Place.afterExpr, if_neg Bool.false_ne_true, hplain]
    exact h
  | true =>
    refine .cons hcalls ?_
    rw [Place.afterExpr, if_pos rfl, hnext]
    exact h

theorem ListDerives.scans {item : List Token → Expr → Prop}
    (hitem : ∀ ts e, item ts e → ExprScans ts e) {ts : List Token} {es : List Expr}
    (h : ListDerives item ts es) :
    ScansAs ts (Expr.callsAll es) (es.head?.any Expr.opensParen) (.afterExpr (Expr.endOpen es)) := by
  induction h with
  | one h => exact hitem _ _ h
  | @more ts us e e' es h _ ih =>
    have hrest : Scans (.afterExpr e.endsOpen) (.sign .comma :: us) (Expr.callsAll (e' :: es)) _ :=
      .afterExpr rfl rfl rfl ih.plain
    exact (hitem _ _ h).append hrest

/-- Items between brackets: of whatever kind the brackets are, what is counted within them is the
calls of the items. -/
theorem scans_items {items : List (List Token × Expr)} (h : ∀ i ∈ items, ExprScans i.1 i.2)
    {close : Sign} {q : Place} (hclose : ∀ b, Scans (.afterExpr b) [.sign close] 0 q) :
    Scans .plain (commaTokens (items.map Prod.fst) ++ [.sign close])
      (Expr.callsAll (items.map Prod.snd)) q := by
  cases items with
  | nil => exact hclose false
  | cons i items =>
    have hlist := ListDerives.of_items (List.cons_ne_nil i items) h
    exact (hlist.scans fun _ _ h => h).plain.append (hclose _)

theorem BinaryOp.scans_token (op : BinaryOp) (b : Bool) {ts : List Token} {n : Nat} {q : Place}
    (h : Scans .plain ts n q) : Scans (.afterExpr b) (op.token :: ts) n q := by
  cases op <;> first | exact .word (by decide) h | exact .afterExpr rfl rfl rfl h

theorem ExprScans.binary (op : BinaryOp) {ts us : List Token} {l r : Expr} (hl : ExprScans ts l)
    (hr : ExprScans us r) : ExprScans (ts ++ op.token :: us) (.binary op l r) :=
  hl.append (op.scans_token _ hr.plain)

/-- The parentheses of an expression that are read as calls are its calls, and perhaps the one that
it begins with. -/
theorem Derives.scans {level : Nat} {ts : List Token} {e : Expr} (h : Derives level ts e) :
    ExprScans ts e := by
  have hparen (p : Place) : Scans p [.sign .closeParen] 0 .callable := by cases p <;> rfl
  have hbracket (p : Place) : Scans p [.sign .closeBracket] 0 .callable := by cases p <;> rfl
  induction h with
  | nil => exact .word (by decide) rfl
  | bool b => cases b <;> exact .word (by decide) rfl
  | int _ | str _ => exact .literal (by intro p; cases p <;> rfl) (by intro p _; cases p <;> rfl)
  | table _ ih =>
    have hbrace (b : Bool) : Scans (.afterExpr b) [.sign .closeBrace] 0 .plain := by cases b <;> rfl
    exact .cons (by intro p; cases p <;> rfl) (by intro p _; cases p <;> rfl) (scans_items ih hbrace)
  | ident x =>
    refine .of_scans fun p hp => ?_
    cases p with
    | names => exact absurd rfl hp
    | _ => rfl
  | @paren ts e _ ih =>
    have hinner : Scans .plain (ts ++ [.sign .closeParen]) e.calls .callable :=
      ih.plain.append (hparen _)
    exact .paren hinner
  | @member ts t h x ih =>
    rw [ExprScans, (h.suffixed (Nat.le_refl _)).1] at ih
    have hname : Scans .callable [.sign .dot, .name x] 0 .callable := rfl
    exact ih.append hname
  | @index ts us t k h _ ih ihk =>
    rw [ExprScans, (h.suffixed (Nat.le_refl _)).1] at ih
    have hkey : Scans .plain (us ++ [.sign .closeBracket]) k.calls .callable :=
      ihk.plain.append (hbracket _)
    exact ih.append (.cons rfl hkey)
  | @call ts c items h _ ih ihs =>
    rw [ExprScans, (h.suffixed (Nat.le_refl _)).1] at ih
    -- the parenthesis stands after what is called
    have hitems := ScansAs.paren (scans_items ihs fun _ => hparen _)
    refine (ih.append (hitems .callable (by decide))).of_eq ?_
    rw [Expr.calls, Nat.add_assoc, Nat.add_comm 1]
    rfl
  | @unary op ts e _ ih =>
    refine .cons ?_ ?_ ih.plain
    · intro p
      cases op <;> cases p <;> rfl
    · intro p _
      cases op <;> cases p <;> rfl
  | leftAssoc _ _ _ ihl ihr => exact .binary _ ihl ihr
  | rightAssoc _ _ _ ihl ihr => exact .binary _ ihl ihr
  | looser _ _ ih => exact ih

/-! ## Statements -/

def Stmt.place : Stmt → Place
  | .local ⟨_, []⟩ => .named
  | s => .afterExpr s.endsOpen

theorem Stmt.place_ne_names (s : Stmt) : s.place ≠ .names := by
  unfold Stmt.place
  split
  · decide
  · rw [Place.afterExpr]
    split <;> decide

/-- Another statement that follows is called where the statement runs on into it. -/
theorem Stmt.place_eq_callable (s : Stmt) : (s.place == .callable) = s.endsOpen := by
  unfold Stmt.place
  split
  · rfl
  · cases s.endsOpen <;> rfl

theorem ListDerives.scans_names {ts : List Token} {xs : List Name}
    (h : ListDerives NameDerives ts xs) : Scans .names ts 0 .named := by
  induction h with
  | one h =>
    rw [h]
    rfl
  | more h _ ih =>
    rw [h]
    exact .cons rfl (.cons rfl ih)

theorem ListDerives.scans_exprs {ts : List Token} {es : List Expr}
    (h : ListDerives (Derives 0) ts es) :
    Scans .plain ts (Expr.callsAll es) (.afterExpr (Expr.endOpen es)) :=
  (h.scans fun _ _ h => h.scans).plain

theorem Stmt.place_init {ts : List Token} {vs : List Expr} (h : ListDerives (Derives 0) ts vs)
    (xs : List Name) : (Stmt.local ⟨xs, vs⟩).place = .afterExpr (Expr.endOpen vs) := by
  cases h <;> rfl

theorem Scans.body {p q : Place} {k : Keyword} (hk : k ≠ .local) {ts : List Token} {n : Nat} {b : Bool}
    (h : Scans .plain ts (n + (Place.plain == .callable && b).toNat) q) :
    Scans p (.word k :: ts) n q :=
  .word hk h

theorem Scans.close {p q : Place} {k : Keyword} (hk : k ≠ .local) {ts : List Token} {n : Nat}
    (h : Scans p ts n q) : Scans p (ts ++ [.word k]) n .plain :=
  h.append (.word hk rfl)

mutual

/-- The parentheses of a statement that are read as calls are its calls, the places where statements
within it run on, and perhaps the one that it begins with. -/
theorem StmtDerives.scans {ts : List Token} {s : Stmt} (h : StmtDerives ts s) :
    ScansAs ts (s.calls + s.runOns) s.opensParen s.place := by
  match h with
  | .call h => exact h.scans
  | .declare h =>
    refine .of_scans fun p _ => .cons ?_ ?_
    · cases p <;> rfl
    · cases p <;> exact h.scans_names
  | .init hx hv =>
    have hvalues := Scans.cons (p := .named) (t := .sign .assign) rfl hv.scans_exprs
    have hinit := (hx.scans_names.append hvalues).of_eq (Nat.zero_add _)
    rw [← Stmt.place_init hv] at hinit
    refine .of_scans fun p _ => .cons ?_ ?_
    · cases p <;> rfl
    · cases p <;> exact hinit
  | .assign he hv =>
    have htargets := he.scans fun _ _ h => h.1.scans
    have hassign := htargets.append (.afterExpr (s := .assign) rfl rfl rfl hv.scans_exprs)
    cases he <;> exact hassign
  | .do h =>
    obtain ⟨q, hbody⟩ := h.scans .plain (by decide)
    exact .word (by decide) (.close (by decide) hbody)
  | .ifThen hc ht =>
    obtain ⟨q, hthen⟩ := ht.scans .plain (by decide)
    have hbranch := hc.scans.plain.append (.body (k := .then) (by decide) hthen)
    exact .word (by decide) ((hbranch.close (by decide)).of_eq (Nat.add_assoc _ _ _).symm)
  | @StmtDerives.ifElse _ _ _ c ss es hc ht he =>
    obtain ⟨q, hthen⟩ := ht.scans .plain (by decide)
    obtain ⟨r, helse⟩ := he.scans .plain (by decide)
    have hfirst := hc.scans.plain.append (.body (k := .then) (by decide) hthen)
    have hboth := hfirst.append (.body (k := .else) (by decide) helse)
    refine .word (by decide) ((hboth.close (by decide)).of_eq ?_)
    show _ = c.calls + Stmt.callsAll ss + Stmt.callsAll es + (Stmt.runOnsAll ss + Stmt.runOnsAll es)
    omega
  | .while hc hb =>
    obtain ⟨q, hbody⟩ := hb.scans .plain (by decide)
    have hloop := hc.scans.plain.append (.body (k := .do) (by decide) hbody)
    exact .word (by decide) ((hloop.close (by decide)).of_eq (Nat.add_assoc _ _ _).symm)
  | @StmtDerives.repeat _ _ c ss hb hc =>
    obtain ⟨q, hbody⟩ := hb.scans .plain (by decide)
    have hloop := hbody.append (.word (k := .until) (by decide) hc.scans.plain)
    refine .word (by decide) (hloop.of_eq ?_)
    show Stmt.callsAll ss + Stmt.runOnsAll ss + c.calls = Stmt.callsAll ss + c.calls + Stmt.runOnsAll ss
    omega
  | .forIn x hc hb =>
    obtain ⟨q, hbody⟩ := hb.scans .plain (by decide)
    have hloop := hc.scans.plain.append (.body (k := .do) (by decide) hbody)
    have hclosed := (hloop.close (k := .end) (by decide)).of_eq (Nat.add_assoc _ _ _).symm
    exact .word (by decide) (.cons (t := .name x) rfl (.word (by decide) hclosed))
  | .numericFor x hc hb =>
    obtain ⟨q, hbody⟩ := hb.scans .plain (by decide)
    have hloop := hc.scans_exprs.append (.body (k := .do) (by decide) hbody)
    have hclosed := (hloop.close (k := .end) (by decide)).of_eq (Nat.add_assoc _ _ _).symm
    exact .word (by decide) (.cons (t := .name x) rfl (.cons (t := .sign .assign) rfl hclosed))
  | .break => exact .word (by decide) rfl

theorem StmtsDerive.scans {ts : List Token} {ss : List Stmt} (h : StmtsDerive ts ss) (p : Place)
    (hp : p ≠ .names) :
    ∃ q, Scans p ts (Stmt.callsAll ss + Stmt.runOnsAll ss +
      (p == .callable && ss.head?.any Stmt.opensParen).toNat) q := by
  match h with
  | .nil => exact ⟨p, by rw [List.head?_nil, Option.any_none, Bool.and_false]; rfl⟩
  | @StmtsDerive.cons ts us s ss h hs =>
    -- the parenthesis that the rest may begin with counts exactly where the statement runs on
    obtain ⟨q, hrest⟩ := hs.scans s.place s.place_ne_names
    refine ⟨q, ((h.scans p hp).append hrest).of_eq ?_⟩
    rw [s.place_eq_callable]
    simp only [Stmt.callsAll, Stmt.runOnsAll, Stmt.runsInto, List.head?_cons, Option.any_some]
    omega
  | .leave => exact ⟨.plain, ScansAs.word (by decide) rfl p hp⟩
  | .yield h => exact ⟨_, ScansAs.word (by decide) h.scans_exprs p hp⟩

end

/-- **Run-ons are calls.** Two trees of the same tokens that have equally many calls have equally many
statements that run on into the next one. -/
theorem StmtsDerive.runOns_eq {ts : List Token} {ss ss' : List Stmt} (h : StmtsDerive ts ss)
    (h' : StmtsDerive ts ss') (hcalls : Stmt.callsAll ss = Stmt.callsAll ss') :
    Stmt.runOnsAll ss = Stmt.runOnsAll ss' := by
  obtain ⟨q, hscan⟩ := h.scans .plain (by decide)
  obtain ⟨q', hscan'⟩ := h'.scans .plain (by decide)
  have hcount := congrArg Prod.fst (hscan.symm.trans hscan')
  change Stmt.callsAll ss + Stmt.runOnsAll ss = Stmt.callsAll ss' + Stmt.runOnsAll ss' at hcount
  omega

end LoopLowering
