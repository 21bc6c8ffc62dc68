import LoopLowering.Proofs.Grammar

/- Reading expressions back. The text of an expression is read as the tree that
   `Expr.written` gives: the expression with the parentheses that the text has, each
   dotted path as a chain of members and each negative literal as an application of
   the minus sign. Without its parentheses it is the expression that was written
   (`Expr.erase_written`).

   The layout of an expression is derivable with that tree (`Expr.layout_derives`),
   and the grammar is unambiguous, so no other tree can be read from the text. -/
namespace LoopLowering

/-! ## What is read -/

/-- A dotted path as a chain of members. -/
def pathTree : List Name → Expr
  | [] => .nil
  | x :: xs => xs.foldl Expr.member (.ident x)

/-- An integer as it is read: a negative one is an application of the minus sign, and the least one
is a path. -/
def integerTree (n : Int64) : Expr :=
  if n = Int64.minValue then pathTree ["math", "mininteger"]
  else if n < 0 then .unary .neg (.int (-n))
  else .int n

mutual

/-- The expression with its integers and dotted paths as they are read. -/
def Expr.spelled : Expr → Expr
  | .nil => .nil
  | .bool b => .bool b
  | .int n => integerTree n
  | .str s => .str s
  | .ident x => pathTree x.parts
  | .member t x => .member t.spelled x
  | .index t k => .index t.spelled k.spelled
  | .call c as => .call c.spelled (Expr.spelledAll as)
  | .binary op l r => .binary op l.spelled r.spelled
  | .unary op e => .unary op e.spelled
  | .paren e => .paren e.spelled
  | .table es => .table (Expr.spelledAll es)

def Expr.spelledAll : List Expr → List Expr
  | [] => []
  | e :: es => e.spelled :: Expr.spelledAll es

end

mutual

def Expr.erase : Expr → Expr
  | .nil => .nil
  | .bool b => .bool b
  | .int n => .int n
  | .str s => .str s
  | .ident x => .ident x
  | .member t x => .member t.erase x
  | .index t k => .index t.erase k.erase
  | .call c as => .call c.erase (Expr.eraseAll as)
  | .binary op l r => .binary op l.erase r.erase
  | .unary op e => .unary op e.erase
  | .paren e => e.erase
  | .table es => .table (Expr.eraseAll es)

def Expr.eraseAll : List Expr → List Expr
  | [] => []
  | e :: es => e.erase :: Expr.eraseAll es

end

def Expr.parenIf (wrap : Bool) (e : Expr) : Expr :=
  if wrap then .paren e else e

mutual

/-- The tree of an expression as it is written in a place that asks for the level. -/
def Expr.written (level : Nat) : Expr → Expr
  | .nil => .nil
  | .bool b => .bool b
  | .int n =>
    .parenIf ((Expr.int n).leadsWithMinus && decide (UnaryOp.precedence < level)) (integerTree n)
  | .str s => .str s
  | .ident x => pathTree x.parts
  | .member t x => .member (.parenIf (!t.takesSuffix) (t.written 0)) x
  | .index t k => .index (.parenIf (!t.takesSuffix) (t.written 0)) (k.written 0)
  | .call c as => .call (.parenIf (!c.takesSuffix) (c.written 0)) (Expr.writtenAll as)
  | .binary op l r =>
    .parenIf (decide (op.precedence < level))
      (.binary op (l.written op.leftLevel) (r.written op.rightLevel))
  | .unary op e =>
    .parenIf (decide (UnaryOp.precedence < level)) (.unary op (e.written UnaryOp.precedence))
  | .paren e => .paren (e.written 0)
  | .table es => .table (Expr.writtenAll es)

def Expr.writtenAll : List Expr → List Expr
  | [] => []
  | e :: es => e.written 0 :: Expr.writtenAll es

end

theorem Expr.erase_parenIf (wrap : Bool) (e : Expr) : (Expr.parenIf wrap e).erase = e.erase := by
  cases wrap <;> rfl

mutual

/-- But for parentheses, what is written is the expression. -/
theorem Expr.erase_written : (e : Expr) → (level : Nat) → (e.written level).erase = e.spelled.erase
  | .nil, _ => rfl
  | .bool _, _ => rfl
  | .int _, _ => Expr.erase_parenIf _ _
  | .str _, _ => rfl
  | .ident _, _ => rfl
  | .member t x, _ => by
    rw [Expr.written, Expr.erase, Expr.erase_parenIf, t.erase_written, Expr.spelled, Expr.erase]
  | .index t k, _ => by
    rw [Expr.written, Expr.erase, Expr.erase_parenIf, t.erase_written, k.erase_written,
      Expr.spelled, Expr.erase]
  | .call c as, _ => by
    rw [Expr.written, Expr.erase, Expr.erase_parenIf, c.erase_written, Expr.eraseAll_writtenAll as,
      Expr.spelled, Expr.erase]
  | .binary op l r, _ => by
    rw [Expr.written, Expr.erase_parenIf, Expr.erase, l.erase_written, r.erase_written,
      Expr.spelled, Expr.erase]
  | .unary op e, _ => by
    rw [Expr.written, Expr.erase_parenIf, Expr.erase, e.erase_written, Expr.spelled, Expr.erase]
  | .paren e, _ => by
    rw [Expr.written, Expr.erase, e.erase_written, Expr.spelled, Expr.erase]
  | .table es, _ => by
    rw [Expr.written, Expr.erase, Expr.eraseAll_writtenAll es, Expr.spelled, Expr.erase]

theorem Expr.eraseAll_writtenAll : (es : List Expr) →
    Expr.eraseAll (Expr.writtenAll es) = Expr.eraseAll (Expr.spelledAll es)
  | [] => rfl
  | e :: es => by
    rw [Expr.writtenAll, Expr.eraseAll, e.erase_written, Expr.eraseAll_writtenAll es,
      Expr.spelledAll, Expr.eraseAll]

end

/-! ## Layouts are derivable -/

namespace Fragment

theorem tokensOf_append (fs gs : List Fragment) :
    tokensOf (fs ++ gs) = tokensOf fs ++ tokensOf gs := by
  rw [tokensOf, lexemesOf_append, List.filterMap_append]
  rfl

theorem tokensOf_cons (f : Fragment) (fs : List Fragment) :
    tokensOf (f :: fs) = tokensOf [f] ++ tokensOf fs :=
  tokensOf_append [f] fs

theorem tokensOf_parenthesised (fs : List Fragment) :
    tokensOf (parenthesised fs) =
      .sign .openParen :: tokensOf fs ++ [.sign .closeParen] := by
  rw [parenthesised, tokensOf_append, tokensOf_cons]
  rfl

end Fragment

open Fragment (tokensOf tokensOf_append tokensOf_cons tokensOf_parenthesised)

theorem Derives.members {ts : List Token} {t : Expr} (h : Derives suffixLevel ts t)
    (xs : List Name) :
    Derives suffixLevel (ts ++ xs.flatMap fun x => [.sign .dot, .name x])
      (xs.foldl Expr.member t) := by
  induction xs generalizing ts t with
  | nil => exact (List.append_nil ts).symm ▸ h
  | cons x xs ih =>
    rw [List.flatMap_cons, ← List.append_assoc]
    exact ih (h.member x)

theorem filterMap_pathLexemes (x : Name) (xs : List Name) :
    (pathLexemes (x :: xs)).filterMap Lexeme.token? =
      [.name x] ++ xs.flatMap fun y => [.sign .dot, .name y] := by
  rw [pathLexemes, List.filterMap_cons, List.filterMap_flatMap]
  rfl

theorem derives_path {xs : List Name} (h : xs ≠ []) :
    Derives suffixLevel ((pathLexemes xs).filterMap Lexeme.token?) (pathTree xs) := by
  cases xs with
  | nil => exact absurd rfl h
  | cons x xs =>
    rw [filterMap_pathLexemes]
    exact (Derives.ident x).members xs

theorem tokensOf_name (x : Name) :
    tokensOf [.name x] = (pathLexemes x.parts).filterMap Lexeme.token? := by
  rw [tokensOf, Fragment.lexemesOf_cons]
  exact congrArg _ (List.append_nil _)

/-- The absolute value of an integer is a numeral, unless the integer is the least one. -/
theorem natAbs_lt {n : Int64} (h : n ≠ Int64.minValue) :
    n.toInt.natAbs < 0x8000000000000000 := by
  have hle := Int64.le_toInt n
  have hlt := Int64.toInt_lt n
  have hne : n.toInt ≠ -0x8000000000000000 := by
    intro heq
    exact h (Int64.toInt_inj.mp (heq.trans Int64.toInt_minValue.symm))
  omega

theorem ofNat_natAbs_of_nonneg {n : Int64} (h : 0 ≤ n.toInt) : Int64.ofNat n.toInt.natAbs = n := by
  rw [← Int64.ofInt_eq_ofNat, Int.natAbs_of_nonneg h, Int64.ofInt_toInt]

theorem ofNat_natAbs_of_neg {n : Int64} (h : n.toInt < 0) : Int64.ofNat n.toInt.natAbs = -n := by
  rw [← Int64.ofInt_eq_ofNat, Int.ofNat_natAbs_of_nonpos (Int.le_of_lt h), Int64.ofInt_neg,
    Int64.ofInt_toInt]

/-- A pair of parentheses, where the layout has one, makes an expression that carries suffixes. -/
theorem derives_parenthesisedIf {wrap : Bool} {level outer : Nat} {fs : List Fragment} {e : Expr}
    (h : Derives level (tokensOf fs) e) (hwrap : wrap = true → outer ≤ suffixLevel)
    (hplain : wrap = false → outer ≤ level) :
    Derives outer (tokensOf (parenthesisedIf wrap fs)) (.parenIf wrap e) := by
  cases wrap with
  | false => exact h.looser (hplain rfl)
  | true =>
    have hparen := (h.looser (Nat.zero_le level)).paren.looser (hwrap rfl)
    rw [← tokensOf_parenthesised] at hparen
    exact hparen

/-- An integer is derived as it is read, with parentheses around a minus sign at a high level. -/
theorem derives_integer (n : Int64) {level : Nat} (hlevel : level ≤ simpleLevel) :
    Derives level (tokensOf ((Expr.int n).layout level)) ((Expr.int n).written level) := by
  have htokens : tokensOf [.integer n] = (integerLexemes n).filterMap Lexeme.token? :=
    congrArg _ (List.append_nil _)
  rw [Expr.layout, Expr.written]
  by_cases hmin : n = Int64.minValue
  · have hminus : (Expr.int n).leadsWithMinus = false := by rw [hmin]; rfl
    have htree : Derives suffixLevel (tokensOf [.integer n]) (integerTree n) := by
      rw [htokens, integerLexemes, integerTree, if_pos hmin, if_pos hmin]
      exact derives_path (List.cons_ne_nil _ _)
    rw [hminus, Bool.false_and]
    exact htree.looser (hlevel.trans (by decide))
  -- a numeral is never negative, and its tree has the integer without its sign
  by_cases hneg : n < 0
  · have hminus : (Expr.int n).leadsWithMinus = true := by
      rw [Expr.leadsWithMinus, decide_eq_true hneg, bne_iff_ne.mpr hmin]
      rfl
    have htree : Derives UnaryOp.precedence (tokensOf [.integer n]) (integerTree n) := by
      rw [htokens, integerLexemes, integerTree, if_neg hmin, if_neg hmin, if_pos hneg, if_pos hneg,
        ← ofNat_natAbs_of_neg (Int64.lt_iff_toInt_lt.mp hneg)]
      exact .unary .neg ((Derives.int (natAbs_lt hmin)).looser (by decide))
    rw [hminus, Bool.true_and]
    exact derives_parenthesisedIf htree (fun _ => hlevel.trans (by decide))
      fun hplain => Nat.not_lt.mp (of_decide_eq_false hplain)
  · have hminus : (Expr.int n).leadsWithMinus = false := by
      rw [Expr.leadsWithMinus, decide_eq_false hneg]
      rfl
    have hnonneg : 0 ≤ n.toInt := Int.not_lt.mp fun h => hneg (Int64.lt_iff_toInt_lt.mpr h)
    have htree : Derives simpleLevel (tokensOf [.integer n]) (integerTree n) := by
      have hint := Derives.int (natAbs_lt hmin)
      rw [ofNat_natAbs_of_nonneg hnonneg] at hint
      rw [htokens, integerLexemes, integerTree, if_neg hmin, if_neg hmin, if_neg hneg, if_neg hneg]
      exact hint
    rw [hminus, Bool.false_and]
    exact htree.looser hlevel

/-- The items of a list with their trees. -/
def readItems (es : List Expr) : List (List Token × Expr) :=
  es.map fun e => (tokensOf (e.layout 0), e.written 0)

theorem map_fst_readItems (es : List Expr) :
    commaTokens ((readItems es).map Prod.fst) = tokensOf (commaSeparated (Expr.layouts es)) := by
  match es with
  | [] => rfl
  | [e] => rfl
  | e :: e' :: es =>
    have htail := map_fst_readItems (e' :: es)
    show tokensOf (e.layout 0) ++ .sign .comma :: commaTokens ((readItems (e' :: es)).map Prod.fst) =
      tokensOf (e.layout 0 ++ .symbol .comma :: .space :: commaSeparated (Expr.layouts (e' :: es)))
    rw [htail, tokensOf_append, tokensOf_cons, tokensOf_cons .space]
    rfl

theorem map_snd_readItems (es : List Expr) :
    (readItems es).map Prod.snd = Expr.writtenAll es := by
  induction es with
  | nil => rfl
  | cons e es ih => exact congrArg (e.written 0 :: ·) ih

theorem derives_target {t : Expr}
    (h : Derives (if t.takesSuffix then suffixLevel else 0) (tokensOf (t.layout 0)) (t.written 0)) :
    Derives suffixLevel (tokensOf (parenthesisedIf (!t.takesSuffix) (t.layout 0)))
      (.parenIf (!t.takesSuffix) (t.written 0)) := by
  refine derives_parenthesisedIf h (fun _ => Nat.le_refl _) fun hplain => ?_
  have hsuffix : t.takesSuffix = true := by simpa using hplain
  rw [if_pos hsuffix]

theorem Derives.atLevel {suffixable : Bool} {level : Nat} {ts : List Token} {e : Expr}
    (h : Derives (if suffixable then suffixLevel else level) ts e) (hlevel : level ≤ simpleLevel) :
    Derives level ts e := by
  cases suffixable with
  | false => exact h
  | true => exact h.looser (hlevel.trans (show simpleLevel ≤ suffixLevel by decide))

theorem Derives.binary (op : BinaryOp) {ts us : List Token} {l r : Expr}
    (hl : Derives op.leftLevel ts l) (hr : Derives op.rightLevel us r) :
    Derives op.precedence (ts ++ op.token :: us) (.binary op l r) := by
  cases hop : op.isRightAssoc with
  | false =>
    rw [BinaryOp.leftLevel, hop] at hl
    rw [BinaryOp.rightLevel, hop] at hr
    exact .leftAssoc hop hl hr
  | true =>
    rw [BinaryOp.leftLevel, hop] at hl
    rw [BinaryOp.rightLevel, hop] at hr
    exact .rightAssoc hop hl hr

theorem BinaryOp.leftLevel_le (op : BinaryOp) : op.leftLevel ≤ simpleLevel := by
  cases op <;> decide

theorem BinaryOp.rightLevel_le (op : BinaryOp) : op.rightLevel ≤ simpleLevel := by
  cases op <;> decide

mutual

/-- The layout of an expression is derivable at its level, with the tree that is written; if the
expression takes suffixes, it is derivable as one that carries them. -/
theorem Expr.layout_derives : (e : Expr) → e.isWellNamed = true → (level : Nat) →
    level ≤ simpleLevel →
    Derives (if e.takesSuffix then suffixLevel else level) (tokensOf (e.layout level))
      (e.written level)
  | .nil, _, _, hlevel => Derives.nil.looser hlevel
  | .bool b, _, _, hlevel => (Derives.bool b).looser hlevel
  | .int n, _, _, hlevel => derives_integer n hlevel
  | .str s, _, _, hlevel => (Derives.str s).looser hlevel
  | .ident x, _, _, _ => by
    rw [Expr.layout, Expr.written, tokensOf_name]
    exact derives_path x.parts_ne_nil
  | .member t x, h, _, _ => by
    obtain ⟨ht, hx⟩ := Bool.and_eq_true_iff.mp h
    have htarget := derives_target (t.layout_derives ht 0 (Nat.zero_le _))
    rw [Expr.layout, Expr.written, tokensOf_append, tokensOf_cons, tokensOf_name,
      Name.parts_of_isProper hx]
    exact htarget.member x
  | .index t k, h, _, _ => by
    obtain ⟨ht, hk⟩ := Bool.and_eq_true_iff.mp h
    have htarget := derives_target (t.layout_derives ht 0 (Nat.zero_le _))
    have hkey := (k.layout_derives hk 0 (Nat.zero_le _)).looser (Nat.zero_le _)
    rw [Expr.layout, Expr.written, List.append_assoc, tokensOf_append, tokensOf_append,
      tokensOf_cons]
    exact htarget.index hkey
  | .call c as, h, _, _ => by
    obtain ⟨hc, has⟩ := Bool.and_eq_true_iff.mp h
    have htarget := derives_target (c.layout_derives hc 0 (Nat.zero_le _))
    have hcall := htarget.call (Expr.layouts_derive as has)
    rw [map_fst_readItems, map_snd_readItems] at hcall
    rw [Expr.layout, Expr.written, tokensOf_append, tokensOf_parenthesised]
    exact hcall
  | .binary op l r, h, level, hlevel => by
    obtain ⟨hl, hr⟩ := Bool.and_eq_true_iff.mp h
    have hleft := (l.layout_derives hl op.leftLevel op.leftLevel_le).atLevel op.leftLevel_le
    have hright := (r.layout_derives hr op.rightLevel op.rightLevel_le).atLevel op.rightLevel_le
    have htokens : tokensOf
        (l.layout op.leftLevel ++ [.space, .binaryOp op, .space] ++ r.layout op.rightLevel) =
        tokensOf (l.layout op.leftLevel) ++ op.token :: tokensOf (r.layout op.rightLevel) := by
      rw [tokensOf_append, tokensOf_append, List.append_assoc]
      rfl
    have hbinary := Derives.binary op hleft hright
    rw [← htokens] at hbinary
    rw [Expr.layout, Expr.written]
    exact derives_parenthesisedIf hbinary (fun _ => hlevel.trans (by decide))
      fun hplain => Nat.not_lt.mp (of_decide_eq_false hplain)
  | .unary op e, h, level, hlevel => by
    have hoperand := (e.layout_derives h UnaryOp.precedence (by decide)).atLevel (by decide)
    have htokens : tokensOf (.unaryOp op ::
        (if op == .not || e.leadsWithMinus then [.space] else []) ++
          e.layout UnaryOp.precedence) = op.token :: tokensOf (e.layout UnaryOp.precedence) := by
      rw [tokensOf_append]
      cases op == .not || e.leadsWithMinus <;> rfl
    have hunary := Derives.unary op hoperand
    rw [← htokens] at hunary
    rw [Expr.layout, Expr.written]
    exact derives_parenthesisedIf hunary (fun _ => hlevel.trans (by decide))
      fun hplain => Nat.not_lt.mp (of_decide_eq_false hplain)
  | .paren e, h, _, _ => by
    have hinner := (e.layout_derives h 0 (Nat.zero_le _)).looser (Nat.zero_le _)
    rw [Expr.layout, Expr.written, tokensOf_parenthesised]
    exact hinner.paren
  | .table es, h, _, hlevel => by
    have htable := Derives.table (Expr.layouts_derive es h)
    rw [map_fst_readItems, map_snd_readItems] at htable
    rw [Expr.layout, Expr.written, tokensOf_append, tokensOf_cons]
    exact htable.looser hlevel

theorem Expr.layouts_derive : (es : List Expr) → Expr.areWellNamed es = true →
    ∀ i ∈ readItems es, Derives 0 i.1 i.2
  | [], _ => fun _ h => by cases h
  | e :: es, h => by
    obtain ⟨he, hes⟩ := Bool.and_eq_true_iff.mp h
    have hfirst := (e.layout_derives he 0 (Nat.zero_le _)).looser (Nat.zero_le _)
    exact List.forall_mem_cons.mpr ⟨hfirst, Expr.layouts_derive es hes⟩

end

/-- **Rendering an expression loses no structure.** The text of an expression whose names are proper
is a sequence of tokens that the grammar accepts as a whole, with one tree only, and but for
parentheses that tree is the expression, its negative literals read as applications of the minus
sign, the least integer as `math.mininteger` and its dotted paths as chains of members. -/
theorem text_read_back (e : Expr) (h : e.isWellNamed = true) :
    ∃ ts t, tokenize e.text = some ts ∧ Derives 0 ts t ∧ (∀ t', Derives 0 ts t' → t' = t) ∧
      t.erase = e.spelled.erase := by
  have hderives := (e.layout_derives h 0 (Nat.zero_le _)).atLevel (Nat.zero_le _)
  exact ⟨_, _, e.tokenize_text h, hderives, fun _ h' => h'.unique hderives, e.erase_written 0⟩

/-- An expression that needs parentheses and blanks of every kind: a power of a negative literal under
a minus sign, powers and concatenations that group against their direction, a suffix on a string, two
minus signs in a row, the least integer and a dotted path. -/
def knot : Expr :=
  .binary .concat
    (.binary .concat
      (.unary .neg (.binary .pow (.int (-2)) (.unary .not (.ident "net.each"))))
      (.binary .pow (.binary .pow (.int Int64.minValue) (.int 3)) (.ident "x")))
    (.call (.member (.str "a\"b\\") "len")
      [.unary .neg (.unary .neg (.int (-7))), .paren (.index (.table []) (.int 0)),
        .binary .sub (.int 1) (.binary .sub (.int 2) (.int (-3)))])

theorem text_read_back_knot :
    knot.isWellNamed = true ∧
    ∃ ts t, tokenize knot.text = some ts ∧ Derives 0 ts t ∧ (∀ t', Derives 0 ts t' → t' = t) ∧
      t.erase = knot.spelled.erase :=
  ⟨by decide, text_read_back knot (by decide)⟩

end LoopLowering
