import LoopLowering.Proofs.Spelling

/- The grammar of expressions. `Derives level ts e` says that the tokens `ts` are an
   expression of the level and that `e` is its tree. Operators have the levels of
   their precedence; above them stand the expressions without operators
   (`simpleLevel`) and among these the ones that carry suffixes (`suffixLevel`).
   Parentheses are nodes of the tree.

   The grammar is unambiguous (`Derives.unique`). `Reader` reads tokens one by one;
   it keeps the unfinished expressions on a stack and closes an operator when the
   next one binds less tightly. It stops at the first token that does not belong to
   the expression, and it finds every tree that can be derived (`Derives.run_eq`). -/
namespace LoopLowering

/-! ## The grammar -/

/-- The level of expressions without operators. -/
abbrev simpleLevel : Nat := 9

/-- The level of names and parenthesised expressions, with or without suffixes. -/
abbrev suffixLevel : Nat := 10

/-- The tokens of items with commas between them. -/
def commaTokens : List (List Token) → List Token
  | [] => []
  | [ts] => ts
  | ts :: us :: rest => ts ++ .sign .comma :: commaTokens (us :: rest)

/-- The tokens are an expression of the level, with the given tree. -/
inductive Derives : Nat → List Token → Expr → Prop
  | nil : Derives simpleLevel [.word .nil] .nil
  | bool (b : Bool) : Derives simpleLevel [.word (if b then .true else .false)] (.bool b)
  | int {n : Nat} (h : n < 0x8000000000000000) :
      Derives simpleLevel [.numeral n] (.int (Int64.ofNat n))
  | str (s : String) : Derives simpleLevel [.quoted s] (.str s)
  | table {items : List (List Token × Expr)} (h : ∀ i ∈ items, Derives 0 i.1 i.2) :
      Derives simpleLevel
        (.sign .openBrace :: commaTokens (items.map Prod.fst) ++ [.sign .closeBrace])
        (.table (items.map Prod.snd))
  | ident (x : Name) : Derives suffixLevel [.name x] (.ident x)
  | paren {ts : List Token} {e : Expr} (h : Derives 0 ts e) :
      Derives suffixLevel (.sign .openParen :: ts ++ [.sign .closeParen]) (.paren e)
  | member {ts : List Token} {t : Expr} (h : Derives suffixLevel ts t) (x : Name) :
      Derives suffixLevel (ts ++ [.sign .dot, .name x]) (.member t x)
  | index {ts us : List Token} {t k : Expr} (ht : Derives suffixLevel ts t)
      (hk : Derives 0 us k) :
      Derives suffixLevel (ts ++ (.sign .openBracket :: us ++ [.sign .closeBracket])) (.index t k)
  | call {ts : List Token} {c : Expr} {items : List (List Token × Expr)}
      (hc : Derives suffixLevel ts c) (h : ∀ i ∈ items, Derives 0 i.1 i.2) :
      Derives suffixLevel
        (ts ++ (.sign .openParen :: commaTokens (items.map Prod.fst) ++ [.sign .closeParen]))
        (.call c (items.map Prod.snd))
  | unary (op : UnaryOp) {ts : List Token} {e : Expr} (h : Derives UnaryOp.precedence ts e) :
      Derives UnaryOp.precedence (op.token :: ts) (.unary op e)
  | leftAssoc {op : BinaryOp} {ts us : List Token} {l r : Expr} (hop : op.isRightAssoc = false)
      (hl : Derives op.precedence ts l) (hr : Derives (op.precedence + 1) us r) :
      Derives op.precedence (ts ++ op.token :: us) (.binary op l r)
  | rightAssoc {op : BinaryOp} {ts us : List Token} {l r : Expr} (hop : op.isRightAssoc = true)
      (hl : Derives (op.precedence + 1) ts l) (hr : Derives op.precedence us r) :
      Derives op.precedence (ts ++ op.token :: us) (.binary op l r)
  | looser {low high : Nat} {ts : List Token} {e : Expr} (h : Derives high ts e)
      (hle : low ≤ high) : Derives low ts e

/-! ## The reader -/

/-- An unfinished expression: it lacks the right operand, the operand, what stands up to the closing
bracket, or further items. -/
inductive Frame where
  | binary (op : BinaryOp) (left : Expr)
  | unary (op : UnaryOp)
  | paren
  | index (target : Expr)
  | call (callee : Expr) (done : List Expr)
  | table (done : List Expr)

/-- What the reader is about to read, within the unfinished expressions, the innermost one first: an
operand, the name of a member, or what follows an expression, which may or may not carry a suffix. -/
inductive Reader where
  | operand (stack : List Frame)
  | member (target : Expr) (stack : List Frame)
  | after (e : Expr) (suffixable : Bool) (stack : List Frame)

def Token.binaryOp? (t : Token) : Option BinaryOp :=
  BinaryOp.all.find? fun op => op.token == t

namespace Reader

/-- Closes the operators that bind tighter than the level, innermost first. -/
def reduce (level : Nat) : Expr → List Frame → Expr × List Frame
  | e, .binary op l :: stack =>
    if level < op.rightLevel then reduce level (.binary op l e) stack
    else (e, .binary op l :: stack)
  | e, .unary op :: stack =>
    if level < UnaryOp.precedence then reduce level (.unary op e) stack
    else (e, .unary op :: stack)
  | e, stack => (e, stack)

/-- Reads the first token of an operand, or the end of an empty list. -/
def readOperand (stack : List Frame) : Token → Option Reader
  | .word .nil => some (.after .nil false stack)
  | .word .true => some (.after (.bool true) false stack)
  | .word .false => some (.after (.bool false) false stack)
  | .word .not => some (.operand (.unary .not :: stack))
  | .sign .minus => some (.operand (.unary .neg :: stack))
  | .sign .len => some (.operand (.unary .len :: stack))
  | .numeral n =>
    if n < 0x8000000000000000 then some (.after (.int (Int64.ofNat n)) false stack) else none
  | .quoted s => some (.after (.str s) false stack)
  | .name x => some (.after (.ident x) true stack)
  | .sign .openParen => some (.operand (.paren :: stack))
  | .sign .openBrace => some (.operand (.table [] :: stack))
  | .sign .closeParen =>
    match stack with
    | .call c [] :: stack => some (.after (.call c []) true stack)
    | _ => none
  | .sign .closeBrace =>
    match stack with
    | .table [] :: stack => some (.after (.table []) false stack)
    | _ => none
  | _ => none

/-- Reads a closing bracket or a comma, after an expression that is complete. -/
def close (e : Expr) : List Frame → Token → Option Reader
  | .paren :: stack, .sign .closeParen => some (.after (.paren e) true stack)
  | .index t :: stack, .sign .closeBracket => some (.after (.index t e) true stack)
  | .call c done :: stack, .sign .closeParen =>
    some (.after (.call c (done ++ [e])) true stack)
  | .call c done :: stack, .sign .comma => some (.operand (.call c (done ++ [e]) :: stack))
  | .table done :: stack, .sign .closeBrace => some (.after (.table (done ++ [e])) false stack)
  | .table done :: stack, .sign .comma => some (.operand (.table (done ++ [e]) :: stack))
  | _, _ => none

/-- Reads what follows an expression: a suffix, a binary operator or the end of the expression. -/
def readAfter (e : Expr) (suffixable : Bool) (stack : List Frame) : Token → Option Reader
  | .sign .dot => if suffixable then some (.member e stack) else none
  | .sign .openBracket => if suffixable then some (.operand (.index e :: stack)) else none
  | .sign .openParen => if suffixable then some (.operand (.call e [] :: stack)) else none
  | t =>
    match t.binaryOp? with
    | some op =>
      let (left, outer) := reduce op.precedence e stack
      some (.operand (.binary op left :: outer))
    -- whatever else follows ends all operators that are open
    | none =>
      let (whole, outer) := reduce 0 e stack
      close whole outer t

def step : Reader → Token → Option Reader
  | .operand stack, t => readOperand stack t
  | .member target stack, .name x => some (.after (.member target x) true stack)
  | .member .., _ => none
  | .after e suffixable stack, t => readAfter e suffixable stack t

/-- The expression that has been read when the text ends here, unless it cannot end here. -/
def finish : Reader → Option Expr
  | .after e _ stack =>
    match reduce 0 e stack with
    | (whole, []) => some whole
    | _ => none
  | _ => none

/-- Reads tokens as far as they belong to the expression: the expression, and the tokens that are
left. -/
def run : Reader → List Token → Option (Expr × List Token)
  | r, [] => r.finish.map (·, [])
  | r, t :: ts =>
    match r.step t with
    | some r => run r ts
    | none => r.finish.map (·, t :: ts)

end Reader

/-! ## What may follow an expression -/

/-- Whether the token begins a suffix. -/
def Token.opensSuffix : Token → Bool
  | .sign .dot | .sign .openBracket | .sign .openParen => true
  | _ => false

theorem Token.binaryOp?_token (op : BinaryOp) : op.token.binaryOp? = some op := by
  cases op <;> rfl

theorem Token.eq_of_binaryOp? {t : Token} {op : BinaryOp} (h : t.binaryOp? = some op) :
    t = op.token := by
  unfold Token.binaryOp? at h
  have hbeq := List.find?_some h
  exact (beq_iff_eq.mp hbeq).symm

theorem BinaryOp.opensSuffix_token (op : BinaryOp) : op.token.opensSuffix = false := by
  cases op <;> rfl

/-- Whether a suffix could be attached to the last operand of the expression. -/
def Expr.endsOpen : Expr → Bool
  | .ident _ | .member .. | .index .. | .call .. | .paren _ => true
  | .binary _ _ r => r.endsOpen
  | .unary _ e => e.endsOpen
  | .nil | .bool _ | .int _ | .str _ | .table _ => false

/-- Tokens that may follow an expression of the level, which may or may not end in something that
carries suffixes: if it does they do not begin a suffix, and the expression may be the left operand of
an operator that they begin with. -/
structure Follows (level : Nat) (suffixable : Bool) (rest : List Token) : Prop where
  noSuffix : suffixable = true → ∀ t ∈ rest.head?, t.opensSuffix = false
  looser : ∀ op : BinaryOp, rest.head? = some op.token → op.leftLevel ≤ level

theorem Follows.mono {low high : Nat} {suffixable : Bool} {rest : List Token}
    (h : Follows low suffixable rest) (hle : low ≤ high) : Follows high suffixable rest :=
  ⟨h.noSuffix, fun op hop => (h.looser op hop).trans hle⟩

theorem follows_nil (level : Nat) (suffixable : Bool) : Follows level suffixable [] := by
  constructor
  · rintro _ _ ⟨⟩
  · rintro _ ⟨⟩

theorem follows_operator (op : BinaryOp) (suffixable : Bool) (rest : List Token) :
    Follows op.leftLevel suffixable (op.token :: rest) := by
  constructor
  · rintro _ _ ⟨⟩
    exact op.opensSuffix_token
  · intro op' hop'
    have heq := Token.binaryOp?_token op'
    rw [← Option.some.inj hop', Token.binaryOp?_token] at heq
    rw [Option.some.inj heq]

/-- A token that is no operator may follow every expression, unless it begins a suffix that the
expression could carry. -/
theorem follows_mark (level : Nat) {suffixable : Bool} {t : Token} (rest : List Token)
    (hsuffix : suffixable = true → t.opensSuffix = false) (hop : t.binaryOp? = none) :
    Follows level suffixable (t :: rest) := by
  constructor
  · rintro hs _ ⟨⟩
    exact hsuffix hs
  · intro op h
    rw [Option.some.inj h, Token.binaryOp?_token] at hop
    cases hop

namespace Reader

theorem run_step {r r' : Reader} {t : Token} (h : r.step t = some r') (ts : List Token) :
    run r (t :: ts) = run r' ts := by
  rw [run, h]

/-- Without a suffix it does not matter whether the expression may carry one. -/
theorem readAfter_noSuffix {t : Token} (h : t.opensSuffix = false) (e : Expr) (b : Bool)
    (stack : List Frame) :
    readAfter e b stack t =
      match t.binaryOp? with
      | some op => some (.operand
          (.binary op (reduce op.precedence e stack).1 :: (reduce op.precedence e stack).2))
      | none => close (reduce 0 e stack).1 (reduce 0 e stack).2 t := by
  unfold readAfter
  split
  case h_4 => rfl
  all_goals cases h

theorem readAfter_suffix {t : Token} (h : t.opensSuffix = true) (e : Expr) (stack : List Frame) :
    readAfter e false stack t = none := by
  unfold Token.opensSuffix at h
  split at h
  · rfl
  · rfl
  · rfl
  · cases h

theorem run_suffixable {rest : List Token} (h : ∀ t ∈ rest.head?, t.opensSuffix = false)
    (e : Expr) (b : Bool) (stack : List Frame) :
    run (.after e b stack) rest = run (.after e false stack) rest := by
  cases rest with
  | nil => rfl
  | cons t ts =>
    rw [run, run, step, step, readAfter_noSuffix (h t rfl), readAfter_noSuffix (h t rfl)]
    rfl

/-- An operator that binds tighter than all that may follow is closed first. -/
theorem run_reduce {f : Frame} {e e' : Expr} {stack : List Frame} {bound : Nat} (hpos : 0 < bound)
    (hreduce : ∀ level < bound, reduce level e (f :: stack) = reduce level e' stack)
    {rest : List Token} (hop : ∀ op : BinaryOp, rest.head? = some op.token → op.precedence < bound) :
    run (.after e false (f :: stack)) rest = run (.after e' false stack) rest := by
  have hfinish : finish (.after e false (f :: stack)) = finish (.after e' false stack) := by
    rw [finish, finish, hreduce 0 hpos]
  cases rest with
  | nil => rw [run, run, hfinish]
  | cons t ts =>
    have hstep : step (.after e false (f :: stack)) t = step (.after e' false stack) t := by
      rw [step, step]
      cases hsuffix : t.opensSuffix with
      | true => rw [readAfter_suffix hsuffix, readAfter_suffix hsuffix]
      | false =>
        rw [readAfter_noSuffix hsuffix, readAfter_noSuffix hsuffix]
        cases hbinary : t.binaryOp? with
        | none => simp only [hreduce 0 hpos]
        | some op =>
          have hlevel := hop op (congrArg some (Token.eq_of_binaryOp? hbinary))
          simp only [hreduce _ hlevel]
    rw [run, run, hstep, hfinish]

end Reader

/-- The level that an expression needs to be read as a whole within the innermost unfinished one. -/
def Frame.level : Frame → Nat
  | .binary op _ => op.rightLevel
  | .unary _ => UnaryOp.precedence
  | _ => 0

/-- The level that an expression needs within the unfinished ones. -/
def stackLevel (stack : List Frame) : Nat :=
  (stack.head?.map Frame.level).getD 0

/-- Nothing is closed for an operator of a level that the unfinished expressions admit. -/
theorem Reader.reduce_eq {level : Nat} {stack : List Frame} (h : stackLevel stack ≤ level)
    (e : Expr) : Reader.reduce level e stack = (e, stack) := by
  unfold Reader.reduce
  split
  · exact if_neg (Nat.not_lt.mpr h)
  · exact if_neg (Nat.not_lt.mpr h)
  · rfl

/-! ## The reader finds every derivation -/

theorem Reader.run_items (frame : List Expr → Frame) (mark : Token) (result : List Expr → Reader)
    {stack : List Frame} (hlevel : ∀ done, (frame done).level = 0)
    (hcomma : ∀ done e,
      close e (frame done :: stack) (.sign .comma) = some (.operand (frame (done ++ [e]) :: stack)))
    (hclose : ∀ done e, close e (frame done :: stack) mark = some (result (done ++ [e])))
    (hsuffix : mark.opensSuffix = false) (hop : mark.binaryOp? = none)
    {items : List (List Token × Expr)} (hne : items ≠ [])
    (hitems : ∀ i ∈ items, ∀ (stack : List Frame) (rest : List Token), stackLevel stack ≤ 0 →
      Follows 0 i.2.endsOpen rest →
        run (.operand stack) (i.1 ++ rest) = run (.after i.2 false stack) rest)
    (done : List Expr) (rest : List Token) :
    run (.operand (frame done :: stack)) (commaTokens (items.map Prod.fst) ++ mark :: rest) =
      run (result (done ++ items.map Prod.snd)) rest := by
  have hend (t : Token) (hsuffix : t.opensSuffix = false) (hop : t.binaryOp? = none)
      (done : List Expr) (e : Expr) : step (.after e false (frame done :: stack)) t =
        close e (frame done :: stack) t := by
    rw [step, readAfter_noSuffix hsuffix, hop, reduce_eq (hlevel done).le]
  -- the items read so far wait in the frame
  induction items generalizing done with
  | nil => exact absurd rfl hne
  | cons i items ih =>
    obtain ⟨hi, hrest⟩ := List.forall_mem_cons.mp hitems
    cases items with
    | nil =>
      have hfollow : Follows 0 i.2.endsOpen (mark :: rest) :=
        follows_mark 0 rest (fun _ => hsuffix) hop
      refine (hi (frame done :: stack) _ (hlevel done).le hfollow).trans ?_
      exact run_step ((hend mark hsuffix hop done i.2).trans (hclose done i.2)) rest
    | cons j items =>
      have hread := hi (frame done :: stack)
        (.sign .comma :: (commaTokens ((j :: items).map Prod.fst) ++ mark :: rest))
        (hlevel done).le (follows_mark 0 _ (fun _ => rfl) rfl)
      have hnext := run_step ((hend (.sign .comma) rfl rfl done i.2).trans (hcomma done i.2))
        (commaTokens ((j :: items).map Prod.fst) ++ mark :: rest)
      have htail := ih (List.cons_ne_nil j items) hrest (done ++ [i.2])
      rw [List.append_assoc, List.singleton_append] at htail
      rw [List.map_cons, List.map_cons, commaTokens, List.append_assoc]
      exact (hread.trans hnext).trans htail

/-- The operators of one level all group to the same side. -/
theorem BinaryOp.isRightAssoc_eq (op : BinaryOp) :
    op.isRightAssoc = (op.precedence == 4 || op.precedence == 8) := by
  cases op <;> rfl

theorem BinaryOp.precedence_pos (op : BinaryOp) : 0 < op.precedence := by
  cases op <;> decide

theorem BinaryOp.precedence_le_leftLevel (op : BinaryOp) : op.precedence ≤ op.leftLevel := by
  rw [leftLevel]
  split <;> omega

theorem BinaryOp.precedence_le_rightLevel (op : BinaryOp) : op.precedence ≤ op.rightLevel := by
  rw [rightLevel]
  split <;> omega

/-- An operator that may follow a whole binary expression is not taken into its right operand. -/
theorem BinaryOp.precedence_lt_rightLevel {op op' : BinaryOp} (h : op'.leftLevel ≤ op.precedence) :
    op'.precedence < op.rightLevel := by
  rw [leftLevel, op'.isRightAssoc_eq] at h
  rw [rightLevel, op.isRightAssoc_eq]
  grind

/-- An operator that may follow a unary expression is not taken into its operand. -/
theorem BinaryOp.precedence_lt_unary {op : BinaryOp} (h : op.leftLevel ≤ UnaryOp.precedence) :
    op.precedence < UnaryOp.precedence := by
  cases op <;> first | decide | exact absurd h (by decide)

/-- Within any unfinished expressions, and whatever follows, the reader reads the tokens of an
expression as the tree. An expression that may carry suffixes is read up to where they begin; any
other must be of a level that the unfinished expressions admit, and what follows must not belong to
it. -/
structure Reads (level : Nat) (ts : List Token) (e : Expr) : Prop where
  suffixed : suffixLevel ≤ level → ∀ (stack : List Frame) (rest : List Token),
    Reader.run (.operand stack) (ts ++ rest) = Reader.run (.after e true stack) rest
  whole : ∀ (stack : List Frame) (rest : List Token), stackLevel stack ≤ level →
    Follows level e.endsOpen rest →
      Reader.run (.operand stack) (ts ++ rest) = Reader.run (.after e false stack) rest

namespace Reads

variable {level : Nat} {ts us : List Token} {e : Expr}

theorem of_suffixed (hopen : e.endsOpen = true) (h : ∀ (stack : List Frame) (rest : List Token),
    Reader.run (.operand stack) (ts ++ rest) = Reader.run (.after e true stack) rest) :
    Reads level ts e where
  suffixed _ := h
  whole stack rest _ hrest :=
    (h stack rest).trans (Reader.run_suffixable (hrest.noSuffix hopen) e true stack)

theorem of_simple (h : ∀ (stack : List Frame) (rest : List Token),
    Reader.run (.operand stack) (ts ++ rest) = Reader.run (.after e false stack) rest) :
    Reads simpleLevel ts e where
  suffixed hle := absurd hle (by decide)
  whole stack rest _ _ := h stack rest

theorem looser {low high : Nat} (h : Reads high ts e) (hle : low ≤ high) : Reads low ts e where
  suffixed hsuffix := h.suffixed (hsuffix.trans hle)
  whole stack rest hstack hrest := h.whole stack rest (hstack.trans hle) (hrest.mono hle)

theorem table {items : List (List Token × Expr)} (h : ∀ i ∈ items, Reads 0 i.1 i.2) :
    Reads simpleLevel
      (.sign .openBrace :: commaTokens (items.map Prod.fst) ++ [.sign .closeBrace])
      (.table (items.map Prod.snd)) := by
  refine of_simple fun stack rest => ?_
  rw [List.append_assoc, List.cons_append]
  refine (Reader.run_step rfl _).trans ?_
  by_cases hne : items = []
  · subst hne
    exact Reader.run_step rfl rest
  · exact Reader.run_items Frame.table (.sign .closeBrace)
      (fun es => .after (.table es) false stack) (fun _ => rfl) (fun _ _ => rfl) (fun _ _ => rfl) rfl rfl hne (fun i hi => (h i hi).whole) [] rest

theorem paren (h : Reads 0 ts e) :
    Reads suffixLevel (.sign .openParen :: ts ++ [.sign .closeParen]) (.paren e) := by
  refine of_suffixed rfl fun stack rest => ?_
  rw [List.append_assoc, List.cons_append]
  have hinner := h.whole (.paren :: stack) (.sign .closeParen :: rest) (Nat.le_refl 0)
    (follows_mark 0 rest (fun _ => rfl) rfl)
  exact (Reader.run_step rfl _).trans (hinner.trans (Reader.run_step rfl rest))

theorem member (h : Reads suffixLevel ts e) (x : Name) :
    Reads suffixLevel (ts ++ [.sign .dot, .name x]) (.member e x) := by
  refine of_suffixed rfl fun stack rest => ?_
  rw [List.append_assoc, h.suffixed (Nat.le_refl _)]
  exact (Reader.run_step rfl _).trans (Reader.run_step rfl rest)

theorem index {k : Expr} (h : Reads suffixLevel ts e) (hk : Reads 0 us k) :
    Reads suffixLevel (ts ++ (.sign .openBracket :: us ++ [.sign .closeBracket])) (.index e k) := by
  refine of_suffixed rfl fun stack rest => ?_
  rw [List.append_assoc, h.suffixed (Nat.le_refl _), List.append_assoc, List.cons_append]
  have hkey := hk.whole (.index e :: stack) (.sign .closeBracket :: rest) (Nat.le_refl 0)
    (follows_mark 0 rest (fun _ => rfl) rfl)
  exact (Reader.run_step rfl _).trans (hkey.trans (Reader.run_step rfl rest))

theorem call {items : List (List Token × Expr)} (hc : Reads suffixLevel ts e)
    (h : ∀ i ∈ items, Reads 0 i.1 i.2) :
    Reads suffixLevel
      (ts ++ (.sign .openParen :: commaTokens (items.map Prod.fst) ++ [.sign .closeParen]))
      (.call e (items.map Prod.snd)) := by
  refine of_suffixed rfl fun stack rest => ?_
  rw [List.append_assoc, hc.suffixed (Nat.le_refl _), List.append_assoc, List.cons_append]
  refine (Reader.run_step rfl _).trans ?_
  by_cases hne : items = []
  · subst hne
    exact Reader.run_step rfl rest
  · exact Reader.run_items (Frame.call e) (.sign .closeParen)
      (fun es => .after (.call e es) true stack) (fun _ => rfl) (fun _ _ => rfl) (fun _ _ => rfl) rfl rfl hne (fun i hi => (h i hi).whole) [] rest

theorem unary (op : UnaryOp) (h : Reads UnaryOp.precedence ts e) :
    Reads UnaryOp.precedence (op.token :: ts) (.unary op e) where
  suffixed hle := absurd hle (by decide)
  whole stack rest _ hrest := by
    have hop : Reader.step (.operand stack) op.token = some (.operand (.unary op :: stack)) := by
      cases op <;> rfl
    refine (Reader.run_step hop _).trans ((h.whole _ rest (Nat.le_refl _) hrest).trans ?_)
    -- what follows a unary expression binds less tightly than its operator
    have hpos : 0 < UnaryOp.precedence := by decide
    refine Reader.run_reduce hpos (fun level hlevel => ?_)
      fun op' hop' => BinaryOp.precedence_lt_unary (hrest.looser op' hop')
    exact if_pos hlevel

theorem binary (op : BinaryOp) {l r : Expr} (hl : Reads op.leftLevel ts l)
    (hr : Reads op.rightLevel us r) :
    Reads op.precedence (ts ++ op.token :: us) (.binary op l r) where
  suffixed hle := absurd hle (by cases op <;> decide)
  whole stack rest hstack hrest := by
    have hop : Reader.step (.after l false stack) op.token =
        some (.operand (.binary op l :: stack)) := by
      rw [Reader.step, Reader.readAfter_noSuffix op.opensSuffix_token, Token.binaryOp?_token]
      show some (Reader.operand (.binary op (Reader.reduce op.precedence l stack).1 :: _)) = _
      rw [Reader.reduce_eq hstack]
    rw [List.append_assoc, List.cons_append,
      hl.whole stack _ (hstack.trans op.precedence_le_leftLevel) (follows_operator op _ _)]
    refine (Reader.run_step hop _).trans ?_
    -- the right operand ends where the whole expression ends
    refine (hr.whole _ rest (Nat.le_refl _) (hrest.mono op.precedence_le_rightLevel)).trans ?_
    have hpos : 0 < op.rightLevel := Nat.lt_of_lt_of_le op.precedence_pos op.precedence_le_rightLevel
    refine Reader.run_reduce hpos (fun level hlevel => ?_)
      fun op' hop' => BinaryOp.precedence_lt_rightLevel (hrest.looser op' hop')
    exact if_pos hlevel

end Reads

/-- The reader finds every tree that can be derived. -/
theorem Derives.reads {level : Nat} {ts : List Token} {e : Expr} (h : Derives level ts e) :
    Reads level ts e := by
  induction h with
  | nil => exact .of_simple fun _ _ => Reader.run_step rfl _
  | bool b => exact .of_simple fun _ _ => Reader.run_step (by cases b <;> rfl) _
  | @int n hn =>
    have hstep (stack : List Frame) : Reader.step (.operand stack) (.numeral n) =
        some (.after (.int (Int64.ofNat n)) false stack) := if_pos hn
    exact .of_simple fun stack rest => Reader.run_step (hstep stack) rest
  | str s => exact .of_simple fun _ _ => Reader.run_step rfl _
  | table _ ih => exact .table ih
  | ident x => exact .of_suffixed rfl fun _ _ => Reader.run_step rfl _
  | paren _ ih => exact ih.paren
  | member _ x ih => exact ih.member x
  | index _ _ iht ihk => exact iht.index ihk
  | call _ _ ihc ih => exact ihc.call ih
  | unary op _ ih => exact ih.unary op
  | @leftAssoc op ts us l r hop _ _ ihl ihr =>
    have hleft : op.leftLevel = op.precedence := by rw [BinaryOp.leftLevel, hop]; rfl
    have hright : op.rightLevel = op.precedence + 1 := by rw [BinaryOp.rightLevel, hop]; rfl
    exact .binary op (hleft ▸ ihl) (hright ▸ ihr)
  | @rightAssoc op ts us l r hop _ _ ihl ihr =>
    have hleft : op.leftLevel = op.precedence + 1 := by rw [BinaryOp.leftLevel, hop]; rfl
    have hright : op.rightLevel = op.precedence := by rw [BinaryOp.rightLevel, hop]; rfl
    exact .binary op (hleft ▸ ihl) (hright ▸ ihr)
  | looser _ hle ih => exact ih.looser hle

/-- The tokens of an expression are read as its tree, up to tokens that do not go on with it. -/
theorem Derives.run_eq {level : Nat} {ts rest : List Token} {e : Expr} (h : Derives level ts e)
    (hrest : Follows 0 e.endsOpen rest) : Reader.run (.operand []) (ts ++ rest) = some (e, rest) := by
  have hread := (h.looser (Nat.zero_le level)).reads.whole [] rest (Nat.le_refl 0) hrest
  rw [hread]
  cases rest with
  | nil => rfl
  | cons t rest =>
    -- no operator is open, and what follows neither is one nor begins a suffix that could be carried
    have hop : t.binaryOp? = none := by
      cases hbinary : t.binaryOp? with
      | none => rfl
      | some op =>
        have hlevel := hrest.looser op (congrArg some (Token.eq_of_binaryOp? hbinary))
        have hpos := Nat.lt_of_lt_of_le op.precedence_pos op.precedence_le_leftLevel
        omega
    have hstep : Reader.step (.after e false []) t = none := by
      rw [Reader.step]
      cases hsuffix : t.opensSuffix with
      | true => exact Reader.readAfter_suffix hsuffix e []
      | false =>
        rw [Reader.readAfter_noSuffix hsuffix, hop]
        rfl
    rw [Reader.run, hstep]
    rfl

/-- **The grammar is unambiguous.** Tokens are an expression in one way only. -/
theorem Derives.unique {level level' : Nat} {ts : List Token} {e e' : Expr}
    (h : Derives level ts e) (h' : Derives level' ts e') : e = e' := by
  have hread := h.run_eq (follows_nil 0 _)
  rw [h'.run_eq (follows_nil 0 _)] at hread
  exact (congrArg Prod.fst (Option.some.inj hread)).symm

end LoopLowering
