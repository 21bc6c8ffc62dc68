import LoopLowering.Text
import LoopLowering.Visit

/- Names in the text and in the traversal. The layout of a tree and the traversal of
   a tree are two recursions of their own. The layout puts parentheses, commas and
   blanks around the parts, and has cases for what may be left out. The traversal
   visits each part before what it contains.

   Both come across the same names in the same order (`Expr.namesOf_layout`,
   `Stmt.namesOf_layout`), so each name that the traversal visits has a place of its
   own in the text, after the names visited before it and before those visited after
   it (`names_visited_in_text_order`). -/
namespace LoopLowering

open Visit (entering)

/-! ## Names of fragments and of visits -/

def Fragment.namesOf (fs : List Fragment) : List Name :=
  fs.filterMap name?

def Visit.namesOf (vs : List Visit) : List Name :=
  vs.filterMap name?

namespace Fragment

theorem eq_name_of_name? {f : Fragment} {x : Name} (h : f.name? = some x) : f = .name x := by
  cases f with
  | name y => exact congrArg name (Option.some.inj h)
  | word _ | integer _ | quoted _ | binaryOp _ | unaryOp _ | symbol _ | space | newline
  | indent _ => cases h

theorem textOf_name (indentSize : Nat) (x : Name) (fs : List Fragment) :
    textOf indentSize (.name x :: fs) = x ++ textOf indentSize fs := by
  have hname : textOf indentSize [.name x] = x := by
    simp [textOf, emitsAll, emits, Emit.textOf, Emit.toText]
  rw [← List.singleton_append, textOf_append, hname]

@[simp] theorem namesOf_nil : namesOf [] = [] := rfl

@[simp] theorem namesOf_cons (f : Fragment) (fs : List Fragment) :
    namesOf (f :: fs) = f.name?.toList ++ namesOf fs := by
  cases f <;> rfl

@[simp] theorem namesOf_append (fs gs : List Fragment) :
    namesOf (fs ++ gs) = namesOf fs ++ namesOf gs :=
  List.filterMap_append

@[simp] theorem namesOf_parenthesised (fs : List Fragment) :
    namesOf (parenthesised fs) = namesOf fs := by
  simp [parenthesised, name?]

@[simp] theorem namesOf_parenthesisedIf (wrap : Bool) (fs : List Fragment) :
    namesOf (parenthesisedIf wrap fs) = namesOf fs := by
  cases wrap with
  | true => exact namesOf_parenthesised fs
  | false => rfl

@[simp] theorem namesOf_commaSeparated (items : List (List Fragment)) :
    namesOf (commaSeparated items) = items.flatMap namesOf := by
  induction items using commaSeparated.induct with
  | case1 => rfl
  | case2 item => simp [commaSeparated]
  | case3 item next rest ih => simp [commaSeparated, ih, name?]

end Fragment

namespace Visit

@[simp] theorem namesOf_nil : namesOf [] = [] := rfl

@[simp] theorem namesOf_cons (v : Visit) (vs : List Visit) :
    namesOf (v :: vs) = v.name?.toList ++ namesOf vs := by
  cases v <;> rfl

@[simp] theorem namesOf_append (vs ws : List Visit) :
    namesOf (vs ++ ws) = namesOf vs ++ namesOf ws :=
  List.filterMap_append

@[simp] theorem namesOf_map_name (xs : List Name) : namesOf (xs.map .name) = xs := by
  induction xs with
  | nil => rfl
  | cons x xs ih => simp [ih, name?]

/-- When nothing is skipped, what a part contains is visited after it. -/
@[simp] theorem namesOf_entering (v : Visit) (inside : List Visit) :
    namesOf (entering (fun _ => false) v inside) = v.name?.toList ++ namesOf inside :=
  namesOf_cons v inside

end Visit

/-! ## Trees -/

open Fragment (namesOf)

mutual

theorem Expr.namesOf_layout (level : Nat) :
    (e : Expr) → namesOf (e.layout level) = Visit.namesOf (e.visits fun _ => false)
  | .nil => rfl
  | .bool _ => rfl
  | .int _ => by simp [Expr.layout, Expr.visits, Fragment.name?, Visit.name?]
  | .str _ => rfl
  | .ident x => rfl
  | .member t x => by
    simp [Expr.layout, Expr.visits, t.namesOf_layout, Fragment.name?, Visit.name?]
  | .index t k => by
    simp [Expr.layout, Expr.visits, t.namesOf_layout, k.namesOf_layout, Fragment.name?, Visit.name?]
  | .call c as => by
    simp [Expr.layout, Expr.visits, c.namesOf_layout, Expr.flatMap_layouts as, Visit.name?]
  | .binary op l r => by
    simp [Expr.layout, Expr.visits, l.namesOf_layout, r.namesOf_layout, Fragment.name?, Visit.name?]
  | .unary op e => by
    -- the blank after the operator, where there is one, writes no name
    have hblank (p : Prop) [Decidable p] : namesOf (if p then [.space] else []) = [] := by
      split <;> rfl
    simp [Expr.layout, Expr.visits, e.namesOf_layout, hblank, Fragment.name?, Visit.name?]
  | .paren e => by
    simp [Expr.layout, Expr.visits, e.namesOf_layout, Visit.name?]
  | .table es => by
    simp [Expr.layout, Expr.visits, Expr.flatMap_layouts es, Fragment.name?, Visit.name?]

theorem Expr.flatMap_layouts : (es : List Expr) →
    (Expr.layouts es).flatMap namesOf = Visit.namesOf (Expr.visitsAll (fun _ => false) es)
  | [] => rfl
  | e :: es => by
    simp [Expr.layouts, Expr.visitsAll, e.namesOf_layout, Expr.flatMap_layouts es]

end

theorem Expr.namesOf_layoutList (es : List Expr) :
    namesOf (Expr.layoutList es) = Visit.namesOf (Expr.visitsAll (fun _ => false) es) := by
  rw [Expr.layoutList, Fragment.namesOf_commaSeparated, Expr.flatMap_layouts]

theorem Call.namesOf_layout (c : Call) :
    namesOf c.layout = Visit.namesOf (c.visits fun _ => false) := by
  rw [Call.layout, Expr.namesOf_layout]
  simp [Call.toExpr, Expr.visits, Call.visits, Visit.name?]

theorem Declaration.namesOf_layout (d : Declaration) :
    namesOf d.layout = d.names ++ Visit.namesOf (Expr.visitsAll (fun _ => false) d.values) := by
  obtain ⟨names, values⟩ := d
  have hnames : (names.map fun x => [Fragment.name x]).flatMap namesOf = names := by
    rw [List.flatMap_map]
    exact List.flatMap_singleton' names
  cases values with
  | nil => simp [Declaration.layout, Expr.visitsAll, hnames, Fragment.name?]
  | cons e es =>
    simp [Declaration.layout, Expr.namesOf_layoutList, hnames, Fragment.name?]

/-- The words around a block write no name. -/
@[simp] theorem Delimiters.namesOf_opening (d : Delimiters) (fresh : Bool) :
    namesOf (d.opening fresh) = [] := by
  cases d <;> cases fresh <;> rfl

@[simp] theorem Delimiters.namesOf_closing (d : Delimiters) : namesOf d.closing = [] := by
  cases d <;> rfl

mutual

theorem Stmt.namesOf_layout (depth : Nat) (fresh : Bool) :
    (s : Stmt) → namesOf (s.layout depth fresh) = Visit.namesOf (s.visits fun _ => false)
  | .expr e => by
    simp [Stmt.layout, Stmt.visits, e.namesOf_layout, Visit.name?]
  | .local d => by
    simp [Stmt.layout, Stmt.visits, d.namesOf_layout, Visit.name?]
  | .assign ts vs => by
    simp [Stmt.layout, Stmt.visits, Expr.namesOf_layoutList, Fragment.name?, Visit.name?]
  | .loop l => by
    simp [Stmt.layout, Stmt.visits, l.namesOf_layout depth, Visit.name?]
  | .do b => by
    simp [Stmt.layout, Stmt.visits, b.namesOf_layout depth, Visit.name?]
  | .if c t none => by
    simp [Stmt.layout, Stmt.visits, c.namesOf_layout, t.namesOf_layout depth, Fragment.name?,
      Visit.name?]
  | .if c t (some e) => by
    simp [Stmt.layout, Stmt.visits, c.namesOf_layout, t.namesOf_layout depth,
      e.namesOf_layout depth, Fragment.name?, Visit.name?]
  | .break => rfl
  | .return [] => rfl
  | .return (e :: es) => by
    simp [Stmt.layout, Stmt.visits, Expr.namesOf_layoutList, Fragment.name?, Visit.name?]

theorem Block.namesOf_layout (depth : Nat) (fresh : Bool) :
    (b : Block) → namesOf (b.layout depth fresh) = Visit.namesOf (b.visits fun _ => false)
  | ⟨d, ss⟩ => by
    simp [Block.layout, Block.visits, Stmt.namesOf_layoutLines (depth + 1) ss, Fragment.name?,
      Visit.name?]

theorem Loop.namesOf_layout (depth : Nat) :
    (l : Loop) → namesOf (l.layout depth) = Visit.namesOf (l.visits fun _ => false)
  | .while c b => by
    simp [Loop.layout, Loop.visits, c.namesOf_layout, b.namesOf_layout depth, Fragment.name?,
      Visit.name?]
  | .repeat b c => by
    simp [Loop.layout, Loop.visits, c.namesOf_layout, b.namesOf_layout depth, Fragment.name?,
      Visit.name?]
  | .forIn x s b => by
    simp [Loop.layout, Loop.visits, s.namesOf_layout, b.namesOf_layout depth, Fragment.name?,
      Visit.name?]
  | .numericFor x i l none b => by
    simp [Loop.layout, Loop.visits, i.namesOf_layout, l.namesOf_layout, b.namesOf_layout depth,
      Fragment.name?, Visit.name?]
  | .numericFor x i l (some s) b => by
    simp [Loop.layout, Loop.visits, i.namesOf_layout, l.namesOf_layout, s.namesOf_layout,
      b.namesOf_layout depth, Fragment.name?, Visit.name?]

theorem Stmt.namesOf_layoutLines (depth : Nat) : (ss : List Stmt) →
    namesOf (Stmt.layoutLines depth ss) = Visit.namesOf (Stmt.visitsAll (fun _ => false) ss)
  | [] => rfl
  | s :: ss => by
    simp [Stmt.layoutLines, Stmt.visitsAll, s.namesOf_layout depth,
      Stmt.namesOf_layoutLines depth ss, Fragment.name?]

end

/-! ## Nodes -/

theorem Block.namesOf_chunkLayout (b : Block) (fresh : Bool) :
    namesOf (b.chunkLayout fresh) = Visit.namesOf (b.visits fun _ => false) := by
  obtain ⟨d, ss⟩ := b
  cases ss with
  | nil => rfl
  | cons s ss =>
    simp [Block.chunkLayout, Block.visits, Stmt.visitsAll, s.namesOf_layout,
      Stmt.namesOf_layoutLines, Fragment.name?, Visit.name?]

theorem Node.namesOf_layout (n : Node) (fresh : Bool) : namesOf (n.layout fresh) = n.names := by
  cases n with
  | chunk b => exact b.namesOf_chunkLayout fresh
  | block b => exact b.namesOf_layout 0 fresh
  | stmt s => exact s.namesOf_layout 0 fresh
  | expr e => exact e.namesOf_layout 0
  | loop l => exact l.namesOf_layout 0
  | call c => exact c.namesOf_layout
  | name x => rfl

/-- **The traversal visits the names of the text, in their order.** The names that the layout of a
node writes are those that the traversal of the node visits, each as often and in the same order.
Each name that is visited so has a place of its own in the text: before it stand the names that are
visited before it, and after it those that are visited after it. -/
theorem names_visited_in_text_order (n : Node) (fresh : Bool) :
    (n.layout fresh).filterMap Fragment.name? = n.names ∧
    ∀ before x after, n.names = before ++ x :: after →
      ∃ fs gs : List Fragment, n.layout fresh = fs ++ .name x :: gs ∧
        fs.filterMap Fragment.name? = before ∧ gs.filterMap Fragment.name? = after ∧
        ∀ indentSize, Fragment.textOf indentSize (n.layout fresh) =
          Fragment.textOf indentSize fs ++ x ++ Fragment.textOf indentSize gs := by
  have hnames : (n.layout fresh).filterMap Fragment.name? = n.names := n.namesOf_layout fresh
  refine ⟨hnames, fun before x after hsplit => ?_⟩
  obtain ⟨fs, rest, hlayout, hbefore, hrest⟩ :=
    List.filterMap_eq_append_iff.mp (hnames.trans hsplit)
  obtain ⟨gap, f, gs, rfl, hgap, hf, hafter⟩ := List.filterMap_eq_cons_iff.mp hrest
  cases Fragment.eq_name_of_name? hf
  have hplace : n.layout fresh = (fs ++ gap) ++ .name x :: gs := by
    rw [hlayout, List.append_assoc]
  refine ⟨fs ++ gap, gs, hplace, ?_, hafter, fun indentSize => ?_⟩
  · rw [List.filterMap_append, hbefore, List.filterMap_eq_nil_iff.mpr hgap, List.append_nil]
  · rw [hplace, Fragment.textOf_append, Fragment.textOf_name, String.append_assoc]

/-- A `repeat` loop, whose condition is written and visited after its body. -/
def countedRepeat : Stmt :=
  .loop (.repeat
    ⟨.bare, [
      .local ⟨["a", "b"], [.ident "c"]⟩,
      .assign [.member (.ident "t") "f"] [.call (.ident "g") [.ident "a"]]]⟩
    (.binary .eq (.ident "b") (.ident "a")))

/-- The place of `g` in the text of `countedRepeat`, between the names around it. -/
theorem names_visited_in_text_order_countedRepeat :
    (Node.stmt countedRepeat).names = ["a", "b", "c", "t", "f"] ++ "g" :: ["a", "b", "a"] ∧
    ∃ fs gs : List Fragment, (Node.stmt countedRepeat).layout true = fs ++ .name "g" :: gs ∧
      fs.filterMap Fragment.name? = ["a", "b", "c", "t", "f"] ∧
      gs.filterMap Fragment.name? = ["a", "b", "a"] := by
  have hnames : (Node.stmt countedRepeat).names =
      ["a", "b", "c", "t", "f"] ++ "g" :: ["a", "b", "a"] := by decide +kernel
  obtain ⟨fs, gs, hlayout, hbefore, hafter, _⟩ :=
    (names_visited_in_text_order (.stmt countedRepeat) true).2 _ _ _ hnames
  exact ⟨hnames, fs, gs, hlayout, hbefore, hafter⟩

end LoopLowering
