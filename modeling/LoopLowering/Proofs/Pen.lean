import LoopLowering.Text
import LoopLowering.Proofs.TextLines

/- A pen that writes fragments. The pen holds the level of indentation and whether the
   line is fresh, and changes both as it goes: a block raises the level for its
   statements and lowers it again. Drawing a tree is a recursion of its own, in which
   nothing is handed down but the pen.

   A drawing writes what the layout of the tree says, at the level where the pen
   stands, and leaves the pen at that level (`Stmt.draw_eq`, `Block.draw_eq`,
   `Loop.draw_eq`). So nodes drawn one after the other by one pen have the text of
   their layouts (`Node.drawAll_eq`). -/
namespace LoopLowering

/-! ## The pen -/

/-- A pen: what it has written, its level of indentation, and whether nothing but indentation has been
written on the current line. -/
@[ext] structure Pen where
  written : List Fragment := []
  level : Nat := 0
  fresh : Bool := true
  fresh_eq : fresh = Fragment.leaveFresh true written := by rfl

theorem Fragment.leaveFresh_append (fresh : Bool) (fs gs : List Fragment) :
    leaveFresh fresh (fs ++ gs) = leaveFresh (leaveFresh fresh fs) gs :=
  List.foldl_append

theorem Fragment.leaveFresh_false {fs : List Fragment} (h : .newline ∉ fs) :
    leaveFresh false fs = false := by
  induction fs with
  | nil => rfl
  | cons f fs ih =>
    obtain ⟨hf, hfs⟩ := not_or.mp (mt List.mem_cons.mpr h)
    have hstep : f.leavesFresh false = false := by
      cases f with
      | newline => exact absurd rfl hf
      | _ => rfl
    show leaveFresh (f.leavesFresh false) fs = false
    rw [hstep, ih hfs]

namespace Pen

def put (p : Pen) (f : Fragment) : Pen where
  written := p.written ++ [f]
  level := p.level
  fresh := f.leavesFresh p.fresh
  fresh_eq := by
    rw [Fragment.leaveFresh_append, ← p.fresh_eq]
    rfl

def puts (p : Pen) (fs : List Fragment) : Pen :=
  fs.foldl put p

/-- Begins a new line, at the level of the pen. -/
def startLine (p : Pen) : Pen :=
  (p.put .newline).put (.indent p.level)

def indent (p : Pen) : Pen :=
  { p with level := p.level + 1 }

def dedent (p : Pen) : Pen :=
  { p with level := p.level - 1 }

/-- The text that the pen has written, with the given width of a level. -/
def text (indentSize : Nat) (p : Pen) : String :=
  Fragment.textOf indentSize p.written

@[simp] theorem puts_nil (p : Pen) : p.puts [] = p := rfl

theorem puts_cons (p : Pen) (f : Fragment) (fs : List Fragment) :
    p.puts (f :: fs) = (p.put f).puts fs := rfl

theorem puts_append (p : Pen) (fs gs : List Fragment) : p.puts (fs ++ gs) = (p.puts fs).puts gs :=
  List.foldl_append

@[simp] theorem level_put (p : Pen) (f : Fragment) : (p.put f).level = p.level := rfl

@[simp] theorem level_puts (p : Pen) (fs : List Fragment) : (p.puts fs).level = p.level := by
  induction fs generalizing p with
  | nil => rfl
  | cons f fs ih => rw [puts_cons, ih, level_put]

theorem fresh_puts (p : Pen) (fs : List Fragment) :
    (p.puts fs).fresh = Fragment.leaveFresh p.fresh fs := by
  induction fs generalizing p with
  | nil => rfl
  | cons f fs ih => exact ih (p.put f)

theorem written_puts (p : Pen) (fs : List Fragment) : (p.puts fs).written = p.written ++ fs := by
  induction fs generalizing p with
  | nil => simp
  | cons f fs ih =>
    rw [puts_cons, ih]
    simp [put]

theorem text_puts (n : Nat) (p : Pen) (fs : List Fragment) :
    (p.puts fs).text n = p.text n ++ Fragment.textOf n fs := by
  rw [text, written_puts, Fragment.textOf_append, text]

/-- After a word no line is fresh until it ends. -/
theorem fresh_puts_word (p : Pen) (k : Keyword) {fs : List Fragment} (h : .newline ∉ fs) :
    (p.puts (.word k :: fs)).fresh = false := by
  rw [fresh_puts]
  exact Fragment.leaveFresh_false h

/-- The level does not matter to what is written at given depths. -/
theorem dedent_puts_indent (p : Pen) (fs : List Fragment) :
    ((p.indent).puts fs).dedent = p.puts fs := by
  ext1
  · simp [dedent, written_puts, indent]
  · simp [dedent, indent]
  · simp [dedent, fresh_puts, indent]

end Pen

/-! ## Drawing -/

mutual

def Stmt.draw : Stmt → Pen → Pen
  | .expr e, p => p.puts (e.layout 0)
  | .local d, p => p.puts d.layout
  | .assign ts vs, p => p.puts (Expr.layoutList ts ++ .symbol .assign :: Expr.layoutList vs)
  | .loop l, p => l.draw p
  | .do b, p => b.draw p
  | .if c t none, p =>
    let header := p.puts (.word .if :: (.space :: c.layout 0 ++ [.space, .word .then]))
    (t.draw header).put (.word .end)
  | .if c t (some e), p =>
    let header := p.puts (.word .if :: (.space :: c.layout 0 ++ [.space, .word .then]))
    (e.draw ((t.draw header).put (.word .else))).put (.word .end)
  | .break, p => p.put (.word .break)
  | .return vs, p => p.puts (.word .return :: if vs.isEmpty then [] else .space :: Expr.layoutList vs)

/-- Draws a block: its statements one level higher than the pen stands. -/
def Block.draw : Block → Pen → Pen
  | ⟨d, ss⟩, p =>
    let inside := Stmt.drawLines ss (p.puts (d.opening p.fresh)).indent
    inside.dedent.startLine.puts d.closing

def Loop.draw : Loop → Pen → Pen
  | .while c b, p => b.draw (p.puts (.word .while :: .space :: c.layout 0))
  | .repeat b c, p =>
    (b.draw (p.put (.word .repeat))).puts (.word .until :: .space :: c.layout 0)
  | .forIn x s b, p =>
    b.draw (p.puts (.word .for :: ([.space, .name x, .space, .word .in, .space] ++ s.layout)))
  | .numericFor x i l none b, p =>
    b.draw (p.puts (.word .for :: ([.space, .name x, .symbol .assign] ++ i.layout 0 ++
      .symbol .clauseComma :: l.layout 0)))
  | .numericFor x i l (some s) b, p =>
    b.draw (p.puts (.word .for :: ([.space, .name x, .symbol .assign] ++ i.layout 0 ++
      .symbol .clauseComma :: l.layout 0 ++ .symbol .clauseComma :: s.layout 0)))

def Stmt.drawLines : List Stmt → Pen → Pen
  | [], p => p
  | s :: ss, p => Stmt.drawLines ss (s.draw p.startLine)

end

open Pen

mutual

/-- A drawing of a statement writes its layout at the level of the pen, and nothing else changes. -/
theorem Stmt.draw_eq : (s : Stmt) → (p : Pen) → s.draw p = p.puts (s.layout p.level p.fresh)
  | .expr e, p => rfl
  | .local d, p => rfl
  | .assign ts vs, p => rfl
  | .loop l, p => l.draw_eq p
  | .do b, p => b.draw_eq p
  | .if c t none, p => by
    have hline : Fragment.newline ∉ .space :: c.layout 0 ++ [.space, .word .then] := by
      simp [c.newline_notMem_layout]
    rw [Stmt.draw, t.draw_eq, fresh_puts_word p .if hline, level_puts, Stmt.layout]
    simp [puts_append, puts_cons]
  | .if c t (some e), p => by
    have hline : Fragment.newline ∉ .space :: c.layout 0 ++ [.space, .word .then] := by
      simp [c.newline_notMem_layout]
    rw [Stmt.draw, t.draw_eq, e.draw_eq, fresh_puts_word p .if hline, level_puts, Stmt.layout]
    simp [puts_append, puts_cons, put, Fragment.leavesFresh]
  | .break, p => rfl
  | .return vs, p => rfl

theorem Block.draw_eq : (b : Block) → (p : Pen) → b.draw p = p.puts (b.layout p.level p.fresh)
  | ⟨d, ss⟩, p => by
    rw [Block.draw, Stmt.drawLines_eq ss, dedent_puts_indent, Block.layout, startLine]
    simp [puts_append, puts_cons, indent]

theorem Loop.draw_eq : (l : Loop) → (p : Pen) → l.draw p = p.puts (l.layout p.level)
  | .while c b, p => by
    have hline : Fragment.newline ∉ .space :: c.layout 0 := by simp [c.newline_notMem_layout]
    rw [Loop.draw, b.draw_eq, fresh_puts_word p .while hline, level_puts, Loop.layout]
    simp [puts_append, puts_cons]
  | .repeat b c, p => by
    rw [Loop.draw, b.draw_eq, Loop.layout]
    simp [puts_append, puts_cons, put, Fragment.leavesFresh]
  | .forIn x s b, p => by
    have hline : Fragment.newline ∉ [.space, .name x, .space, .word .in, .space] ++ s.layout := by
      simp [Call.layout, Expr.newline_notMem_layout]
    rw [Loop.draw, b.draw_eq, fresh_puts_word p .for hline, level_puts, Loop.layout]
    simp [puts_append, puts_cons]
  | .numericFor x i l none b, p => by
    have hline : Fragment.newline ∉ [.space, .name x, .symbol .assign] ++ i.layout 0 ++
        .symbol .clauseComma :: l.layout 0 := by
      simp [Expr.newline_notMem_layout]
    rw [Loop.draw, b.draw_eq, fresh_puts_word p .for hline, level_puts, Loop.layout]
    simp [puts_append, puts_cons]
  | .numericFor x i l (some s) b, p => by
    have hline : Fragment.newline ∉ [.space, .name x, .symbol .assign] ++ i.layout 0 ++
        .symbol .clauseComma :: l.layout 0 ++ .symbol .clauseComma :: s.layout 0 := by
      simp [Expr.newline_notMem_layout]
    rw [Loop.draw, b.draw_eq, fresh_puts_word p .for hline, level_puts, Loop.layout]
    simp [puts_append, puts_cons]

theorem Stmt.drawLines_eq : (ss : List Stmt) → (p : Pen) →
    Stmt.drawLines ss p = p.puts (Stmt.layoutLines p.level ss)
  | [], p => rfl
  | s :: ss, p => by
    rw [Stmt.drawLines, s.draw_eq, Stmt.drawLines_eq ss, Stmt.layoutLines]
    simp [puts_append, puts_cons, startLine, put, Fragment.leavesFresh]

end

/-! ## Nodes -/

/-- Draws the statements of a block without its delimiters, one on each line, the first one where the
pen stands. -/
def Block.drawChunk (b : Block) (p : Pen) : Pen :=
  match b.statements with
  | [] => p
  | s :: ss => Stmt.drawLines ss (s.draw (p.put (.indent p.level)))

def Node.draw (p : Pen) : Node → Pen
  | .chunk b => b.drawChunk p
  | .block b => b.draw p
  | .stmt s => s.draw p
  | .expr e => p.puts (e.layout 0)
  | .loop l => l.draw p
  | .call c => p.puts c.layout
  | .name x => p.put (.name x)

def Node.drawAll (nodes : List Node) (p : Pen) : Pen :=
  nodes.foldl Node.draw p

theorem Block.drawChunk_cons (d : Delimiters) (s : Stmt) (ss : List Stmt) (p : Pen) :
    Block.drawChunk ⟨d, s :: ss⟩ p =
      p.puts (.indent p.level :: s.layout p.level p.fresh ++ Stmt.layoutLines p.level ss) := by
  show Stmt.drawLines ss (s.draw (p.put (.indent p.level))) = _
  rw [Stmt.drawLines_eq, Stmt.draw_eq, puts_append, puts_cons, level_puts, level_put]
  rfl

theorem Node.draw_eq {p : Pen} (h : p.level = 0) (n : Node) : n.draw p = p.puts (n.layout p.fresh) := by
  cases n with
  | chunk b =>
    obtain ⟨d, ss⟩ := b
    cases ss with
    | nil => rfl
    | cons s ss =>
      rw [Node.draw, Block.drawChunk_cons, h]
      rfl
  | block b => rw [Node.draw, b.draw_eq, h]; rfl
  | stmt s => rw [Node.draw, s.draw_eq, h]; rfl
  | expr e => rfl
  | loop l => rw [Node.draw, l.draw_eq, h]; rfl
  | call c => rfl
  | name x => rfl

theorem Node.drawAll_eq {p : Pen} (h : p.level = 0) (nodes : List Node) :
    Node.drawAll nodes p = p.puts (Node.layoutAll p.fresh nodes) := by
  induction nodes generalizing p with
  | nil => rfl
  | cons n nodes ih =>
    show Node.drawAll nodes (n.draw p) = _
    rw [Node.draw_eq h, ih (by rw [level_puts, h]), fresh_puts, ← puts_append]
    rfl

end LoopLowering
