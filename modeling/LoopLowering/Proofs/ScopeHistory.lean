import LoopLowering.Run.Env
import Mathlib.Data.List.Forall2
import Mathlib.Data.List.Nodup

/- Lexical scoping. An environment forgets: a scope that is closed is gone, and so is a
   value that is overwritten. Its history forgets nothing. Here the history alone says
   what a variable is: every write is kept, with the layer that it went to, and a
   scope is known by the moment when it was opened. A variable has the value that was
   last written to it in the innermost layer that is open and has it.

   `Mirrors` is the invariant: each open scope holds what was last written to its
   layer. One operation keeps it (`Mirrors.apply`), so every environment mirrors its
   history, and a lookup in the environment is a lookup in the history. -/
namespace LoopLowering

/-- What can be done to an environment. -/
inductive EnvOp where
  | openScope
  | closeScope
  | bindGlobal (x : Name) (v : Value)
  | declare (x : Name) (v : Value)
  | assign (x : Name) (v : Value)

def EnvOp.apply (env : Env) : EnvOp → Env
  | .openScope => env.openScope
  | .closeScope => env.closeScope
  | .bindGlobal x v => env.bindGlobal x v
  | .declare x v => env.declare x v
  | .assign x v => env.assign x v

/-- Where variables are: among the globals, or in the scope that was opened after so many
operations. -/
inductive Layer where
  | globals
  | scope (opened : Nat)
  deriving DecidableEq

/-- A value that was given to a variable, and the layer that has the variable. -/
structure Write where
  layer : Layer
  name : Name
  value : Value

/-- The value that was last given to a variable of a layer. The latest write stands first. -/
def latest? (ws : List Write) (l : Layer) (x : Name) : Option Value :=
  (ws.find? fun w => w.layer = l ∧ w.name = x).map Write.value

/-- The first of the layers that has the variable, or the globals when none has. -/
def holder (ls : List Layer) (ws : List Write) (x : Name) : Layer :=
  (ls.find? fun l => (latest? ws l x).isSome).getD .globals

/-- The write that an operation makes. A declaration goes to the innermost layer, and an assignment
to the innermost one that has the variable. -/
def EnvOp.write? (ls : List Layer) (ws : List Write) : EnvOp → Option Write
  | .openScope | .closeScope => none
  | .bindGlobal x v => some ⟨.globals, x, v⟩
  | .declare x v => some ⟨ls.headD .globals, x, v⟩
  | .assign x v => some ⟨holder ls ws x, x, v⟩

/-! ## Histories

A history is a list of operations, and the latest one stands first. -/

namespace History

/-- The environment that has the history. -/
def env : List EnvOp → Env
  | [] => {}
  | op :: past => op.apply (env past)

/-- When the open scopes were opened, the innermost one first. -/
def openScopes : List EnvOp → List Nat
  | [] => []
  | .openScope :: past => past.length :: openScopes past
  | .closeScope :: past => (openScopes past).tail
  | _ :: past => openScopes past

/-- The layers where a variable is looked for, the innermost one first. -/
def layers (past : List EnvOp) : List Layer :=
  (openScopes past).map .scope ++ [.globals]

/-- All writes, the latest one first. -/
def writes : List EnvOp → List Write
  | [] => []
  | op :: past => (op.write? (layers past) (writes past)).toList ++ writes past

/-- The value that was last written to a variable in the innermost layer that is open and has it. -/
def lookup? (past : List EnvOp) (x : Name) : Option Value :=
  (layers past).findSome? fun l => latest? (writes past) l x

/-- The layer is open, and its variable has the value. -/
def Live (past : List EnvOp) (l : Layer) (x : Name) (v : Value) : Prop :=
  l ∈ layers past ∧ latest? (writes past) l x = some v

end History

/-! ## Writes -/

theorem latest?_cons (w : Write) (ws : List Write) (l : Layer) (x : Name) :
    latest? (w :: ws) l x =
      if w.layer = l ∧ w.name = x then some w.value else latest? ws l x := by
  unfold latest?
  rw [List.find?_cons]
  split <;> simp_all

theorem latest?_of_ne {w : Write} {l : Layer} (h : w.layer ≠ l) (ws : List Write) (x : Name) :
    latest? (w :: ws) l x = latest? ws l x := by
  simp [latest?_cons, h]

theorem latest?_eq_none {ws : List Write} {l : Layer} (h : ∀ w ∈ ws, w.layer ≠ l) (x : Name) :
    latest? ws l x = none := by
  unfold latest?
  rw [Option.map_eq_none_iff, List.find?_eq_none]
  intro w hw
  simp [h w hw]

theorem holder_cons (l : Layer) (ls : List Layer) (ws : List Write) (x : Name) :
    holder (l :: ls) ws x = if (latest? ws l x).isSome then l else holder ls ws x := by
  unfold holder
  rw [List.find?_cons]
  split <;> simp_all

theorem holder_mem {ls : List Layer} (h : .globals ∈ ls) (ws : List Write) (x : Name) :
    holder ls ws x ∈ ls := by
  unfold holder
  cases hl : ls.find? fun l => (latest? ws l x).isSome with
  | none => exact h
  | some l => exact List.mem_of_find?_eq_some hl

theorem isSome_of_holder {ls : List Layer} {ws : List Write} {x : Name}
    (h : holder ls ws x ≠ .globals) : (latest? ws (holder ls ws x) x).isSome := by
  induction ls with
  | nil => exact absurd rfl h
  | cons l ls ih =>
    rw [holder_cons] at h ⊢
    split
    · assumption
    · rw [if_neg ‹_›] at h
      exact ih h

/-- The layers inside the holder do not have the variable. -/
theorem holder_of_append {inner ls : List Layer} {ws : List Write} {x : Name}
    (h : holder (inner ++ ls) ws x ∉ inner) : holder (inner ++ ls) ws x = holder ls ws x := by
  induction inner with
  | nil => rfl
  | cons l inner ih =>
    rw [List.cons_append, holder_cons] at h ⊢
    split at h
    · exact absurd List.mem_cons_self h
    · rw [if_neg ‹_›]
      exact ih (fun hmem => h (List.mem_cons_of_mem l hmem))

theorem findSome?_latest?_holder {ls : List Layer} {ws : List Write} {x : Name}
    (h : holder ls ws x ∈ ls) (v : Value) :
    ls.findSome? (latest? (⟨holder ls ws x, x, v⟩ :: ws) · x) = some v := by
  induction ls with
  | nil => cases h
  | cons l ls ih =>
    rw [List.findSome?_cons, latest?_cons]
    by_cases hl : holder (l :: ls) ws x = l
    · rw [if_pos ⟨hl, rfl⟩]
    · have hnone : ¬ (latest? ws l x).isSome := by
        intro hsome
        exact hl (by rw [holder_cons, if_pos hsome])
      have hrest : holder (l :: ls) ws x = holder ls ws x := by rw [holder_cons, if_neg hnone]
      rw [hrest] at h hl ⊢
      rw [if_neg (fun hboth => hl hboth.1), Option.not_isSome_iff_eq_none.mp hnone]
      exact ih ((List.mem_cons.mp h).resolve_left hl)

/-! ## Scopes that hold what was written -/

/-- The scope holds what was last written to the layer. -/
def Scope.Records (ws : List Write) (l : Layer) (s : Scope) : Prop :=
  ∀ x, s.get? x = latest? ws l x

namespace Scope.Records

variable {ws : List Write} {l : Layer} {s : Scope}

theorem insert (h : s.Records ws l) (x : Name) (v : Value) :
    (s.insert x v).Records (⟨l, x, v⟩ :: ws) l := by
  intro y
  rw [Scope.get?_insert, latest?_cons, h y]
  simp [eq_comm]

theorem other (h : s.Records ws l) {w : Write} (hne : w.layer ≠ l) : s.Records (w :: ws) l := by
  intro y
  rw [h y, latest?_of_ne hne]

end Scope.Records

abbrev RecordAll (ws : List Write) (scopes : List Scope) (opened : List Nat) : Prop :=
  List.Forall₂ (fun s k => s.Records ws (.scope k)) scopes opened

namespace RecordAll

variable {ws : List Write} {scopes : List Scope} {opened : List Nat}

theorem other (h : RecordAll ws scopes opened) {w : Write}
    (hne : ∀ k ∈ opened, w.layer ≠ .scope k) : RecordAll (w :: ws) scopes opened := by
  induction h with
  | nil => exact .nil
  | cons hs _ ih =>
    obtain ⟨hk, hks⟩ := List.forall_mem_cons.mp hne
    exact .cons (hs.other hk) (ih hks)

theorem tail (h : RecordAll ws scopes opened) : RecordAll ws scopes.tail opened.tail := by
  cases h with
  | nil => exact .nil
  | cons _ hrest => exact hrest

theorem insert {s : Scope} {k : Nat} (h : RecordAll ws (s :: scopes) (k :: opened))
    (hk : k ∉ opened) (x : Name) (v : Value) :
    RecordAll (⟨.scope k, x, v⟩ :: ws) (s.insert x v :: scopes) (k :: opened) := by
  obtain ⟨hs, hrest⟩ := List.forall₂_cons.mp h
  refine .cons (hs.insert x v) (other hrest ?_)
  rintro j hj ⟨⟩
  exact hk hj

theorem lookupIn (h : RecordAll ws scopes opened) (x : Name) :
    Env.lookupIn x scopes = (opened.map .scope).findSome? fun l => latest? ws l x := by
  induction h with
  | nil => rfl
  | cons hs _ ih =>
    rw [Env.lookupIn, hs x, ih, List.map_cons, List.findSome?_cons]
    split <;> simp_all

/-- No scope is assigned to only when none of the layers has the variable. -/
theorem assignIn_eq_none (h : RecordAll ws scopes opened) {x : Name} {v : Value}
    (ha : Env.assignIn x v scopes = none) :
    holder (opened.map .scope ++ [.globals]) ws x = .globals := by
  induction h with
  | nil =>
    rw [List.map_nil, List.nil_append, holder_cons]
    split <;> rfl
  | cons hs _ ih =>
    rw [Env.assignIn, hs x] at ha
    rw [List.map_cons, List.cons_append, holder_cons]
    split at ha
    · cases ha
    · rw [if_neg ‹_›]
      exact ih (Option.map_eq_none_iff.mp ha)

/-- The scope that is assigned to is that of the innermost layer that has the variable. -/
theorem assignIn_eq_some (h : RecordAll ws scopes opened) (hnodup : opened.Nodup) {x : Name}
    {v : Value} {scopes' : List Scope} (ha : Env.assignIn x v scopes = some scopes') :
    (∃ k ∈ opened, holder (opened.map .scope ++ [.globals]) ws x = .scope k) ∧
      RecordAll (⟨holder (opened.map .scope ++ [.globals]) ws x, x, v⟩ :: ws) scopes' opened := by
  induction h generalizing scopes' with
  | nil => cases ha
  | @cons s k scopes opened hs hall ih =>
    obtain ⟨hk, hnodup⟩ := List.nodup_cons.mp hnodup
    rw [Env.assignIn, hs x] at ha
    rw [List.map_cons, List.cons_append, holder_cons]
    split at ha
    case isTrue hsome =>
      cases ha
      rw [if_pos hsome]
      exact ⟨⟨k, List.mem_cons_self, rfl⟩, insert (.cons hs hall) hk x v⟩
    case isFalse hnone =>
      obtain ⟨rest, hrest, rfl⟩ := Option.map_eq_some_iff.mp ha
      obtain ⟨⟨j, hj, hholder⟩, hrec⟩ := ih hnodup hrest
      rw [if_neg hnone]
      refine ⟨⟨j, List.mem_cons_of_mem k hj, hholder⟩, .cons (hs.other ?_) hrec⟩
      rw [hholder]
      rintro ⟨⟩
      exact hk hj

end RecordAll

/-! ## Layers of a history -/

namespace History

theorem openScopes_cons {op : EnvOp} (hopen : op ≠ .openScope) (hclose : op ≠ .closeScope)
    (past : List EnvOp) : openScopes (op :: past) = openScopes past := by
  cases op <;> first | rfl | contradiction

/-- A scope that is open after an operation was open before it or is opened by it. -/
theorem mem_openScopes_cons {op : EnvOp} {past : List EnvOp} {k : Nat}
    (h : k ∈ openScopes (op :: past)) : k = past.length ∨ k ∈ openScopes past := by
  cases op with
  | openScope => exact List.mem_cons.mp h
  | closeScope => exact .inr (List.mem_of_mem_tail h)
  | bindGlobal x v => exact .inr h
  | declare x v => exact .inr h
  | assign x v => exact .inr h

theorem openScopes_lt (past : List EnvOp) : ∀ k ∈ openScopes past, k < past.length := by
  induction past with
  | nil => exact List.forall_mem_nil _
  | cons op past ih =>
    intro k hk
    rcases mem_openScopes_cons hk with rfl | hk
    · exact Nat.lt_succ_self _
    · exact Nat.lt_succ_of_lt (ih k hk)

/-- A scope was opened after those around it. -/
theorem openScopes_pairwise (past : List EnvOp) : (openScopes past).Pairwise (· > ·) := by
  induction past with
  | nil => exact .nil
  | cons op past ih =>
    cases op with
    | openScope => exact .cons (openScopes_lt past) ih
    | closeScope => exact ih.tail
    | bindGlobal x v => exact ih
    | declare x v => exact ih
    | assign x v => exact ih

theorem openScopes_nodup (past : List EnvOp) : (openScopes past).Nodup :=
  (openScopes_pairwise past).imp (fun h => (Nat.ne_of_lt h).symm)

theorem globals_mem_layers (past : List EnvOp) : .globals ∈ layers past :=
  List.mem_append_right _ List.mem_cons_self

@[simp] theorem scope_mem_layers {past : List EnvOp} {k : Nat} :
    .scope k ∈ layers past ↔ k ∈ openScopes past := by
  simp [layers]

theorem head?_layers (past : List EnvOp) :
    (layers past).head? = some ((layers past).headD .globals) := by
  unfold layers
  cases openScopes past <;> rfl

theorem layer_mem_of_write? {op : EnvOp} {past : List EnvOp} {w : Write}
    (h : op.write? (layers past) (writes past) = some w) : w.layer ∈ layers past := by
  cases op with
  | openScope => cases h
  | closeScope => cases h
  | bindGlobal x v =>
    cases h
    exact globals_mem_layers past
  | declare x v =>
    cases h
    exact List.mem_of_head? (head?_layers past)
  | assign x v =>
    cases h
    exact holder_mem (globals_mem_layers past) (writes past) x

/-- Writes to a scope come after its opening. -/
theorem opened_lt_of_mem_writes {past : List EnvOp} {w : Write} {k : Nat} (hw : w ∈ writes past)
    (hk : w.layer = .scope k) : k < past.length := by
  induction past with
  | nil => cases hw
  | cons op past ih =>
    apply Nat.lt_succ_of_lt
    rcases List.mem_append.mp hw with hw | hw
    · have hmem := layer_mem_of_write? (Option.mem_toList.mp hw)
      rw [hk, scope_mem_layers] at hmem
      exact openScopes_lt past k hmem
    · exact ih hw

theorem latest?_new_scope (past : List EnvOp) (x : Name) :
    latest? (writes past) (.scope past.length) x = none := by
  apply latest?_eq_none
  intro w hw hlayer
  exact Nat.lt_irrefl past.length (opened_lt_of_mem_writes hw hlayer)

/-! ## The environment mirrors its history -/

/-- The globals and the open scopes hold what was last written to them. -/
structure Mirrors (env : Env) (past : List EnvOp) : Prop where
  globals : env.globals.Records (writes past) .globals
  scopes : RecordAll (writes past) env.scopes (openScopes past)

namespace Mirrors

variable {env : Env} {past : List EnvOp}

theorem openScope (h : Mirrors env past) : Mirrors env.openScope (.openScope :: past) := by
  refine ⟨h.globals, .cons ?_ h.scopes⟩
  intro x
  exact (latest?_new_scope past x).symm

theorem closeScope (h : Mirrors env past) : Mirrors env.closeScope (.closeScope :: past) :=
  ⟨h.globals, RecordAll.tail h.scopes⟩

theorem bindGlobal (h : Mirrors env past) {op : EnvOp} {x : Name} {v : Value}
    (hopen : openScopes (op :: past) = openScopes past)
    (hwrite : writes (op :: past) = ⟨.globals, x, v⟩ :: writes past) :
    Mirrors (env.bindGlobal x v) (op :: past) := by
  constructor
  · rw [hwrite]
    exact h.globals.insert x v
  · rw [hwrite, hopen]
    apply RecordAll.other h.scopes
    rintro k - ⟨⟩

theorem declare (h : Mirrors env past) (x : Name) (v : Value) :
    Mirrors (env.declare x v) (.declare x v :: past) := by
  have hscopes := h.scopes
  have hnodup := openScopes_nodup past
  obtain ⟨globals, scopes⟩ := env
  cases hopened : openScopes past with
  | nil =>
    rw [hopened] at hscopes
    cases hscopes
    refine h.bindGlobal rfl ?_
    simp [writes, EnvOp.write?, layers, hopened]
  | cons k opened =>
    have hwrite : writes (.declare x v :: past) = ⟨.scope k, x, v⟩ :: writes past := by
      simp [writes, EnvOp.write?, layers, hopened]
    rw [hopened] at hscopes hnodup
    cases hscopes with
    | cons hs hrest =>
      constructor
      · rw [hwrite]
        exact h.globals.other (by rintro ⟨⟩)
      · rw [hwrite, openScopes_cons (by rintro ⟨⟩) (by rintro ⟨⟩), hopened]
        exact RecordAll.insert (.cons hs hrest) (List.nodup_cons.mp hnodup).1 x v

theorem assign (h : Mirrors env past) (x : Name) (v : Value) :
    Mirrors (env.assign x v) (.assign x v :: past) := by
  unfold Env.assign
  cases ha : Env.assignIn x v env.scopes with
  | none =>
    refine h.bindGlobal rfl ?_
    rw [writes, EnvOp.write?, layers, RecordAll.assignIn_eq_none h.scopes ha]
    rfl
  | some scopes =>
    obtain ⟨⟨k, -, hholder⟩, hrec⟩ :=
      RecordAll.assignIn_eq_some h.scopes (openScopes_nodup past) ha
    refine ⟨h.globals.other ?_, hrec⟩
    rw [layers, hholder]
    rintro ⟨⟩

theorem apply (h : Mirrors env past) (op : EnvOp) : Mirrors (op.apply env) (op :: past) := by
  cases op with
  | openScope => exact h.openScope
  | closeScope => exact h.closeScope
  | bindGlobal x v => exact h.bindGlobal rfl rfl
  | declare x v => exact h.declare x v
  | assign x v => exact h.assign x v

end Mirrors

theorem mirrors_env (past : List EnvOp) : Mirrors (env past) past := by
  induction past with
  | nil => exact ⟨fun x => rfl, .nil⟩
  | cons op past ih => exact ih.apply op

theorem lookup_env (past : List EnvOp) (x : Name) : (env past).lookup x = lookup? past x := by
  have h := mirrors_env past
  rw [Env.lookup, RecordAll.lookupIn h.scopes x, h.globals x]
  rw [lookup?, layers, List.findSome?_append, List.findSome?_singleton]

-- A variable that was shadowed is back when the scope is closed.
example (u v : Value) :
    lookup? [.closeScope, .declare "x" v, .openScope, .declare "x" u] "x" = some u := rfl

/-! ## Scopes that are closed -/

/-- Operations that close each scope that they open, and no other one. -/
inductive Nested : List EnvOp → Prop
  | nil : Nested []
  | cons {op : EnvOp} {ops : List EnvOp} (hopen : op ≠ .openScope) (hclose : op ≠ .closeScope)
    (h : Nested ops) : Nested (op :: ops)
  | scope {inner ops : List EnvOp} (hinner : Nested inner) (h : Nested ops) :
    Nested (.closeScope :: inner ++ .openScope :: ops)

theorem Nested.openScopes_append {ops : List EnvOp} (h : Nested ops) (past : List EnvOp) :
    openScopes (ops ++ past) = openScopes past := by
  induction h generalizing past with
  | nil => rfl
  | cons hopen hclose _ ih => rw [List.cons_append, openScopes_cons hopen hclose, ih]
  | @scope inner ops _ _ ihinner ih =>
    have hsplit : .closeScope :: inner ++ .openScope :: ops ++ past =
      .closeScope :: (inner ++ .openScope :: (ops ++ past)) := by simp
    rw [hsplit, openScopes, ihinner, openScopes, List.tail_cons, ih]

/-- Every open scope was opened, and what was done in it since is nested. -/
theorem exists_opening {past : List EnvOp} {k : Nat} {opened : List Nat}
    (h : openScopes past = k :: opened) :
    ∃ inner before, past = inner ++ .openScope :: before ∧ Nested inner ∧
      openScopes before = opened := by
  induction hn : past.length using Nat.strongRecOn generalizing past k opened with
  | ind n ih =>
    subst hn
    cases past with
    | nil => cases h
    | cons op past =>
      by_cases hopen : op = .openScope
      · subst hopen
        cases h
        exact ⟨[], past, rfl, .nil, rfl⟩
      by_cases hclose : op = .closeScope
      · subst hclose
        rw [openScopes] at h
        cases hpast : openScopes past with
        | nil => simp [hpast] at h
        | cons j rest =>
          rw [hpast, List.tail_cons] at h
          obtain ⟨inner, mid, rfl, hinner, hmid⟩ := ih past.length (by simp) hpast rfl
          obtain ⟨ops, before, rfl, hops, hbefore⟩ :=
            ih mid.length (by simp; omega) (hmid.trans h) rfl
          exact ⟨.closeScope :: inner ++ .openScope :: ops, before, by simp, .scope hinner hops,
            hbefore⟩
      · rw [openScopes_cons hopen hclose] at h
        obtain ⟨inner, before, rfl, hinner, hbefore⟩ := ih past.length (by simp) h rfl
        exact ⟨op :: inner, before, rfl, .cons hopen hclose hinner, hbefore⟩

/-- Scopes do not open again. -/
theorem mem_openScopes_of_append (later : List EnvOp) {past : List EnvOp} {k : Nat}
    (hk : k < past.length) (h : k ∈ openScopes (later ++ past)) : k ∈ openScopes past := by
  induction later with
  | nil => exact h
  | cons op later ih =>
    apply ih
    rw [List.cons_append] at h
    rcases mem_openScopes_cons h with rfl | h
    · rw [List.length_append] at hk
      omega
    · exact h

/-- One of the operations declares the variable, in the layer. -/
def Declares (ops past : List EnvOp) (l : Layer) (x : Name) : Prop :=
  ∃ later v earlier, ops = later ++ .declare x v :: earlier ∧
    (layers (earlier ++ past)).head? = some l

theorem Declares.cons {ops past : List EnvOp} {l : Layer} {x : Name} (h : Declares ops past l x)
    (op : EnvOp) : Declares (op :: ops) past l x := by
  obtain ⟨later, v, earlier, rfl, hl⟩ := h
  exact ⟨op :: later, v, earlier, rfl, hl⟩

/-- Only a declaration makes a variable of a scope; an assignment finds it there. -/
theorem declares_of_isSome {ops past : List EnvOp} {l : Layer} {x : Name} (hl : l ≠ .globals)
    (hpast : latest? (writes past) l x = none)
    (h : (latest? (writes (ops ++ past)) l x).isSome) : Declares ops past l x := by
  induction ops with
  | nil => simp [hpast] at h
  | cons op ops ih =>
    by_cases hold : (latest? (writes (ops ++ past)) l x).isSome
    · exact (ih hold).cons op
    -- The variable is new, so that it is this operation that made it.
    rw [List.cons_append, writes] at h
    cases hw : op.write? (layers (ops ++ past)) (writes (ops ++ past)) with
    | none =>
      rw [hw] at h
      exact absurd h hold
    | some w =>
      rw [hw, Option.toList_some, List.singleton_append, latest?_cons] at h
      split at h
      case isFalse => exact absurd h hold
      case isTrue hmade =>
        obtain ⟨rfl, rfl⟩ := hmade
        cases op with
        | openScope => cases hw
        | closeScope => cases hw
        | bindGlobal y v =>
          cases hw
          exact absurd rfl hl
        | declare y v =>
          cases hw
          exact ⟨[], v, ops, rfl, head?_layers (ops ++ past)⟩
        | assign y v =>
          cases hw
          exact absurd (isSome_of_holder hl) hold

/-- A declaration goes to a scope that is opened no earlier than one that is still open. -/
theorem Declares.opened_le {ops past : List EnvOp} {l : Layer} {x : Name} {k : Nat}
    (h : Declares ops past l x) (hk : k < past.length) (hopen : k ∈ openScopes (ops ++ past)) :
    ∃ j, l = .scope j ∧ k ≤ j := by
  obtain ⟨later, v, earlier, rfl, hl⟩ := h
  have hmem : k ∈ openScopes (earlier ++ past) := by
    apply mem_openScopes_of_append (later ++ [.declare x v])
    · rw [List.length_append]
      omega
    · simpa using hopen
  have hsorted := openScopes_pairwise (earlier ++ past)
  rw [layers] at hl
  cases hopened : openScopes (earlier ++ past) with
  | nil => simp [hopened] at hmem
  | cons j rest =>
    rw [hopened] at hmem hsorted hl
    refine ⟨j, (Option.some.inj hl).symm, ?_⟩
    rcases List.mem_cons.mp hmem with rfl | hmem
    · exact Nat.le_refl _
    · exact Nat.le_of_lt ((List.pairwise_cons.mp hsorted).1 k hmem)

/-- Closing a scope ends the variables that were declared since it was opened, and no others. -/
theorem Nested.live_closeScope {inner : List EnvOp} (h : Nested inner) (before : List EnvOp)
    (l : Layer) (x : Name) (v : Value) :
    Live (.closeScope :: (inner ++ .openScope :: before)) l x v ↔
      Live (inner ++ .openScope :: before) l x v ∧ ¬ Declares inner (.openScope :: before) l x := by
  have hopened : openScopes (inner ++ .openScope :: before) = before.length :: openScopes before :=
    h.openScopes_append _
  have hlayers : layers (inner ++ .openScope :: before) =
      .scope before.length :: layers before := by
    rw [layers, hopened]
    rfl
  have hclosed : layers (.closeScope :: (inner ++ .openScope :: before)) = layers before := by
    rw [layers, openScopes, hopened]
    rfl
  have hwrites : writes (.closeScope :: (inner ++ .openScope :: before)) =
    writes (inner ++ .openScope :: before) := rfl
  rw [Live, Live, hclosed, hlayers, hwrites, List.mem_cons]
  constructor
  · rintro ⟨hl, hv⟩
    refine ⟨⟨.inr hl, hv⟩, ?_⟩
    intro hdecl
    have hmem : before.length ∈ openScopes (inner ++ .openScope :: before) := by simp [hopened]
    obtain ⟨j, rfl, hj⟩ := hdecl.opened_le (Nat.lt_succ_self _) hmem
    have hlt := openScopes_lt before j (scope_mem_layers.mp hl)
    omega
  · rintro ⟨⟨rfl | hl, hv⟩, hdecl⟩
    · have hnew : latest? (writes (.openScope :: before)) (.scope before.length) x = none :=
        latest?_new_scope before x
      exact absurd (declares_of_isSome (by rintro ⟨⟩) hnew (Option.isSome_of_eq_some hv)) hdecl
    · exact ⟨hl, hv⟩

theorem openScopes_closeScopes (n : Nat) (past : List EnvOp) :
    openScopes (List.replicate n .closeScope ++ past) = (openScopes past).drop n := by
  induction n with
  | zero => rfl
  | succ n ih => rw [List.replicate_succ, List.cons_append, openScopes, ih, List.tail_drop]

theorem writes_closeScopes (n : Nat) (past : List EnvOp) :
    writes (List.replicate n .closeScope ++ past) = writes past := by
  induction n with
  | zero => rfl
  | succ n ih =>
    rw [List.replicate_succ, List.cons_append, writes, ih]
    rfl

theorem layers_nodup (past : List EnvOp) : (layers past).Nodup := by
  have hscopes : ((openScopes past).map Layer.scope).Nodup :=
    (openScopes_nodup past).map (fun j k h => Layer.scope.inj h)
  apply hscopes.append (List.nodup_singleton _)
  simp

/-- An assignment lasts as long as the layer that it went to is open. -/
theorem lookup?_closeScopes_assign {past : List EnvOp} {x : Name} {n : Nat}
    (h : holder (layers past) (writes past) x ∈ layers (List.replicate n .closeScope ++ past))
    (v : Value) :
    lookup? (List.replicate n .closeScope ++ .assign x v :: past) x = some v := by
  have hopened : openScopes (List.replicate n .closeScope ++ .assign x v :: past) =
      openScopes (List.replicate n .closeScope ++ past) := by
    rw [openScopes_closeScopes, openScopes_closeScopes]
    rfl
  have hsplit : layers past = ((openScopes past).take n).map Layer.scope ++
      layers (List.replicate n .closeScope ++ past) := by
    rw [layers, layers, openScopes_closeScopes, ← List.append_assoc, ← List.map_append,
      List.take_append_drop]
  -- The layer is not among those that were closed, so it holds the variable for the others too.
  have hholder : holder (layers past) (writes past) x =
      holder (layers (List.replicate n .closeScope ++ past)) (writes past) x := by
    have hnodup := layers_nodup past
    rw [hsplit] at h hnodup ⊢
    exact holder_of_append (fun hmem => List.disjoint_of_nodup_append hnodup hmem h)
  rw [lookup?, writes_closeScopes, layers, hopened, ← layers]
  show List.findSome?
    (latest? (⟨holder (layers past) (writes past) x, x, v⟩ :: writes past) · x) _ = some v
  rw [hholder] at h ⊢
  exact findSome?_latest?_holder h v

theorem env_closeScope {past : List EnvOp} (h : openScopes past = []) :
    env (.closeScope :: past) = env past := by
  have hscopes := (mirrors_env past).scopes
  rw [h] at hscopes
  have hnil : (env past).scopes = [] := List.forall₂_nil_right_iff.mp hscopes
  show { env past with scopes := (env past).scopes.tail } = env past
  rw [hnil, List.tail_nil, ← hnil]

end History

open History

/-- Scoping is lexical. After any operations the scopes hold what was last written to their layers,
and a variable is what was last written to it in the innermost layer that has it. An assignment
changes its variable and no other, and lasts until the layer that it went to is closed. To close a
scope ends the variables that were declared since it was opened and no others, and does nothing when
no scope is open. -/
theorem scoping_is_lexical (past : List EnvOp) :
    Mirrors (env past) past ∧
      (∀ x, (env past).lookup x = lookup? past x) ∧
      (∀ x v y, (env (.assign x v :: past)).lookup y =
        if y = x then some v else (env past).lookup y) ∧
      (∀ x v n, holder (layers past) (writes past) x ∈
          layers (List.replicate n .closeScope ++ past) →
        (env (List.replicate n .closeScope ++ .assign x v :: past)).lookup x = some v) ∧
      (openScopes past = [] → env (.closeScope :: past) = env past) ∧
      (openScopes past ≠ [] →
        ∃ inner before, past = inner ++ .openScope :: before ∧ Nested inner) ∧
      ∀ inner before, past = inner ++ .openScope :: before → Nested inner → ∀ l x v,
        Live (.closeScope :: past) l x v ↔
          Live past l x v ∧ ¬ Declares inner (.openScope :: before) l x := by
  refine ⟨mirrors_env past, lookup_env past, ?_, ?_, env_closeScope, ?_, ?_⟩
  · intro x v y
    exact Env.lookup_assign (env past) x y v
  · intro x v n h
    rw [lookup_env]
    exact lookup?_closeScopes_assign h v
  · intro h
    obtain ⟨k, opened, hopened⟩ := List.exists_cons_of_ne_nil h
    obtain ⟨inner, before, hpast, hinner, -⟩ := exists_opening hopened
    exact ⟨inner, before, hpast, hinner⟩
  · rintro inner before rfl hinner l x v
    exact hinner.live_closeScope before l x v

end LoopLowering
