import LoopLowering.Run.Value

/- The environment. The environment has global variables and a stack of scopes. A
   declaration binds in the innermost scope, an assignment writes the innermost
   binding that there is, and both fall back on the globals.

   `Scope.get?_insert` says what a scope holds after a write. `Env.lookup_declare`
   and `Env.lookup_assign` say what a variable is after a declaration and after an
   assignment. -/
namespace LoopLowering

/-- Names and their values, each name once. -/
structure Scope where
  entries : List (Name × Value)
  nodup : (entries.map Prod.fst).Nodup
  deriving DecidableEq, Repr

namespace Scope

def empty : Scope := ⟨[], .nil⟩

def names (s : Scope) : List Name :=
  s.entries.map Prod.fst

def get? (s : Scope) (x : Name) : Option Value :=
  s.entries.lookup x

@[simp] theorem get?_empty (x : Name) : empty.get? x = none := rfl

/-- The entries with one of them replaced, or added when the name has none. -/
def insertEntry (x : Name) (v : Value) : List (Name × Value) → List (Name × Value)
  | [] => [(x, v)]
  | (y, w) :: rest => if x = y then (y, v) :: rest else (y, w) :: insertEntry x v rest

theorem map_fst_insertEntry (x : Name) (v : Value) (es : List (Name × Value)) :
    (insertEntry x v es).map Prod.fst =
      if x ∈ es.map Prod.fst then es.map Prod.fst else es.map Prod.fst ++ [x] := by
  induction es with
  | nil => rfl
  | cons e es ih =>
    obtain ⟨y, w⟩ := e
    by_cases h : x = y
    · simp [insertEntry, h]
    · simp only [insertEntry, h, if_false, List.map_cons, ih, List.mem_cons, false_or]
      split <;> rfl

theorem nodup_insertEntry {es : List (Name × Value)} (h : (es.map Prod.fst).Nodup) (x : Name)
    (v : Value) : ((insertEntry x v es).map Prod.fst).Nodup := by
  rw [map_fst_insertEntry]
  split
  · exact h
  · next hx =>
    refine List.nodup_append.mpr ⟨h, List.pairwise_singleton _ x, ?_⟩
    intro y hy z hz heq
    rw [List.mem_singleton.mp hz] at heq
    exact hx (heq ▸ hy)

/-- Binds a name, in place of an earlier binding. -/
def insert (s : Scope) (x : Name) (v : Value) : Scope :=
  ⟨insertEntry x v s.entries, nodup_insertEntry s.nodup x v⟩

theorem names_insert (s : Scope) (x : Name) (v : Value) :
    (s.insert x v).names = if x ∈ s.names then s.names else s.names ++ [x] :=
  map_fst_insertEntry x v s.entries

theorem lookup_insertEntry (x y : Name) (v : Value) (es : List (Name × Value)) :
    (insertEntry x v es).lookup y = if y = x then some v else es.lookup y := by
  induction es with
  | nil => grind [insertEntry]
  | cons e es ih => grind [insertEntry]

@[simp] theorem get?_insert (s : Scope) (x y : Name) (v : Value) :
    (s.insert x v).get? y = if y = x then some v else s.get? y :=
  lookup_insertEntry x y v s.entries

end Scope

/-- Global variables and the open scopes, the innermost one first. -/
structure Env where
  globals : Scope := .empty
  scopes : List Scope := []
  deriving DecidableEq, Repr

namespace Env

def depth (env : Env) : Nat :=
  env.scopes.length

def openScope (env : Env) : Env :=
  { env with scopes := .empty :: env.scopes }

/-- Closes the innermost scope, if one is open. -/
def closeScope (env : Env) : Env :=
  { env with scopes := env.scopes.tail }

def bindGlobal (env : Env) (x : Name) (v : Value) : Env :=
  { env with globals := env.globals.insert x v }

/-- Binds a variable in the innermost scope, or as a global when no scope is open. -/
def declare (env : Env) (x : Name) (v : Value) : Env :=
  match env.scopes with
  | [] => env.bindGlobal x v
  | s :: rest => { env with scopes := s.insert x v :: rest }

/-- The value of the innermost binding among scopes. -/
def lookupIn (x : Name) : List Scope → Option Value
  | [] => none
  | s :: rest => (s.get? x).or (lookupIn x rest)

/-- The scopes with the innermost binding of a name overwritten, if there is one. -/
def assignIn (x : Name) (v : Value) : List Scope → Option (List Scope)
  | [] => none
  | s :: rest =>
    if (s.get? x).isSome then some (s.insert x v :: rest)
    else (assignIn x v rest).map (s :: ·)

/-- Overwrites the innermost binding of a variable, or binds a global when there is none. -/
def assign (env : Env) (x : Name) (v : Value) : Env :=
  match assignIn x v env.scopes with
  | some scopes => { env with scopes := scopes }
  | none => env.bindGlobal x v

/-- The value of a variable: that of its innermost binding. -/
def lookup (env : Env) (x : Name) : Option Value :=
  (lookupIn x env.scopes).or (env.globals.get? x)

/-- Declares names with values; a name without a value starts as nil. -/
def declareAll (env : Env) : List Name → List Value → Env
  | [], _ => env
  | x :: xs, vs => (env.declare x (vs.head?.getD .nil)).declareAll xs vs.tail

theorem lookup_bindGlobal (env : Env) (x y : Name) (v : Value) :
    (env.bindGlobal x v).lookup y =
      (lookupIn y env.scopes).or (if y = x then some v else env.globals.get? y) := by
  simp [lookup, bindGlobal]

theorem lookup_declare (env : Env) (x y : Name) (v : Value) :
    (env.declare x v).lookup y = if y = x then some v else env.lookup y := by
  rcases env with ⟨globals, _ | ⟨s, rest⟩⟩ <;> by_cases h : y = x <;>
    simp [declare, lookup, lookupIn, bindGlobal, h]

theorem lookupIn_assignIn {x y : Name} {v : Value} {ss ss' : List Scope}
    (h : assignIn x v ss = some ss') :
    lookupIn y ss' = if y = x then some v else lookupIn y ss := by
  induction ss generalizing ss' with
  | nil => simp [assignIn] at h
  | cons s rest ih =>
    unfold assignIn at h
    split at h
    · cases h
      by_cases hy : y = x <;> simp [lookupIn, hy]
    · obtain ⟨r, hr, rfl⟩ := Option.map_eq_some_iff.1 h
      by_cases hy : y = x
      · subst hy
        simp_all [lookupIn]
      · simp [lookupIn, ih hr, hy]

theorem lookupIn_eq_none_of_assignIn {x : Name} {v : Value} {ss : List Scope}
    (h : assignIn x v ss = none) : lookupIn x ss = none := by
  induction ss with
  | nil => rfl
  | cons s rest ih =>
    unfold assignIn at h
    split at h
    · cases h
    · simp_all [lookupIn]

theorem lookup_assign (env : Env) (x y : Name) (v : Value) :
    (env.assign x v).lookup y = if y = x then some v else env.lookup y := by
  unfold assign
  split
  case h_1 scopes h =>
    by_cases hy : y = x <;> simp [lookup, lookupIn_assignIn h, hy]
  case h_2 h =>
    by_cases hy : y = x
    · subst hy
      simp [lookup, bindGlobal, lookupIn_eq_none_of_assignIn h]
    · simp [lookup, bindGlobal, hy]

end Env

end LoopLowering
