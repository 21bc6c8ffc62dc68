import LoopLowering.Word
import LoopLowering.Loop

/- Plain data. Trees are exchanged as plain data: lists, records with named fields,
   and the usual scalars. This module has the data type, and the errors and the
   elementary readers that decoding is built from. -/
namespace LoopLowering

/-- Plain data. No tree holds a number that is written with a fraction or an exponent, so of such a
number nothing is kept. -/
inductive Data where
  | null
  | bool (value : Bool)
  | int (value : Int)
  | decimal
  | str (value : String)
  | list (items : List Data)
  | record (fields : List (String × Data))
  deriving Inhabited, Repr

/-- Why data cannot be read as a tree: it has the wrong shape, or it describes a loop node that
cannot be built. -/
inductive DecodeError where
  | shape
  | loop (error : BuildError)
  deriving DecidableEq, Repr

namespace Data

/-- A variant with contents: a record whose only field names the variant. -/
def variant (tag : String) (contents : Data) : Data :=
  .record [(tag, contents)]

def toBool : Data → Except DecodeError Bool
  | .bool b => .ok b
  | _ => .error .shape

/-- Reads an integer of 64 bits. -/
def toWord : Data → Except DecodeError Int64
  | .int n => (toWord? n).elim (.error .shape) .ok
  | _ => .error .shape

def toText : Data → Except DecodeError String
  | .str s => .ok s
  | _ => .error .shape

/-- Reads the tag of a variant without contents: the tag alone, or a record with null for contents. -/
def toTag : Data → Except DecodeError String
  | .str tag => .ok tag
  | .record [(tag, .null)] => .ok tag
  | _ => .error .shape

def toTexts : Data → Except DecodeError (List String)
  | .list items => items.mapM toText
  | _ => .error .shape

/-- The contents of a field, with the evidence that they are a part of the record. -/
def field? : (fields : List (String × Data)) → (key : String) →
    Option { d : Data // (key, d) ∈ fields }
  | [], _ => none
  | (k, d) :: rest, key =>
    if h : k = key then some ⟨d, by simp [h]⟩
    else (field? rest key).map fun x => ⟨x.1, List.mem_cons_of_mem _ x.2⟩

/-- Reads a field that is there with the given reader; a field that is not there gives nothing. -/
def read? (fields : List (String × Data)) (key : String)
    (read : (d : Data) → (key, d) ∈ fields → Except DecodeError α) :
    Except DecodeError (Option α) :=
  match field? fields key with
  | some ⟨d, h⟩ => (read d h).map some
  | none => .ok none

/-- Reads the element at a position, which must be there, with the given reader. -/
def readAt (items : List Data) (i : Nat)
    (read : (d : Data) → d ∈ items → Except DecodeError α) : Except DecodeError α :=
  if h : i < items.length then read items[i] (List.getElem_mem h) else .error .shape

def requireLength (items : List Data) (n : Nat) : Except DecodeError Unit :=
  if items.length = n then .ok () else .error .shape

/-- What data that may be null is read as: nothing for null, and else the given reading. -/
def unlessNull (d : Data) (reading : Except DecodeError α) : Except DecodeError (Option α) :=
  match d with
  | .null => .ok none
  | _ => reading.map some

def require : Option α → Except DecodeError α
  | some a => .ok a
  | none => .error .shape

theorem sizeOf_lt_of_mem {fields : List (String × Data)} {key : String} {d : Data}
    (h : (key, d) ∈ fields) : sizeOf d < sizeOf fields := by
  have h₁ := List.sizeOf_lt_of_mem h
  have h₂ : sizeOf (key, d) = 1 + sizeOf key + sizeOf d := rfl
  omega

end Data

end LoopLowering
