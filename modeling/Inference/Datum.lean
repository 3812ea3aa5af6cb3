/-!
# Stored data

A datum is what types and nodes are stored as. Structures are records, or lists
of their fields in order; alternatives are named by a text or by a record with a
single field. The readers below say which data stand for which value; the data
that are written are the records.
-/

namespace Inference

/-- A stored datum. Numbers that are negative or have a fraction are kept apart from the natural
numbers, because no value is stored as one of them. -/
inductive Datum where
  | null
  | bool (value : Bool)
  | natural (value : Nat)
  | otherNumber
  | text (value : String)
  | list (items : List Datum)
  | record (fields : List (String × Datum))

instance : Inhabited Datum := ⟨.null⟩

namespace Datum

/-- The numbers that positions and variables can have are below this bound. -/
def numberBound : Nat := UInt64.size

/-- A number of a position or a variable. -/
def number? : Datum → Option Nat
  | natural value => if value < numberBound then some value else none
  | _ => none

/-- A text. -/
def text? : Datum → Option String
  | text value => some value
  | _ => none

/-- The items of a list. -/
def items? : Datum → Option (List Datum)
  | list items => some items
  | _ => none

/-- The fields of a record that have one of these names. -/
def ownFields (names : List String) (fields : List (String × Datum)) : List (String × Datum) :=
  fields.filter fun field => field.1 ∈ names

/-- The fields of a structure, in order. A record may leave fields out and may have others, which
count for nothing, but it has no field of the structure twice; a list has exactly the fields of the
structure. -/
def fields? (names : List String) : Datum → Option (List (Option Datum))
  | record fields =>
      let own := ownFields names fields
      if (own.map (·.1)).Nodup then some (names.map fun name => own.lookup name) else none
  | list items => if items.length = names.length then some (items.map some) else none
  | _ => none

/-- An alternative: its name and what it holds, if it holds something. -/
def alternative? : Datum → Option (String × Option Datum)
  | text name => some (name, none)
  | record [(name, content)] => some (name, some content)
  | _ => none

/-- A field that may be left out or hold nothing. -/
def optionalText? : Option Datum → Option (Option String)
  | none => some none
  | some null => some none
  | some (text value) => some (some value)
  | some _ => none

/-- A text that may be absent, as it is written. -/
def ofOptionalText : Option String → Datum
  | none => null
  | some value => text value

end Datum

/-- Types whose values are written as data and read back. -/
class Storable (α : Type) where
  toDatum : α → Datum
  ofDatum? : Datum → Option α

export Storable (toDatum ofDatum?)

/-- A list is written item by item. -/
instance {α : Type} [Storable α] : Storable (List α) where
  toDatum items := .list (items.map toDatum)
  ofDatum? datum := do (← datum.items?).mapM ofDatum?

end Inference
