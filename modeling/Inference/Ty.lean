/-!
# Types

A type is a handle. Variables and primitives say all there is to say about
themselves, while every other handle names a node of a type graph by its kind
and its position. Two handles are equal when their kinds and numbers are, so
equality costs nothing.

Handles are totally ordered, first by kind and then by number. The order is
what makes a union a canonical list of its cases.
-/

namespace Inference

/-- A type variable, known by its number alone. -/
structure Variable where
  id : Nat
  deriving DecidableEq

/-- The types that have no parts and need no declaration. -/
inductive Primitive where
  | int
  | float
  | bool
  | string
  | nothing
  deriving DecidableEq

/-- A type handle. The kinds other than `var` and `primitive` carry the position of a node of
their kind; nothing in the handle says that the node exists. -/
inductive Ty where
  | var (subject : Variable)
  | function (id : Nat)
  | tuple (id : Nat)
  | union (id : Nat)
  | metatype (id : Nat)
  | primitive (kind : Primitive)
  | named (id : Nat)
  deriving DecidableEq

instance : Inhabited Ty := ⟨.primitive .nothing⟩

/-- Variables are ordered by their numbers. -/
instance : LT Variable := ⟨fun left right => left.id < right.id⟩

instance : DecidableLT Variable := fun left right => inferInstanceAs (Decidable (left.id < right.id))

instance : Ord Variable := ⟨fun left right => compare left.id right.id⟩


namespace Primitive

/-- Every primitive type, in increasing order. -/
def all : List Primitive := [.int, .float, .bool, .string, .nothing]

/-- The name that types and stored data show. -/
def name : Primitive → String
  | int => "Int"
  | float => "Float"
  | bool => "Bool"
  | string => "String"
  | nothing => "Nothing"

/-- The primitive type of this name. -/
def ofName? (text : String) : Option Primitive := all.find? (·.name = text)

/-- The position among all primitive types. -/
def rank : Primitive → Nat
  | int => 0
  | float => 1
  | bool => 2
  | string => 3
  | nothing => 4

instance : Ord Primitive := ⟨fun left right => compare left.rank right.rank⟩

end Primitive

namespace Ty

/-- The position of the handle's kind among all kinds. -/
def rank : Ty → Nat
  | var _ => 0
  | function _ => 1
  | tuple _ => 2
  | union _ => 3
  | metatype _ => 4
  | primitive _ => 5
  | named _ => 6

/-- The number within the handle's kind. -/
def number : Ty → Nat
  | var subject => subject.id
  | function id => id
  | tuple id => id
  | union id => id
  | metatype id => id
  | primitive kind => kind.rank
  | named id => id

/-- A handle comes before another of a later kind, and before one of its own kind with a greater
number. -/
instance : LT Ty :=
  ⟨fun left right => left.rank < right.rank ∨
    left.rank = right.rank ∧ left.number < right.number⟩

theorem lt_iff {left right : Ty} :
    left < right ↔ left.rank < right.rank ∨
      left.rank = right.rank ∧ left.number < right.number :=
  Iff.rfl

instance : DecidableLT Ty := fun _ _ => decidable_of_iff' _ lt_iff

instance : Ord Ty := ⟨fun left right => compareOfLessAndEq left right⟩

/-- Kind and number determine the handle. -/
theorem eq_of_rank_of_number {left right : Ty} (hrank : left.rank = right.rank)
    (hnumber : left.number = right.number) : left = right := by
  cases left <;> cases right <;> simp_all [rank, number]
  case var left right => cases left; cases right; simp_all
  case primitive left right => cases left <;> cases right <;> simp_all [Primitive.rank]

instance : Std.Irrefl (α := Ty) (· < ·) := ⟨fun ty h => by rw [lt_iff] at h; omega⟩

instance : Trans (α := Ty) (· < ·) (· < ·) (· < ·) where
  trans := fun {first second third} h h' => by rw [lt_iff] at h h' ⊢; omega

instance : Std.Trichotomous (α := Ty) (· < ·) where
  trichotomous left right h h' := by
    rw [lt_iff] at h h'
    exact eq_of_rank_of_number (by omega) (by omega)

/-! ## Handles by kind -/

/-- The variable that the handle is. -/
def var? : Ty → Option Variable
  | var subject => some subject
  | _ => none

/-- The position of the function node that the handle names. -/
def function? : Ty → Option Nat
  | function id => some id
  | _ => none

/-- The position of the tuple node that the handle names. -/
def tuple? : Ty → Option Nat
  | tuple id => some id
  | _ => none

/-- The position of the union node that the handle names. -/
def union? : Ty → Option Nat
  | union id => some id
  | _ => none

/-- The position of the metatype node that the handle names. -/
def metatype? : Ty → Option Nat
  | metatype id => some id
  | _ => none

/-- The primitive type that the handle is. -/
def primitive? : Ty → Option Primitive
  | primitive kind => some kind
  | _ => none

/-- The position of the opaque named type that the handle names. -/
def named? : Ty → Option Nat
  | named id => some id
  | _ => none

end Ty

end Inference
