import Inference.Arena

/-!
# Registries

A registry stores an item under a key the first time the key is used, and
answers every later insertion under that key with the id of the stored item. The
items are in an arena, in the order in which they were stored, and an index
beside the arena finds the id that a key has.

What the registry holds is determined by the list of its first insertions. The
index finds the keys of that list at their positions, and the arena has its
items, so registries are compared by comparing both.
-/

namespace Inference

/-- The ids of the keys, and the items that the ids name. -/
structure Registry (κ α : Type) where
  index : List (κ × Nat)
  items : Arena α

namespace Registry

variable {κ α : Type}

/-- The registry without items. -/
def empty : Registry κ α := ⟨[], ∅⟩

instance : EmptyCollection (Registry κ α) := ⟨empty⟩

instance : Inhabited (Registry κ α) := ⟨empty⟩

/-- The item with this id. -/
def get? (registry : Registry κ α) (id : Nat) : Option α := registry.items.get? id

/-- The id of the item stored under a key. -/
def find? [DecidableEq κ] (registry : Registry κ α) (key : κ) : Option Nat :=
  registry.index.lookup key

/-- Store an item under a new key and return its id. A key that is taken is an error, which
carries the id of the stored item and hands the new item back. The error carries no registry: the
caller keeps the registry as it was. -/
def insert [DecidableEq κ] (registry : Registry κ α) (key : κ) (item : α) :
    Except (Nat × α) (Nat × Registry κ α) :=
  match registry.find? key with
  | some id => .error (id, item)
  | none =>
      let (id, items) := registry.items.insert item
      .ok (id, ⟨(key, id) :: registry.index, items⟩)

/-- Store an item under itself, unless that key is taken; return the id under the key. -/
def intern [DecidableEq α] (registry : Registry α α) (item : α) : Nat × Registry α α :=
  match registry.insert item item with
  | .ok (id, grown) => (id, grown)
  | .error (id, _) => (id, registry)

/-- Registries count as the same if they have the same items, as many keys, and every key of one
has the same id in the other. The order of the index does not matter. -/
instance [DecidableEq κ] [DecidableEq α] : BEq (Registry κ α) :=
  ⟨fun left right => decide (left.items = right.items) &&
    (left.index.length == right.index.length &&
      left.index.all fun (key, id) => right.find? key == some id)⟩

end Registry

end Inference
