/-!
# Arenas

An arena keeps items in the order in which they were inserted and names each of
them by its position. Items are never removed, so an id that was handed out
stays valid, and interning hands out the id of an equal item that is already
there.
-/

namespace Inference

/-- Items in insertion order; the id of an item is its position. -/
structure Arena (α : Type) where
  items : Array α
  deriving DecidableEq

namespace Arena

variable {α : Type}

/-- The arena without items. -/
def empty : Arena α := ⟨#[]⟩

instance : EmptyCollection (Arena α) := ⟨empty⟩

instance : Inhabited (Arena α) := ⟨empty⟩

/-- The number of items. -/
def size (arena : Arena α) : Nat := arena.items.size

/-- Whether there is no item. -/
def isEmpty (arena : Arena α) : Bool := arena.items.isEmpty

/-- The item with this id, if the id was handed out. -/
def get? (arena : Arena α) (id : Nat) : Option α := arena.items[id]?

/-- Insert an item after all others, and return its id. -/
def insert (arena : Arena α) (item : α) : Nat × Arena α :=
  (arena.size, ⟨arena.items.push item⟩)

/-- Replace the item with this id, and return the item it replaces. -/
def set? (arena : Arena α) (id : Nat) (item : α) : Option (α × Arena α) :=
  (arena.get? id).map fun previous => (previous, ⟨arena.items.setIfInBounds id item⟩)

/-- The id of the first of the last items that satisfies a test; the number of the last items is
given. -/
def findAmongLast? (arena : Arena α) (test : α → Bool) : Nat → Option Nat
  | 0 => none
  | remaining + 1 =>
      let id := arena.size - (remaining + 1)
      if (arena.get? id).any test then some id else arena.findAmongLast? test remaining

/-- The id of the first item that satisfies a test. -/
def find? (arena : Arena α) (test : α → Bool) : Option Nat :=
  arena.findAmongLast? test arena.size

/-- The id of an equal item if there is one, and otherwise of the item newly inserted. -/
def intern [DecidableEq α] (arena : Arena α) (item : α) : Nat × Arena α :=
  match arena.find? (· = item) with
  | some id => (id, arena)
  | none => arena.insert item

/-- Arenas are ordered lexicographically by their items. -/
instance [Ord α] : Ord (Arena α) :=
  ⟨fun left right => List.compareLex compare left.items.toList right.items.toList⟩

/-! ## Lookup after each operation -/

@[simp]
theorem get?_empty (id : Nat) : (empty : Arena α).get? id = none := by
  simp [empty, get?]

theorem get?_insert (arena : Arena α) (item : α) (id : Nat) :
    (arena.insert item).2.get? id = if id = arena.size then some item else arena.get? id :=
  Array.getElem?_push

theorem get?_set? {arena updated : Arena α} {id : Nat} {item previous : α}
    (hset : arena.set? id item = some (previous, updated)) (other : Nat) :
    updated.get? other = if other = id then some item else arena.get? other := by
  simp only [set?, Option.map_eq_some_iff, Prod.mk.injEq] at hset
  obtain ⟨found, hfound, rfl, rfl⟩ := hset
  simp only [get?] at hfound ⊢
  have hlt : id < arena.items.size := (Array.getElem?_eq_some_iff.mp hfound).1
  rw [Array.getElem?_setIfInBounds]
  by_cases h : other = id
  · subst h; simp [hlt]
  · simp [h, Ne.symm h]

theorem findAmongLast?_eq (arena : Arena α) (test : α → Bool) {remaining : Nat}
    (hle : remaining ≤ arena.size) :
    arena.findAmongLast? test remaining =
      ((arena.items.toList.drop (arena.size - remaining)).findIdx? test).map
        (· + (arena.size - remaining)) := by
  induction remaining with
  | zero =>
      rw [List.drop_eq_nil_of_le (by simp [size])]
      rfl
  | succ remaining ih =>
      have hlt : arena.size - (remaining + 1) < arena.items.toList.length := by
        simp only [size, Array.length_toList] at hle ⊢
        omega
      have hnext : arena.size - (remaining + 1) + 1 = arena.size - remaining := by omega
      rw [List.drop_eq_getElem_cons hlt, hnext, List.findIdx?_cons, findAmongLast?,
        ih (by omega), get?, ← Array.getElem?_toList, List.getElem?_eq_getElem hlt]
      simp only [Option.any_some]
      split
      · simp
      · rw [Option.map_map]
        congr 1
        funext position
        simp only [Function.comp_apply]
        omega

/-- The first item that satisfies a test is the first one in the list of the items. -/
theorem find?_eq (arena : Arena α) (test : α → Bool) :
    arena.find? test = arena.items.toList.findIdx? test := by
  rw [find?, findAmongLast?_eq arena test (Nat.le_refl _)]
  simp

theorem get?_intern [DecidableEq α] (arena : Arena α) (item : α) :
    (arena.intern item).2.get? (arena.intern item).1 = some item := by
  unfold intern
  cases hfind : arena.find? (· = item) with
  | none => exact (get?_insert arena item arena.size).trans (if_pos rfl)
  | some id =>
      rw [find?_eq] at hfind
      obtain ⟨hlt, hitem, -⟩ := List.findIdx?_eq_some_iff_getElem.mp hfind
      rw [get?, ← Array.getElem?_toList, List.getElem?_eq_getElem hlt]
      simpa using hitem

end Arena

end Inference
