import Inference.Proofs.FirstInsertions
import Inference.Proofs.WellFormed

/-!
# Interners

A graph looks for an equal branch among all branches of a kind, from the first one on.
A registry that stores each branch under itself finds it by its index instead. Both
give the same ids and hold the same branches (`Registry.Indexes.intern`). So a graph may
be taken to have such a registry for each kind of branch: whatever is interned, they
answer alike (`Interners.Index.intern`), and every well-formed graph has them
(`Graph.WellFormed.index`).
-/

namespace Inference

/-! ## One kind of item -/

namespace Registry

variable {α : Type} {registry : Registry α α} {arena : Arena α}

/-- The registry holds the items of the arena, each of them stored under itself. -/
def Indexes (registry : Registry α α) (arena : Arena α) : Prop :=
  registry.Represents (arena.items.toList.map fun item => (item, item))

theorem Indexes.items_eq (hindexes : registry.Indexes arena) : registry.items = arena := by
  have hitems := hindexes.items
  rw [List.map_map] at hitems
  exact congrArg Arena.mk (Array.toList_inj.mp (hitems.trans (List.map_id _)))

/-- The position of a key is that of the equal item. -/
theorem getElem?_keys (arena : Arena α) (id : Nat) :
    ((arena.items.toList.map fun item => (item, item)).map Prod.fst)[id]? = arena.get? id := by
  rw [List.map_map, Arena.get?, ← Array.getElem?_toList]
  exact congrArg (·[id]?) (List.map_id arena.items.toList)

variable [DecidableEq α]

/-- Searching the arena gives the id that the index gives, and both hold the same items again. -/
theorem Indexes.intern (hindexes : registry.Indexes arena) (item : α) :
    (registry.intern item).1 = (arena.intern item).1 ∧
      (registry.intern item).2.Indexes (arena.intern item).2 := by
  obtain ⟨id, hid, hfound⟩ | ⟨hnew, hadded⟩ := arena.intern_cases item
  · have hinsert : registry.insert item item = .error (id, item) :=
      hindexes.insert_taken ((getElem?_keys arena id).trans hid) item
    rw [Registry.intern, hinsert, hfound]
    exact ⟨rfl, hindexes⟩
  · have hmem : item ∉ (arena.items.toList.map fun item => (item, item)).map Prod.fst := by
      rw [List.mem_iff_getElem?, not_exists]
      intro id
      rw [getElem?_keys]
      exact hnew id
    obtain ⟨grown, hinsert, hgrown⟩ := hindexes.insert_new hmem item
    rw [Registry.intern, hinsert, hadded]
    refine ⟨?_, ?_⟩
    · rw [List.length_map, Array.length_toList]
      rfl
    · rw [Indexes, Arena.insert, Array.toList_push, List.map_append]
      exact hgrown

/-- Distinct items are first insertions, one after the other. -/
theorem firstInsertions_intern {items : List α} (hnodup : items.Nodup) :
    firstInsertions (items.map Request.intern) = items.map fun item => (item, item) := by
  induction items using List.reverseRecOn with
  | nil => rfl
  | append_singleton items item ih =>
      obtain ⟨hitem, hitems⟩ := List.nodup_cons.mp (List.nodup_append_comm.mp hnodup)
      have hnew : item ∉ (items.map fun item => (item, item)).map Prod.fst := by
        rw [List.map_map]
        exact fun hin => hitem ((List.map_id items).subst hin)
      rw [List.map_append, List.map_append, List.map_singleton, firstInsertions_concat, ih hitems]
      exact if_neg hnew

/-- Interning the items of an arena that has none of them twice gives a registry for it. -/
theorem indexes_after (hdistinct : ∀ {left right item}, arena.get? left = some item →
      arena.get? right = some item → left = right) :
    (after (arena.items.toList.map Request.intern)).Indexes arena := by
  have hnodup : arena.items.toList.Nodup := by
    refine List.nodup_iff_getElem?_ne_getElem?.mpr fun left right hlt hright heq => ?_
    rw [List.getElem?_eq_getElem hright, Array.getElem?_toList] at heq
    have hsame := hdistinct heq (by
      rw [Arena.get?, ← Array.getElem?_toList, List.getElem?_eq_getElem hright])
    exact Nat.ne_of_lt hlt hsame
  rw [Indexes, ← firstInsertions_intern hnodup]
  exact represents_after _

end Registry

/-! ## The branches of a graph -/

/-- A registry for each kind of branch. -/
structure Interners where
  functions : Registry FunctionNode FunctionNode
  metatypes : Registry MetatypeNode MetatypeNode
  unions : Registry UnionNode UnionNode

namespace Interners

/-- The handle of a branch, which is stored unless it is already there. -/
def intern (interners : Interners) : Branch → Ty × Interners
  | .function node =>
      let (id, functions) := interners.functions.intern node
      (.function id, { interners with functions })
  | .metatype node =>
      let (id, metatypes) := interners.metatypes.intern node
      (.metatype id, { interners with metatypes })
  | .union node =>
      let (id, unions) := interners.unions.intern node
      (.union id, { interners with unions })

/-- The registries hold the branches of the graph. -/
structure Index (interners : Interners) (graph : Graph) : Prop where
  functions : interners.functions.Indexes graph.functions
  metatypes : interners.metatypes.Indexes graph.metatypes
  unions : interners.unions.Indexes graph.unions

variable {interners : Interners} {graph : Graph}

/-- Interning a branch gives the same handle, and the registries hold the branches again. -/
theorem Index.intern (hindex : interners.Index graph) (branch : Branch) :
    (interners.intern branch).1 = (graph.intern branch).1 ∧
      (interners.intern branch).2.Index (graph.intern branch).2 := by
  cases branch with
  | function node =>
      obtain ⟨hid, hnext⟩ := hindex.functions.intern node
      exact ⟨congrArg Ty.function hid, hnext, hindex.metatypes, hindex.unions⟩
  | metatype node =>
      obtain ⟨hid, hnext⟩ := hindex.metatypes.intern node
      exact ⟨congrArg Ty.metatype hid, hindex.functions, hnext, hindex.unions⟩
  | union node =>
      obtain ⟨hid, hnext⟩ := hindex.unions.intern node
      exact ⟨congrArg Ty.union hid, hindex.functions, hindex.metatypes, hnext⟩

end Interners

/-- The registries in which the branches of the graph are interned in the order of their ids. -/
def Graph.interners (graph : Graph) : Interners where
  functions := .after (graph.functions.items.toList.map .intern)
  metatypes := .after (graph.metatypes.items.toList.map .intern)
  unions := .after (graph.unions.items.toList.map .intern)

theorem Graph.WellFormed.index {graph : Graph} (hgraph : graph.WellFormed) :
    graph.interners.Index graph := by
  refine ⟨Registry.indexes_after ?_, Registry.indexes_after ?_, Registry.indexes_after ?_⟩
  · intro left right node hleft hright
    exact Ty.function.inj (hgraph.interned (congrArg (Option.map Branch.function) hleft)
      (congrArg (Option.map Branch.function) hright))
  · intro left right node hleft hright
    exact Ty.metatype.inj (hgraph.interned (congrArg (Option.map Branch.metatype) hleft)
      (congrArg (Option.map Branch.metatype) hright))
  · intro left right node hleft hright
    exact Ty.union.inj (hgraph.interned (congrArg (Option.map Branch.union) hleft)
      (congrArg (Option.map Branch.union) hright))

end Inference
