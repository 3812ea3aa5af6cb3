import Inference.Graph

/-!
# Interning

Interning returns the handle of an equal node, or adds the node under a handle
that named nothing before. Read `Graph.intern_cases` first: it says everything
that interning a branch does to a graph.
-/

namespace Inference

namespace Arena

variable {α : Type}

theorem get?_eq_none_iff {arena : Arena α} {id : Nat} :
    arena.get? id = none ↔ arena.size ≤ id :=
  Array.getElem?_eq_none_iff

theorem isSome_get?_of_le {arena : Arena α} {first second : Nat} (hle : first ≤ second)
    (hsecond : (arena.get? second).isSome) : (arena.get? first).isSome := by
  rw [Option.isSome_iff_ne_none, ne_eq, get?_eq_none_iff] at hsecond ⊢
  omega

/-- Interning finds the id of an equal item, or inserts the item after all others. -/
theorem intern_cases [DecidableEq α] (arena : Arena α) (item : α) :
    (∃ id, arena.get? id = some item ∧ arena.intern item = (id, arena)) ∨
      (∀ id, arena.get? id ≠ some item) ∧ arena.intern item = arena.insert item := by
  unfold intern
  cases hfind : arena.find? (· = item) with
  | some id =>
      rw [find?_eq] at hfind
      obtain ⟨hlt, hitem, -⟩ := List.findIdx?_eq_some_iff_getElem.mp hfind
      refine .inl ⟨id, ?_, rfl⟩
      rw [get?, ← Array.getElem?_toList, List.getElem?_eq_getElem hlt]
      simpa using hitem
  | none =>
      rw [find?_eq, List.findIdx?_eq_none_iff] at hfind
      refine .inr ⟨?_, rfl⟩
      intro id hid
      rw [get?, ← Array.getElem?_toList] at hid
      simpa using hfind item (List.mem_of_getElem? hid)

end Arena

namespace Graph

variable {graph : Graph} {ty : Ty} {branch : Branch}

/-! ## Branches -/

theorem mem_children_iff {child : Ty} :
    child ∈ graph.children ty ↔
      ∃ branch, graph.branch? ty = some branch ∧ child ∈ branch.children := by
  unfold children
  cases graph.branch? ty <;> simp

theorem children_eq (hbranch : graph.branch? ty = some branch) :
    graph.children ty = branch.children := by
  simp [children, hbranch]

/-- The listed branches are the handles that name one. -/
theorem mem_branches_iff : ty ∈ graph.branches ↔ (graph.branch? ty).isSome := by
  have hlisted : ∀ {α : Type} (arena : Arena α) (id : Nat),
      id < arena.size ↔ (arena.get? id).isSome := by
    intro α arena id
    rw [Option.isSome_iff_ne_none, ne_eq, Arena.get?_eq_none_iff]
    omega
  cases ty <;> simp [branches, branch?, hlisted]

theorem length_branches (graph : Graph) : graph.branches.length = graph.branchCount := by
  simp [branches, branchCount, Nat.add_assoc]

/-- No branch depends on the tuples. -/
@[simp]
theorem branch?_with_tuples (graph : Graph) (tuples : Arena TupleNode) (ty : Ty) :
    ({ graph with tuples } : Graph).branch? ty = graph.branch? ty := by
  cases ty <;> rfl

/-- No branch depends on the opaque named types. -/
@[simp]
theorem branch?_with_nameds (graph : Graph) (nameds : Arena NamedNode) (ty : Ty) :
    ({ graph with nameds } : Graph).branch? ty = graph.branch? ty := by
  cases ty <;> rfl

/-- Interning a branch finds a handle that names it in the same graph. Otherwise no handle names
it, and it is added under a handle that named no branch, while every other handle and all tuples
and named types stay. -/
theorem intern_cases (graph : Graph) (branch : Branch) :
    (∃ ty, graph.branch? ty = some branch ∧ graph.intern branch = (ty, graph)) ∨
      (∀ ty, graph.branch? ty ≠ some branch) ∧
        ∃ ty grown, graph.intern branch = (ty, grown) ∧ graph.branch? ty = none ∧
          (∀ other, grown.branch? other =
            if other = ty then some branch else graph.branch? other) ∧
          grown.tuples = graph.tuples ∧ grown.nameds = graph.nameds := by
  cases branch with
  | function node =>
      obtain ⟨id, hid, heq⟩ | ⟨hnew, heq⟩ := graph.functions.intern_cases node
      · exact .inl ⟨.function id, by simp [branch?, hid], by simp [intern, heq]⟩
      · refine .inr ⟨fun ty => by cases ty <;> simp [branch?, hnew], .function graph.functions.size,
          { graph with functions := (graph.functions.insert node).2 },
          by simp [intern, heq, Arena.insert], by simp [branch?, Arena.get?_eq_none_iff], ?_,
          rfl, rfl⟩
        intro other
        cases other <;> simp [branch?, Arena.get?_insert]
        split <;> rfl
  | metatype node =>
      obtain ⟨id, hid, heq⟩ | ⟨hnew, heq⟩ := graph.metatypes.intern_cases node
      · exact .inl ⟨.metatype id, by simp [branch?, hid], by simp [intern, heq]⟩
      · refine .inr ⟨fun ty => by cases ty <;> simp [branch?, hnew], .metatype graph.metatypes.size,
          { graph with metatypes := (graph.metatypes.insert node).2 },
          by simp [intern, heq, Arena.insert], by simp [branch?, Arena.get?_eq_none_iff], ?_,
          rfl, rfl⟩
        intro other
        cases other <;> simp [branch?, Arena.get?_insert]
        split <;> rfl
  | union node =>
      obtain ⟨id, hid, heq⟩ | ⟨hnew, heq⟩ := graph.unions.intern_cases node
      · exact .inl ⟨.union id, by simp [branch?, hid], by simp [intern, heq]⟩
      · refine .inr ⟨fun ty => by cases ty <;> simp [branch?, hnew], .union graph.unions.size,
          { graph with unions := (graph.unions.insert node).2 },
          by simp [intern, heq, Arena.insert], by simp [branch?, Arena.get?_eq_none_iff], ?_,
          rfl, rfl⟩
        intro other
        cases other <;> simp [branch?, Arena.get?_insert]
        split <;> rfl

end Graph

end Inference
