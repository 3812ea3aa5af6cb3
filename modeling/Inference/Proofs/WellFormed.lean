import Inference.Proofs.Acyclic
import Inference.Proofs.Interning

/-!
# Well-formed graphs

In a well-formed graph every stored handle names a node, no two branches are
equal, and no path through branches alone is a cycle; tuples may be recursive.
Every operation that is given handles of a well-formed graph keeps the graph
well-formed and only grows it (`Grows`): handles stay what they are, except that
the elements of tuples may be replaced.
-/

namespace Inference

open Relation

namespace Graph

/-- A handle of the graph: a variable, a primitive type, or a handle that names a node. -/
def Holds (graph : Graph) : Ty → Prop
  | .var _ | .primitive _ => True
  | .tuple id => (graph.tuple? id).isSome
  | .named id => (graph.named? id).isSome
  | ty => (graph.branch? ty).isSome

instance (graph : Graph) : DecidablePred graph.Holds
  | .var _ | .primitive _ => inferInstanceAs (Decidable True)
  | .tuple id => inferInstanceAs (Decidable ((graph.tuple? id).isSome = true))
  | .named id => inferInstanceAs (Decidable ((graph.named? id).isSome = true))
  | .function id => inferInstanceAs (Decidable ((graph.branch? (.function id)).isSome = true))
  | .metatype id => inferInstanceAs (Decidable ((graph.branch? (.metatype id)).isSome = true))
  | .union id => inferInstanceAs (Decidable ((graph.branch? (.union id)).isSome = true))

/-- The step from a branch to one of its children. Tuples are not entered. -/
def Child (graph : Graph) (ty child : Ty) : Prop := child ∈ graph.children ty

/-- The step from a tuple to the type of one of its elements. -/
def ElementOf (graph : Graph) (ty element : Ty) : Prop :=
  ∃ id node, ty = .tuple id ∧ graph.tuple? id = some node ∧ element ∈ node.elements.map (·.ty)

/-- Stored handles are handles of the graph, equal branches have one handle, and no cycle runs
through branches alone. -/
structure WellFormed (graph : Graph) : Prop where
  holds_child : ∀ {ty child}, graph.Child ty child → graph.Holds child
  holds_element : ∀ {ty element}, graph.ElementOf ty element → graph.Holds element
  interned : ∀ {left right branch}, graph.branch? left = some branch →
    graph.branch? right = some branch → left = right
  acyclic : Acyclic graph.Child

/-- Every node of one graph is in another one under its handle, where the elements of tuples may
differ. -/
structure Grows (before after : Graph) : Prop where
  branch : ∀ {ty branch}, before.branch? ty = some branch → after.branch? ty = some branch
  tuple : ∀ {id node}, before.tuple? id = some node →
    ∃ elements, after.tuple? id = some ⟨node.name, elements⟩
  named : ∀ {id node}, before.named? id = some node → after.named? id = some node

variable {graph before middle after : Graph} {ty child : Ty} {branch : Branch}

/-! ## Handles -/

/-- A handle of a branch kind is a handle of the graph if it names a branch. -/
theorem branch?_isSome_of_holds (hbranch : after.branch? ty = some branch)
    (hholds : before.Holds ty) : (before.branch? ty).isSome := by
  cases ty <;> simp_all [Holds, branch?]

theorem holds_of_branch? (hbranch : graph.branch? ty = some branch) : graph.Holds ty := by
  have hsome := Option.isSome_of_eq_some hbranch
  cases ty with
  | function | metatype | union => exact hsome
  | _ => simp [branch?] at hsome

theorem WellFormed.holds_of_mem (hgraph : graph.WellFormed)
    (hbranch : graph.branch? ty = some branch) (hchild : child ∈ branch.children) :
    graph.Holds child :=
  hgraph.holds_child (mem_children_iff.mpr ⟨branch, hbranch, hchild⟩)

/-! ## Growth -/

namespace Grows

theorem refl (graph : Graph) : Grows graph graph := ⟨id, fun h => ⟨_, h⟩, id⟩

theorem trans (hfirst : Grows before middle) (hsecond : Grows middle after) :
    Grows before after := by
  refine ⟨fun h => hsecond.branch (hfirst.branch h), ?_, fun h => hsecond.named (hfirst.named h)⟩
  intro id node hnode
  obtain ⟨elements, hmiddle⟩ := hfirst.tuple hnode
  obtain ⟨elements, hafter⟩ := hsecond.tuple hmiddle
  exact ⟨elements, hafter⟩

/-- Handles stay handles. -/
theorem holds (hgrows : Grows before after) (hholds : before.Holds ty) : after.Holds ty := by
  have hbranch : (before.branch? ty).isSome → (after.branch? ty).isSome := by
    intro hsome
    obtain ⟨branch, hsome⟩ := Option.isSome_iff_exists.mp hsome
    exact Option.isSome_iff_exists.mpr ⟨branch, hgrows.branch hsome⟩
  cases ty with
  | var | primitive => trivial
  | function | metatype | union => exact hbranch hholds
  | tuple id =>
      obtain ⟨node, hnode⟩ := Option.isSome_iff_exists.mp hholds
      obtain ⟨elements, helements⟩ := hgrows.tuple hnode
      exact Option.isSome_iff_exists.mpr ⟨_, helements⟩
  | named id =>
      obtain ⟨node, hnode⟩ := Option.isSome_iff_exists.mp hholds
      exact Option.isSome_iff_exists.mpr ⟨node, hgrows.named hnode⟩

/-- A handle of the smaller graph names the same branch, or none, in the larger one. -/
theorem branch?_eq (hgrows : Grows before after) (hholds : before.Holds ty) :
    after.branch? ty = before.branch? ty := by
  cases hafter : after.branch? ty with
  | none =>
      cases hbefore : before.branch? ty with
      | none => rfl
      | some branch => rw [hgrows.branch hbefore] at hafter; cases hafter
  | some branch =>
      obtain ⟨other, hother⟩ :=
        Option.isSome_iff_exists.mp (branch?_isSome_of_holds hafter hholds)
      rw [hother, ← hgrows.branch hother, hafter]

theorem child_iff (hgrows : Grows before after) (hholds : before.Holds ty) :
    after.Child ty child ↔ before.Child ty child := by
  simp only [Child, mem_children_iff, hgrows.branch?_eq hholds]

/-- From handles of the smaller graph, paths through branches are the same in the larger one. -/
theorem path_iff (hgrows : Grows before after) (hbefore : before.WellFormed)
    (hholds : before.Holds ty) :
    ReflTransGen after.Child ty child ↔ ReflTransGen before.Child ty child := by
  refine path_iff_of_step_iff ?_ ?_ hholds
  · exact fun hleft => hgrows.child_iff hleft
  · exact fun _ hstep => hbefore.holds_child hstep

end Grows

/-! ## Interning -/

theorem grows_intern (graph : Graph) (branch : Branch) :
    Grows graph (graph.intern branch).2 := by
  obtain ⟨ty, -, heq⟩ | ⟨-, ty, grown, heq, hfree, hlookup, htuples, hnameds⟩ :=
    graph.intern_cases branch
  · rw [heq]
    exact .refl graph
  · rw [heq]
    refine ⟨?_, ?_, ?_⟩
    · intro other found hfound
      rw [hlookup, if_neg]
      · exact hfound
      · intro heq
        rw [heq, hfree] at hfound
        cases hfound
    · intro id node hnode
      exact ⟨node.elements, by rw [tuple?, htuples]; exact hnode⟩
    · intro id node hnode
      rw [named?, hnameds]
      exact hnode

theorem holds_intern (graph : Graph) (branch : Branch) :
    (graph.intern branch).2.Holds (graph.intern branch).1 :=
  holds_of_branch? (branch?_intern graph branch)

theorem tuples_intern (graph : Graph) (branch : Branch) :
    (graph.intern branch).2.tuples = graph.tuples := by
  cases branch <;> rfl

theorem nameds_intern (graph : Graph) (branch : Branch) :
    (graph.intern branch).2.nameds = graph.nameds := by
  cases branch <;> rfl

/-- Interning a branch between handles of a well-formed graph keeps it well-formed. The new
branch is nobody's child yet, so it closes no cycle. -/
theorem WellFormed.intern (hgraph : graph.WellFormed)
    (hchildren : ∀ child ∈ branch.children, graph.Holds child) :
    (graph.intern branch).2.WellFormed := by
  obtain ⟨ty, -, heq⟩ | ⟨hnew, ty, grown, heq, hfree, hlookup, htuples, -⟩ :=
    graph.intern_cases branch
  · rw [heq]
    exact hgraph
  · have hgrows := grows_intern graph branch
    have hnamed := branch?_intern graph branch
    rw [heq] at hgrows hnamed ⊢
    have hstep : ∀ {left right}, grown.Child left right →
        graph.Child left right ∨ left = ty ∧ right ∈ branch.children := by
      intro left right hchild
      obtain ⟨found, hfound, hright⟩ := mem_children_iff.mp hchild
      rw [hlookup] at hfound
      split at hfound
      · rename_i hleft
        cases hfound
        exact .inr ⟨hleft, hright⟩
      · exact .inl (mem_children_iff.mpr ⟨found, hfound, hright⟩)
    have hholds : ∀ {left right}, grown.Child left right → graph.Holds right := by
      intro left right hchild
      obtain hold | ⟨-, hright⟩ := hstep hchild
      · exact hgraph.holds_child hold
      · exact hchildren right hright
    refine ⟨fun h => hgrows.holds (hholds h), ?_, ?_, ?_⟩
    · intro left element helement
      have hold : graph.ElementOf left element := by
        simpa [ElementOf, tuple?, htuples] using helement
      exact hgrows.holds (hgraph.holds_element hold)
    · intro left right found hleft hright
      rw [hlookup] at hleft hright
      split at hleft <;> split at hright
      · simp_all
      · cases hleft
        exact absurd hright (hnew right)
      · cases hright
        exact absurd hleft (hnew left)
      · exact hgraph.interned hleft hright
    -- No stored handle names the new branch, since it was no handle of the graph before.
    · refine hgraph.acyclic.add_source ty ?_ ?_
      · intro left right hchild
        exact (hstep hchild).imp_right And.left
      · intro left hchild
        have := branch?_isSome_of_holds hnamed (hholds hchild)
        simp [hfree] at this

/-! ## Tuples and named types -/

/-- Replacing the elements of a tuple changes that tuple alone. -/
theorem replaceElements?_cases {id : Nat} {elements previous : List Element}
    (hreplace : graph.replaceElements? id elements = some (previous, after)) :
    ∃ node, graph.tuple? id = some node ∧ previous = node.elements ∧
      (∀ other, after.tuple? other =
        if other = id then some ⟨node.name, elements⟩ else graph.tuple? other) ∧
      (∀ ty, after.branch? ty = graph.branch? ty) ∧
      after.tuples.size = graph.tuples.size ∧ after.nameds = graph.nameds := by
  simp only [replaceElements?, bind, Option.bind_eq_some_iff, pure, Option.some.injEq,
    Prod.mk.injEq, Prod.exists] at hreplace
  obtain ⟨node, hnode, replaced, tuples, hset, rfl, rfl⟩ := hreplace
  have hsize : tuples.size = graph.tuples.size := by
    simp only [Arena.set?, Option.map_eq_some_iff, Prod.mk.injEq] at hset
    obtain ⟨_, -, -, rfl⟩ := hset
    exact Array.size_setIfInBounds
  have hreplaced : replaced = node := by
    simp only [Arena.set?, hnode, Option.map_some, Option.some.injEq, Prod.mk.injEq] at hset
    exact hset.1.symm
  exact ⟨node, hnode, by rw [hreplaced], Arena.get?_set? hset,
    fun ty => branch?_with_tuples graph tuples ty, hsize, rfl⟩

/-- A change of tuples and named types that leaves the branches alone keeps a graph well-formed,
if the changed tuples have handles of the graph. -/
theorem WellFormed.of_branches (hgraph : graph.WellFormed) (hgrows : Grows graph after)
    (hbranch : ∀ ty, after.branch? ty = graph.branch? ty)
    (helement : ∀ {ty element}, after.ElementOf ty element → after.Holds element) :
    after.WellFormed := by
  have hchild : after.Child = graph.Child := by
    funext ty child
    simp only [Child, mem_children_iff, hbranch]
  refine ⟨?_, helement, ?_, hchild ▸ hgraph.acyclic⟩
  · intro ty child h
    exact hgrows.holds (hgraph.holds_child (hchild ▸ h))
  · intro left right branch hleft hright
    rw [hbranch] at hleft hright
    exact hgraph.interned hleft hright

/-- If the elements of one tuple are given, and all other tuples are those of a well-formed graph,
then all elements are handles of that graph. -/
theorem WellFormed.holds_of_elementOf (hgraph : graph.WellFormed) {id : Nat}
    {name : Option String} {elements : List Element} {element : Ty}
    (htuple : ∀ other, after.tuple? other =
      if other = id then some ⟨name, elements⟩ else graph.tuple? other)
    (helements : ∀ element ∈ elements, graph.Holds element.ty)
    (helement : after.ElementOf ty element) : graph.Holds element := by
  obtain ⟨other, node, rfl, hnode, hin⟩ := helement
  rw [htuple] at hnode
  split at hnode
  · cases hnode
    obtain ⟨listed, hlisted, rfl⟩ := List.mem_map.mp hin
    exact helements listed hlisted
  · exact hgraph.holds_element ⟨other, node, rfl, hnode, hin⟩

theorem grows_replaceElements? {id : Nat} {elements previous : List Element}
    (hreplace : graph.replaceElements? id elements = some (previous, after)) :
    Grows graph after := by
  obtain ⟨node, hnode, -, htuple, hbranch, -, hnameds⟩ := replaceElements?_cases hreplace
  refine ⟨fun h => by rw [hbranch, h], ?_, fun h => by rwa [named?, hnameds]⟩
  intro other found hfound
  rw [htuple]
  split
  · rename_i heq
    rw [heq, hnode] at hfound
    cases hfound
    exact ⟨elements, rfl⟩
  · exact ⟨found.elements, hfound⟩

theorem WellFormed.replaceElements? (hgraph : graph.WellFormed) {id : Nat}
    {elements previous : List Element}
    (hreplace : graph.replaceElements? id elements = some (previous, after))
    (helements : ∀ element ∈ elements, graph.Holds element.ty) : after.WellFormed := by
  have hgrows := grows_replaceElements? hreplace
  obtain ⟨node, -, -, htuple, hbranch, -, -⟩ := replaceElements?_cases hreplace
  exact hgraph.of_branches hgrows hbranch fun helement =>
    hgrows.holds (hgraph.holds_of_elementOf htuple helements helement)

/-- A new tuple is added behind all others. -/
theorem tuple?_tuple (graph : Graph) (name : Option String) (elements : List Element) (id : Nat) :
    (graph.tuple name elements).2.tuple? id =
      if id = graph.tuples.size then some ⟨name, elements⟩ else graph.tuple? id :=
  Arena.get?_insert graph.tuples ⟨name, elements⟩ id

theorem grows_tuple (graph : Graph) (name : Option String) (elements : List Element) :
    Grows graph (graph.tuple name elements).2 := by
  refine ⟨fun h => (branch?_with_tuples graph _ _).trans h, ?_, id⟩
  intro id node hnode
  rw [tuple?_tuple, if_neg]
  · exact ⟨node.elements, hnode⟩
  · intro heq
    have hnone : graph.tuple? id = none := Arena.get?_eq_none_iff.mpr (Nat.le_of_eq heq.symm)
    simp [hnone] at hnode

theorem holds_tuple (graph : Graph) (name : Option String) (elements : List Element) :
    (graph.tuple name elements).2.Holds (graph.tuple name elements).1 := by
  show ((graph.tuple name elements).2.tuple? graph.tuples.size).isSome
  simp [tuple?_tuple]

theorem WellFormed.tuple (hgraph : graph.WellFormed) (name : Option String)
    {elements : List Element} (helements : ∀ element ∈ elements, graph.Holds element.ty) :
    (graph.tuple name elements).2.WellFormed := by
  have hgrows := grows_tuple graph name elements
  exact hgraph.of_branches hgrows (branch?_with_tuples graph _) fun helement =>
    hgrows.holds (hgraph.holds_of_elementOf (tuple?_tuple graph name elements) helements helement)

theorem named?_named (graph : Graph) (name : String) (id : Nat) :
    (graph.named name).2.named? id =
      if id = graph.nameds.size then some ⟨name⟩ else graph.named? id :=
  Arena.get?_insert graph.nameds ⟨name⟩ id

theorem grows_named (graph : Graph) (name : String) : Grows graph (graph.named name).2 := by
  refine ⟨fun h => (branch?_with_nameds graph _ _).trans h, fun h => ⟨_, h⟩, ?_⟩
  intro id node hnode
  rw [named?_named, if_neg]
  · exact hnode
  · intro heq
    have hnone : graph.named? id = none := Arena.get?_eq_none_iff.mpr (Nat.le_of_eq heq.symm)
    simp [hnone] at hnode

theorem holds_named (graph : Graph) (name : String) :
    (graph.named name).2.Holds (graph.named name).1 := by
  show ((graph.named name).2.named? graph.nameds.size).isSome
  simp [named?_named]

theorem WellFormed.named (hgraph : graph.WellFormed) (name : String) :
    (graph.named name).2.WellFormed := by
  have hgrows := grows_named graph name
  exact hgraph.of_branches hgrows (branch?_with_nameds graph _)
    fun helement => hgrows.holds (hgraph.holds_element helement)

/-! ## The empty graph -/

theorem wellFormed_empty : (empty : Graph).WellFormed := by
  have hnone : ∀ ty, (empty : Graph).branch? ty = none := by
    intro ty
    cases ty <;> rfl
  have hchild : ∀ {ty child}, ¬ (empty : Graph).Child ty child := by
    intro ty child h
    simp [Child, mem_children_iff, hnone] at h
  refine ⟨fun h => absurd h hchild, ?_, fun h => by simp [hnone] at h, ?_⟩
  · intro ty element helement
    obtain ⟨id, node, -, hnode, -⟩ := helement
    cases hnode
  · intro ty hcycle
    obtain ⟨_, h, -⟩ := TransGen.head'_iff.mp hcycle
    exact hchild h

end Graph

end Inference
