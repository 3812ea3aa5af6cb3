import Inference.Proofs.Unfolding
import Mathlib.Data.List.Forall2
import Mathlib.Data.Set.Function

/-!
# Handles and their trees

In a well-formed graph the tree of a type determines its handle
(`WellFormed.eq_of_unfolds`), because equal branches have one handle. So two
well-formed graphs whose branches have the same trees differ by a renumbering of
the branches alone (`Alike.exists_renumbers`).
-/

namespace Inference

open Relation

namespace Branch

variable {left right : Branch} {shapes : Ty → Shape}

/-- The tree of a branch is no leaf. -/
theorem shape_ne_leaf (branch : Branch) (shapes : List Shape) (ty : Ty) :
    branch.shape shapes ≠ .leaf ty := by
  unfold shape
  split <;> simp [Shape.unionOf]

/-- Branches with one tree are equal if their children are told apart by their trees. -/
theorem eq_of_shape (hinjective : ∀ child ∈ left.children, ∀ other ∈ right.children,
      shapes child = shapes other → child = other)
    (hshape : left.shape (left.children.map shapes) = right.shape (right.children.map shapes)) :
    left = right := by
  cases left with
  | function left =>
      cases right with
      | function right =>
          obtain ⟨hdomain, hcodomain⟩ := Shape.function.inj hshape
          have hdomains := hinjective left.domain (by simp [children]) right.domain
            (by simp [children]) hdomain
          have hcodomains := hinjective left.codomain (by simp [children]) right.codomain
            (by simp [children]) hcodomain
          exact congrArg function (by cases left; cases right; simp_all)
      | metatype | union => cases hshape
  | metatype left =>
      cases right with
      | metatype right =>
          have hof := hinjective left.of (by simp [children]) right.of (by simp [children])
            (Shape.metatype.inj hshape)
          exact congrArg metatype (by cases left; cases right; simp_all)
      | function | union => cases hshape
  | union left =>
      cases right with
      | union right =>
          have hcases := Shape.unionOf_eq_unionOf_iff.mp hshape
          have hmem : ∀ ty, ty ∈ left.cases ↔ ty ∈ right.cases := by
            intro ty
            constructor
            · intro hty
              obtain ⟨other, hother, heq⟩ :=
                List.mem_map.mp ((hcases _).mp (List.mem_map_of_mem hty))
              exact hinjective ty hty other hother heq.symm ▸ hother
            · intro hty
              obtain ⟨other, hother, heq⟩ :=
                List.mem_map.mp ((hcases _).mpr (List.mem_map_of_mem hty))
              exact hinjective other hother ty hty heq ▸ hother
          exact congrArg (fun cases => union ⟨cases⟩) (CaseSet.ext hmem)
      | function | metatype => cases hshape

/-- The branch with other children, each of them in the place of one. -/
def map (branch : Branch) (renumber : Ty → Ty) : Branch :=
  branch.withChildren (branch.children.map renumber)

theorem mem_children_map {branch : Branch} {renumber : Ty → Ty} {ty : Ty} :
    ty ∈ (branch.map renumber).children ↔ ∃ child ∈ branch.children, renumber child = ty := by
  rw [map, mem_children_withChildren (List.length_map renumber), List.mem_map]

theorem shape_map (branch : Branch) (renumber : Ty → Ty) (shapes : Ty → Shape) :
    (branch.map renumber).shape ((branch.map renumber).children.map shapes) =
      branch.shape (branch.children.map fun child => shapes (renumber child)) := by
  rw [map, shape_withChildren (List.length_map renumber), List.map_map]
  rfl

end Branch

/-- The tuple with other types in its elements, each of them in the place of one. -/
def TupleNode.map (node : TupleNode) (renumber : Ty → Ty) : TupleNode :=
  { node with elements := node.elements.map fun element =>
      { element with ty := renumber element.ty } }

namespace Graph

variable {graph left right : Graph} {ty other last : Ty} {branch : Branch} {shape : Shape}
  {renumber : Ty → Ty}

/-! ## Trees of one graph -/

/-- The step of a table without bindings leads to a child. -/
theorem WellFormed.next (hgraph : graph.WellFormed) : Acyclic (({} : Table).Next graph) :=
  hgraph.acyclic.mono fun hstep => hstep.resolve_left (Table.not_link_empty _ _)

theorem WellFormed.exists_unfolds (hgraph : graph.WellFormed) (ty : Ty) :
    ∃ shape, graph.Unfolds ty shape :=
  Table.exists_unfolds hgraph.next ty

/-- A type whose tree is no leaf names a branch. -/
theorem Unfolds.isSome_branch? (hunfolds : graph.Unfolds ty shape)
    (hshape : ∀ leaf, shape ≠ .leaf leaf) : (graph.branch? ty).isSome := by
  cases hbranch : graph.branch? ty with
  | some => rfl
  | none => exact absurd (hunfolds.leaf_cases (Table.not_link_empty ty) hbranch) (hshape ty)

/-- In a well-formed graph, types with one tree are one type. -/
theorem WellFormed.eq_of_unfolds (hgraph : graph.WellFormed) (hty : graph.Unfolds ty shape)
    (hother : graph.Unfolds other shape) : ty = other := by
  induction hty generalizing other with
  | bound hlink => exact absurd hlink (Table.not_link_empty _ _)
  | @leaf ty hend hnone =>
      cases hbranch : graph.branch? other with
      | none => exact Shape.leaf.inj (hother.leaf_cases (Table.not_link_empty other) hbranch)
      | some branch =>
          obtain ⟨shapes, -, heq⟩ := hother.branch_cases hbranch
          exact absurd heq.symm (branch.shape_ne_leaf _ ty)
  | @branch ty branch shapes hbranch hchildren ih =>
      obtain ⟨found, hfound⟩ :=
        Option.isSome_iff_exists.mp (hother.isSome_branch? (branch.shape_ne_leaf _))
      obtain ⟨others, hothers, hshape⟩ := hother.branch_cases hfound
      -- The children of both branches get their trees from one function.
      rw [Branch.shape_congr fun child hchild => (hgraph.tree_eq (hchildren child hchild)).symm,
        Branch.shape_congr fun child hchild => (hgraph.tree_eq (hothers child hchild)).symm]
        at hshape
      have heq : branch = found := by
        refine Branch.eq_of_shape ?_ hshape
        intro child hchild last hlast hsame
        rw [hgraph.tree_eq (hchildren child hchild), hgraph.tree_eq (hothers last hlast)] at hsame
        refine ih child hchild ?_
        rw [hsame]
        exact hothers last hlast
      exact hgraph.interned hbranch (heq ▸ hfound)

/-! ## Trees of two graphs -/

/-- The trees of the branches. -/
def trees (graph : Graph) : List Shape := graph.branches.filterMap graph.shape?

/-- The types have one tree, each of them in its own graph. -/
def SameTree (left right : Graph) (ty other : Ty) : Prop :=
  ∃ shape, left.shape? ty = some shape ∧ right.shape? other = some shape

/-- The tuples have the same name, and their elements the same labels and types with the same
trees. -/
structure SameTuple (left right : Graph) (node other : TupleNode) : Prop where
  name : other.name = node.name
  elements : List.Forall₂ (fun element last => last.label = element.label ∧
    left.SameTree right element.ty last.ty) node.elements other.elements

/-- The branches of the graphs have the same trees, their tuples are the same up to the trees of
their elements, and so are their opaque named types. -/
structure Alike (left right : Graph) : Prop where
  trees : ∀ shape, shape ∈ left.trees ↔ shape ∈ right.trees
  tuples : ∀ id, Option.Rel (left.SameTuple right) (left.tuple? id) (right.tuple? id)
  nameds : right.nameds = left.nameds

/-- The graphs differ by the numbers of their branches alone: `renumber` takes every handle of one
of them to the handle for it in the other one. -/
structure Renumbers (left right : Graph) (renumber : Ty → Ty) : Prop where
  bijOn : Set.BijOn renumber {ty | left.Holds ty} {ty | right.Holds ty}
  branch : ∀ {ty branch}, left.branch? ty = some branch →
    right.branch? (renumber ty) = some (branch.map renumber)
  other : ∀ {ty}, left.Holds ty → left.branch? ty = none → renumber ty = ty
  tuple : ∀ {id node}, left.tuple? id = some node → right.tuple? id = some (node.map renumber)
  nameds : right.nameds = left.nameds

theorem mem_trees_iff (hgraph : graph.WellFormed) :
    shape ∈ graph.trees ↔ ∃ ty, (graph.branch? ty).isSome ∧ graph.Unfolds ty shape := by
  simp only [trees, List.mem_filterMap, mem_branches_iff, shape?_eq_some_iff hgraph.acyclic]

theorem sameTree_iff (hleft : left.WellFormed) (hright : right.WellFormed) :
    left.SameTree right ty other ↔ ∃ shape, left.Unfolds ty shape ∧ right.Unfolds other shape := by
  simp only [SameTree, shape?_eq_some_iff hleft.acyclic, shape?_eq_some_iff hright.acyclic]

theorem SameTree.symm (hsame : left.SameTree right ty other) : right.SameTree left other ty := by
  obtain ⟨shape, hleft, hright⟩ := hsame
  exact ⟨shape, hright, hleft⟩

/-- Only one type of a well-formed graph has the tree. -/
theorem SameTree.unique (hright : right.WellFormed) (hother : left.SameTree right ty other)
    (hlast : left.SameTree right ty last) : other = last := by
  obtain ⟨shape, hshape, hother⟩ := hother
  obtain ⟨tree, htree, hlast⟩ := hlast
  rw [hshape] at htree
  cases htree
  rw [shape?_eq_some_iff hright.acyclic] at hother hlast
  exact hright.eq_of_unfolds hother hlast

theorem Alike.symm (halike : left.Alike right) : right.Alike left where
  trees shape := (halike.trees shape).symm
  tuples id := by
    have hrelated := halike.tuples id
    revert hrelated
    generalize left.tuple? id = node
    generalize right.tuple? id = other
    intro hrelated
    cases hrelated with
    | none => exact .none
    | some hsame =>
        exact .some ⟨hsame.name.symm, hsame.elements.flip.imp
          fun _ _ helement => ⟨helement.1.symm, helement.2.symm⟩⟩
  nameds := halike.nameds.symm

/-! ## Renumbering -/

/-- A handle that names no branch in its own graph names none in any graph. -/
theorem branch?_eq_none_of_holds (hholds : left.Holds ty) (hnone : left.branch? ty = none) :
    right.branch? ty = none := by
  cases hbranch : right.branch? ty with
  | none => rfl
  | some branch => simpa [hnone] using branch?_isSome_of_holds hbranch hholds

/-- The branch whose children take the places of others has the tree made of their trees. -/
theorem WellFormed.unfolds_map {shapes : Ty → Shape} (hgraph : graph.WellFormed)
    (hbranch : graph.branch? ty = some (branch.map renumber))
    (hchildren : ∀ child ∈ branch.children, graph.Unfolds (renumber child) (shapes child)) :
    graph.Unfolds ty (branch.shape (branch.children.map shapes)) := by
  have hunfolds : graph.Unfolds ty _ := Table.Unfolds.branch graph.tree hbranch <| by
    intro child hchild
    obtain ⟨old, hold, rfl⟩ := Branch.mem_children_map.mp hchild
    rw [hgraph.tree_eq (hchildren old hold)]
    exact hchildren old hold
  rw [Branch.shape_map,
    Branch.shape_congr fun child hchild => hgraph.tree_eq (hchildren child hchild)] at hunfolds
  exact hunfolds

/-- Renumbering changes the tree of no handle. -/
theorem Renumbers.unfolds (hrenumbers : left.Renumbers right renumber) (hleft : left.WellFormed)
    (hright : right.WellFormed) (hholds : left.Holds ty) (hunfolds : left.Unfolds ty shape) :
    right.Unfolds (renumber ty) shape := by
  induction hunfolds with
  | bound hlink => exact absurd hlink (Table.not_link_empty _ _)
  | leaf hend hnone =>
      rw [hrenumbers.other hholds hnone]
      exact .leaf hend (branch?_eq_none_of_holds hholds hnone)
  | @branch ty branch shapes hbranch _ ih =>
      refine hright.unfolds_map (hrenumbers.branch hbranch) ?_
      intro child hchild
      exact ih child hchild (hleft.holds_of_mem hbranch hchild)

theorem Renumbers.sameTree (hrenumbers : left.Renumbers right renumber) (hleft : left.WellFormed)
    (hright : right.WellFormed) (hholds : left.Holds ty) :
    left.SameTree right ty (renumber ty) := by
  obtain ⟨shape, hshape⟩ := hleft.exists_unfolds ty
  exact (sameTree_iff hleft hright).mpr
    ⟨shape, hshape, hrenumbers.unfolds hleft hright hholds hshape⟩

/-- A handle that names no branch is a handle of every graph that is alike. -/
theorem Alike.holds (halike : left.Alike right) (hholds : left.Holds ty)
    (hnone : left.branch? ty = none) : right.Holds ty := by
  cases ty with
  | var | primitive => trivial
  | function | metatype | union => simp [Holds, hnone] at hholds
  | named id => simpa only [Holds, named?, halike.nameds] using hholds
  | tuple id =>
      have hrelated := halike.tuples id
      revert hrelated hholds
      simp only [Holds]
      generalize left.tuple? id = node
      generalize right.tuple? id = other
      intro hholds hrelated
      cases hrelated with
      | some => rfl
      | none => cases hholds

/-- Every handle of one of two graphs that are alike has the tree of a handle of the other one. -/
theorem Alike.exists_sameTree (halike : left.Alike right) (hleft : left.WellFormed)
    (hright : right.WellFormed) (hholds : left.Holds ty) :
    ∃ other, right.Holds other ∧ left.SameTree right ty other := by
  simp only [sameTree_iff hleft hright]
  obtain ⟨shape, hshape⟩ := hleft.exists_unfolds ty
  cases hbranch : left.branch? ty with
  | some branch =>
      have hin := (mem_trees_iff hleft).mpr ⟨ty, Option.isSome_of_eq_some hbranch, hshape⟩
      obtain ⟨other, hother, hsame⟩ := (mem_trees_iff hright).mp ((halike.trees shape).mp hin)
      obtain ⟨found, hfound⟩ := Option.isSome_iff_exists.mp hother
      exact ⟨other, holds_of_branch? hfound, shape, hshape, hsame⟩
  | none =>
      have hend := Table.not_link_empty ty
      exact ⟨ty, halike.holds hholds hbranch, _, .leaf hend hbranch,
        .leaf hend (branch?_eq_none_of_holds hholds hbranch)⟩

/-- A function that takes the branches of one graph to handles with the same trees takes the
children of a branch to the children of the branch with the same tree. -/
theorem branch?_of_sameTree (hleft : left.WellFormed) (hright : right.WellFormed)
    (hsame : ∀ ty, left.Holds ty → left.SameTree right ty (renumber ty))
    (hbranch : left.branch? ty = some branch) :
    right.branch? (renumber ty) = some (branch.map renumber) := by
  simp only [sameTree_iff hleft hright] at hsame
  obtain ⟨shape, hshape, hnew⟩ := hsame ty (holds_of_branch? hbranch)
  obtain ⟨shapes, hshapes, rfl⟩ := hshape.branch_cases hbranch
  have hchildren : ∀ child ∈ branch.children, right.Unfolds (renumber child) (shapes child) := by
    intro child hchild
    obtain ⟨tree, hold, hrenumbered⟩ := hsame child (hleft.holds_of_mem hbranch hchild)
    rw [(hshapes child hchild).unique hold]
    exact hrenumbered
  obtain ⟨found, hfound⟩ :=
    Option.isSome_iff_exists.mp (hnew.isSome_branch? (branch.shape_ne_leaf _))
  obtain ⟨others, hothers, heq⟩ := hnew.branch_cases hfound
  have htree : (branch.map renumber).shape ((branch.map renumber).children.map right.tree) =
      found.shape (found.children.map right.tree) := by
    rw [Branch.shape_map,
      Branch.shape_congr fun child hchild => hright.tree_eq (hchildren child hchild), heq,
      Branch.shape_congr fun child hchild => hright.tree_eq (hothers child hchild)]
  rw [hfound, Option.some.injEq]
  refine (Branch.eq_of_shape ?_ htree).symm
  intro child hchild other hother hsame
  obtain ⟨old, hold, rfl⟩ := Branch.mem_children_map.mp hchild
  rw [hright.tree_eq (hchildren old hold), hright.tree_eq (hothers other hother)] at hsame
  refine hright.eq_of_unfolds (hchildren old hold) ?_
  rw [hsame]
  exact hothers other hother

/-- A function that finds the types with the same trees renumbers a tuple to the same tuple. -/
theorem SameTuple.eq_map {node last : TupleNode} (hsame : left.SameTuple right node last)
    (hunique : ∀ element ∈ node.elements, ∀ other, left.SameTree right element.ty other →
      renumber element.ty = other) : last = node.map renumber := by
  have helements := (List.forall₂_and_left _ _).mpr ⟨hunique, hsame.elements⟩
  have heq : node.elements.map (fun element => { element with ty := renumber element.ty }) =
      last.elements := by
    rw [← List.forall₂_eq_eq_eq, List.forall₂_map_left_iff]
    refine helements.imp ?_
    intro element other helement
    obtain ⟨hfound, hlabel, htypes⟩ := helement
    rw [hfound other.ty htypes, ← hlabel]
  rw [TupleNode.map, heq, ← hsame.name]

/-- A function that takes the handles of one of two graphs that are alike to handles of the other
one with the same trees is a renumbering. -/
theorem Alike.renumbers_of_sameTree (halike : left.Alike right) (hleft : left.WellFormed)
    (hright : right.WellFormed) (hholds : ∀ ty, left.Holds ty → right.Holds (renumber ty))
    (hsame : ∀ ty, left.Holds ty → left.SameTree right ty (renumber ty)) :
    left.Renumbers right renumber where
  bijOn := by
    refine ⟨hholds, ?_, ?_⟩
    · intro ty hty other hother heq
      have hback := (hsame other hother).symm
      rw [← heq] at hback
      exact (hsame ty hty).symm.unique hleft hback
    · intro other hother
      obtain ⟨ty, hty, hback⟩ := halike.symm.exists_sameTree hright hleft hother
      exact ⟨ty, hty, (hsame ty hty).unique hright hback.symm⟩
  branch := branch?_of_sameTree hleft hright hsame
  other {ty} hty hnone := by
    have hend := Table.not_link_empty ty
    exact (hsame ty hty).unique hright ((sameTree_iff hleft hright).mpr
      ⟨_, .leaf hend hnone, .leaf hend (branch?_eq_none_of_holds hty hnone)⟩)
  tuple {id node} hnode := by
    have hrelated := halike.tuples id
    rw [hnode] at hrelated
    generalize right.tuple? id = found at hrelated ⊢
    cases hrelated with
    | some htuple =>
        refine congrArg some (htuple.eq_map ?_)
        intro element helement other hother
        have hheld := hleft.holds_element ⟨id, node, rfl, hnode, List.mem_map_of_mem helement⟩
        exact (hsame _ hheld).unique hright hother
  nameds := halike.nameds

/-- Well-formed graphs that are alike differ by the numbers of their branches alone. -/
theorem Alike.exists_renumbers (halike : left.Alike right) (hleft : left.WellFormed)
    (hright : right.WellFormed) : ∃ renumber, left.Renumbers right renumber := by
  have hexists : ∀ ty, ∃ other, left.Holds ty →
      right.Holds other ∧ left.SameTree right ty other := by
    intro ty
    by_cases hholds : left.Holds ty
    · obtain ⟨other, hother⟩ := halike.exists_sameTree hleft hright hholds
      exact ⟨other, fun _ => hother⟩
    · exact ⟨ty, fun h => absurd h hholds⟩
  obtain ⟨renumber, hrenumber⟩ := Classical.axiomOfChoice hexists
  exact ⟨renumber, halike.renumbers_of_sameTree hleft hright
    (fun ty hholds => (hrenumber ty hholds).1) fun ty hholds => (hrenumber ty hholds).2⟩

end Graph

end Inference
