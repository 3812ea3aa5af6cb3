import Inference.Proofs.Canonical
import Inference.Proofs.Construction
import Inference.Proofs.Reification.Resolved

/-!
# The identity of types

In a graph that is reached, comparing two handles is comparing the trees that they
stand for (`eq_iff_sameTree`). Interning compares the handles of children alone, but
since equal branches have one handle at every depth, that is enough.

A branch keeps its handle: whoever interns it again, in the same graph or in any
later one, gets that handle and changes nothing (`intern_eq_iff`). For a union this
means that the order and the repetitions of the cases are not seen.
-/

namespace Inference

open Relation

namespace Graph

variable {graph before after later : Graph} {ty other : Ty} {branch last : Branch}

/-- The tree of a branch is made of the trees of its children. -/
theorem WellFormed.unfolds_branch (hgraph : graph.WellFormed)
    (hbranch : graph.branch? ty = some branch) :
    graph.Unfolds ty (branch.shape (branch.children.map graph.tree)) := by
  refine .branch graph.tree hbranch ?_
  intro child _
  obtain ⟨shape, hshape⟩ := hgraph.exists_unfolds child
  rw [hgraph.tree_eq hshape]
  exact hshape

/-- In a well-formed graph, types are equal exactly if they have one tree. -/
theorem WellFormed.eq_iff_sameTree (hgraph : graph.WellFormed) :
    ty = other ↔ graph.SameTree graph ty other := by
  rw [sameTree_iff hgraph hgraph]
  constructor
  · rintro rfl
    obtain ⟨shape, hshape⟩ := hgraph.exists_unfolds ty
    exact ⟨shape, hshape, hshape⟩
  · rintro ⟨shape, hty, hother⟩
    exact hgraph.eq_of_unfolds hty hother

/-- Operations on a graph keep it well-formed and let it grow. -/
theorem grows_of_steps (hbefore : before.WellFormed) (hsteps : ReflTransGen Step before after) :
    after.WellFormed ∧ before.Grows after := by
  induction hsteps with
  | refl => exact ⟨hbefore, .refl before⟩
  | tail _ hlast ih =>
      obtain ⟨hmiddle, hgrows⟩ := ih
      obtain ⟨hafter, hnext⟩ := hlast.wellFormed hmiddle
      exact ⟨hafter, hgrows.trans hnext⟩

/-- In a later graph, interning a branch finds the handle that another branch had been given exactly
if the branches are equal. -/
theorem intern_eq_iff (hlater : later.WellFormed) (hgrows : (graph.intern branch).2.Grows later) :
    later.intern last = ((graph.intern branch).1, later) ↔ branch = last := by
  have hnamed := hgrows.branch (branch?_intern graph branch)
  constructor
  · intro heq
    have hlast := branch?_intern later last
    rw [heq, hnamed] at hlast
    exact Option.some.inj hlast
  · rintro rfl
    exact hlater.intern_eq hnamed

/-- In a graph that is reached, types are equal exactly if they have one tree. A later union of listed
cases is the union that was made before, and leaves the graph as it is, exactly if the same types are
listed. Branches with one tree have one handle. -/
theorem equality_is_structural (hreached : graph.Reached) :
    (∀ ty other, ty = other ↔ graph.SameTree graph ty other) ∧
    (∀ cases : List Ty, (∀ case ∈ cases, graph.Holds case) →
      ∀ later, ReflTransGen Step (graph.union (.ofList cases)).2 later → ∀ others : List Ty,
        later.union (.ofList others) = ((graph.union (.ofList cases)).1, later) ↔
          ∀ ty, ty ∈ cases ↔ ty ∈ others) ∧
    ∀ ty other branch last, graph.branch? ty = some branch → graph.branch? other = some last →
      branch.shape (branch.children.map graph.tree) =
        last.shape (last.children.map graph.tree) → ty = other := by
  have hgraph := hreached.wellFormed
  refine ⟨fun _ _ => hgraph.eq_iff_sameTree, ?_, ?_⟩
  · intro cases hcases later hsteps others
    have hunion : ∀ case ∈ (CaseSet.ofList cases).toList, graph.Holds case := by simpa using hcases
    obtain ⟨hlater, hgrows⟩ := grows_of_steps ((Step.union hunion).wellFormed hgraph).1 hsteps
    refine (intern_eq_iff hlater hgrows).trans ?_
    rw [Branch.union.injEq, UnionNode.mk.injEq, CaseSet.ofList_eq_ofList_iff]
  · intro ty other branch last hty hother hshape
    have hsame := hgraph.unfolds_branch hty
    rw [hshape] at hsame
    exact hgraph.eq_of_unfolds hsame (hgraph.unfolds_branch hother)

theorem equality_is_structural_looped :
    ¬ looped.SameTree looped (.function 0) (.union 0) ∧
    ∀ later, ReflTransGen Step looped later →
      later.union (.ofList [.var ⟨2⟩, .function 0, .var ⟨2⟩]) = (.union 0, later) := by
  obtain ⟨hequal, hunion, -⟩ := equality_is_structural reached_looped
  have hmade : looped.union (.ofList [.function 0, .var ⟨2⟩]) = (.union 0, looped) := by decide
  have hagain := hunion [.function 0, .var ⟨2⟩] (by decide)
  rw [hmade] at hagain
  refine ⟨(hequal _ _).not.mp (by decide), ?_⟩
  intro later hlater
  refine (hagain later hlater _).mpr ?_
  simp [or_comm]

end Graph

end Inference
