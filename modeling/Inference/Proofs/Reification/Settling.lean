import Inference.Proofs.Enumeration
import Inference.Proofs.Reification.Growth

/-!
# Settled types

A type of the original graph settles on the handle that reification gives for it:
the handle has the tree that the type had under the substitution, and no bound
variable occurs in it outside of tuples. Read `Settles.of_grows` first: a type
stays settled while the graph grows, so nothing that reification does later can
disturb it.
-/

namespace Inference

open Relation

namespace Table

/-- The handle `result` of `after` has the tree that `ty` of `origin` has under the substitution,
and no bound variable occurs in it. -/
structure Settles (table : Table) (origin after : Graph) (ty result : Ty) : Prop where
  holds : after.Holds result
  unfolds : ∀ {shape}, table.Unfolds origin ty shape → after.Unfolds result shape
  resolved : ∀ {subject}, ReflTransGen after.Child result (.var subject) →
    table.get? subject = none

/-- The element keeps its label, and its type settles. -/
structure SettlesElement (table : Table) (origin after : Graph) (old new : Element) : Prop where
  label : new.label = old.label
  settles : table.Settles origin after old.ty new.ty

/-- The tuple keeps its name and the labels of its elements, and their types settle. -/
def SettlesTuple (table : Table) (origin after : Graph) (id : Nat) : Prop :=
  ∀ node, origin.tuple? id = some node → ∃ elements,
    after.tuple? id = some ⟨node.name, elements⟩ ∧
      List.Forall₂ (table.SettlesElement origin after) node.elements elements

variable {table : Table} {origin middle after : Graph} {ty result : Ty}

/-! ## Growing graphs -/

theorem Settles.of_grows (hsettles : table.Settles origin middle ty result)
    (hmiddle : middle.WellFormed) (hgrows : middle.Grows after) :
    table.Settles origin after ty result where
  holds := hgrows.holds hsettles.holds
  unfolds hunfolds := (hsettles.unfolds hunfolds).of_grows hgrows hmiddle hsettles.holds
  resolved hpath := hsettles.resolved ((hgrows.path_iff hmiddle hsettles.holds).mp hpath)

/-- A settled tuple stays settled as long as it is not changed again. -/
theorem SettlesTuple.of_grows {id : Nat} (hsettles : table.SettlesTuple origin middle id)
    (hmiddle : middle.WellFormed) (hgrows : middle.Grows after)
    (hsame : after.tuple? id = middle.tuple? id) : table.SettlesTuple origin after id := by
  intro node hnode
  obtain ⟨elements, helements, hsettled⟩ := hsettles node hnode
  refine ⟨elements, hsame.trans helements, hsettled.imp ?_⟩
  intro old new helement
  exact ⟨helement.label, helement.settles.of_grows hmiddle hgrows⟩

/-! ## What settles -/

/-- A type that is neither a bound variable nor a branch settles on itself. -/
theorem settles_leaf (hend : ∀ next, ¬ table.Link (table.walk ty) next)
    (horigin : origin.branch? (table.walk ty) = none)
    (hafter : after.branch? (table.walk ty) = none) (hholds : after.Holds (table.walk ty)) :
    table.Settles origin after ty (table.walk ty) where
  holds := hholds
  unfolds hunfolds := by
    rw [((unfolds_walk_iff table origin ty _).mpr hunfolds).leaf_cases hend horigin]
    exact .leaf (not_link_empty _) hafter
  resolved hpath := by
    obtain heq | ⟨next, hchild, -⟩ := hpath.cases_head
    · exact Option.eq_none_iff_forall_ne_some.mpr fun bound hget =>
        hend bound (heq ▸ link_var_iff.mpr hget)
    · obtain ⟨branch, hbranch, -⟩ := Graph.mem_children_iff.mp hchild
      simp [hafter] at hbranch

/-- A type whose chain ends at a tuple settles on the tuple. -/
theorem settles_tuple {id : Nat} (hwalk : table.walk ty = .tuple id)
    (hholds : after.Holds (.tuple id)) : table.Settles origin after ty (.tuple id) := by
  rw [← hwalk] at hholds ⊢
  refine settles_leaf ?_ ?_ ?_ hholds
  · rw [hwalk]
    exact not_link_tuple table id
  · rw [hwalk]
    rfl
  · rw [hwalk]
    rfl

/-- Settled types have the trees of the types they settle. -/
theorem exists_shapes {tys results : List Ty} {shapes : Ty → Shape}
    (hafter : after.WellFormed) (hsettles : List.Forall₂ (table.Settles origin after) tys results)
    (hunfolds : ∀ ty ∈ tys, table.Unfolds origin ty (shapes ty)) :
    ∃ settled : Ty → Shape, (∀ result ∈ results, after.Unfolds result (settled result)) ∧
      results.map settled = tys.map shapes := by
  refine ⟨after.tree, ?_⟩
  have hsettled : ∀ {ty result}, table.Settles origin after ty result →
      table.Unfolds origin ty (shapes ty) →
      after.Unfolds result (shapes ty) ∧ after.tree result = shapes ty := by
    intro ty result hsettles hunfolds
    have hresult := hsettles.unfolds hunfolds
    exact ⟨hresult, hafter.tree_eq hresult⟩
  induction hsettles with
  | nil => simp
  | @cons ty result tys results hfirst _ ih =>
      obtain ⟨hresult, heq⟩ := hsettled hfirst (hunfolds ty List.mem_cons_self)
      obtain ⟨hresults, hmap⟩ :=
        ih fun other hother => hunfolds other (List.mem_cons_of_mem ty hother)
      rw [← heq] at hresult
      simp only [List.map_cons, List.forall_mem_cons, hmap]
      exact ⟨⟨hresult, hresults⟩, by rw [heq]⟩

/-- A branch whose children settle settles on the branch interned with the settled children. -/
theorem settles_branch {branch : Branch} {children : List Ty} (hmiddle : middle.WellFormed)
    (hbranch : origin.branch? (table.walk ty) = some branch)
    (hsettles : List.Forall₂ (table.Settles origin middle) branch.children children) :
    table.Settles origin (middle.intern (branch.withChildren children)).2 ty
      (middle.intern (branch.withChildren children)).1 := by
  have hlength := hsettles.length_eq.symm
  refine ⟨Graph.holds_intern middle _, ?_, ?_⟩
  · intro shape hunfolds
    rw [← unfolds_walk_iff] at hunfolds
    obtain ⟨shapes, hshapes, rfl⟩ := hunfolds.branch_cases hbranch
    -- Cases of a union that settle on one handle have one tree, so the trees collapse as they do.
    obtain ⟨settled, hsettled, hmap⟩ := exists_shapes hmiddle hsettles hshapes
    rw [← hmap]
    refine Graph.unfolds_intern hmiddle hlength ?_ hsettled
    intro child hchild
    obtain ⟨ty, -, hchild⟩ := exists_mem_of_forall₂ hsettles hchild
    exact hchild.holds
  · intro subject hpath
    have hnamed := Graph.branch?_intern middle (branch.withChildren children)
    obtain heq | ⟨child, hchild, hrest⟩ := hpath.cases_head
    · rw [heq] at hnamed
      cases hnamed
    · rw [Graph.Child, Graph.children_eq hnamed,
        Branch.mem_children_withChildren hlength] at hchild
      obtain ⟨ty, -, hsettles⟩ := exists_mem_of_forall₂ hsettles hchild
      rw [(Graph.grows_intern middle _).path_iff hmiddle hsettles.holds] at hrest
      exact hsettles.resolved hrest

/-- Elements whose types settle settle with their labels. -/
theorem settles_withTypes {elements : List Element} {types : List Ty}
    (hsettles : List.Forall₂ (table.Settles origin after) (elements.map (·.ty)) types) :
    List.Forall₂ (table.SettlesElement origin after) elements
      (Element.withTypes elements types) := by
  unfold Element.withTypes
  induction elements generalizing types with
  | nil =>
      cases hsettles
      exact .nil
  | cons element elements ih =>
      cases hsettles with
      | cons hfirst hrest => exact .cons ⟨rfl, hfirst⟩ (ih hrest)

/-- A tuple whose elements are given types that settle the ones they had settles. -/
theorem settlesTuple_withTypes {id : Nat} {node : TupleNode} {types : List Ty}
    (hnode : origin.tuple? id = some node)
    (hafter : after.tuple? id = some ⟨node.name, Element.withTypes node.elements types⟩)
    (hsettles : List.Forall₂ (table.Settles origin after) (node.elements.map (·.ty)) types) :
    table.SettlesTuple origin after id := by
  intro found hfound
  rw [hnode] at hfound
  cases hfound
  exact ⟨_, hafter, settles_withTypes hsettles⟩

end Table

end Inference
