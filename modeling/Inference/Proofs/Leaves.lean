import Inference.Proofs.Unfolding

/-!
# Leaves and substitution

The leaves of the tree of a type are the types at which paths of bindings and
branches end (`Unfolds.mem_leaves_iff`). To put a tree in the place of a variable
is to replace the leaves that are the variable, and the cases of a union that
become equal collapse. A new binding for an unbound variable does just that to
every tree, as long as the variable is no leaf of what it is bound to
(`Unfolds.insert`).
-/

namespace Inference

open Relation

namespace Shape

/-! ## Leaves -/

mutual
/-- The types at the leaves. -/
def leaves : Shape → List Ty
  | leaf ty => [ty]
  | function domain codomain => domain.leaves ++ codomain.leaves
  | metatype of => of.leaves
  | union cases => leavesOf cases

/-- The types at the leaves of several shapes. -/
def leavesOf : List Shape → List Ty
  | [] => []
  | first :: rest => first.leaves ++ leavesOf rest
end

variable {shape replacement : Shape} {shapes : List Shape} {ty : Ty} {key : Variable}

theorem mem_leavesOf : ty ∈ leavesOf shapes ↔ ∃ shape ∈ shapes, ty ∈ shape.leaves := by
  induction shapes with
  | nil => simp [leavesOf]
  | cons first rest ih => simp [leavesOf, ih]

/-- The order and the repetitions of the listed cases do not matter for the leaves. -/
theorem mem_leaves_unionOf :
    ty ∈ (unionOf shapes).leaves ↔ ∃ shape ∈ shapes, ty ∈ shape.leaves := by
  simp [unionOf, leaves, mem_leavesOf]

/-! ## Substitution -/

mutual
/-- The shape in which another one is in the place of a variable. -/
def substitute : Shape → Variable → Shape → Shape
  | leaf ty, key, replacement => if ty = .var key then replacement else leaf ty
  | function domain codomain, key, replacement =>
      function (domain.substitute key replacement) (codomain.substitute key replacement)
  | metatype of, key, replacement => metatype (of.substitute key replacement)
  | union cases, key, replacement => unionOf (substituteIn cases key replacement)

/-- Several shapes in which another one is in the place of a variable. -/
def substituteIn : List Shape → Variable → Shape → List Shape
  | [], _, _ => []
  | first :: rest, key, replacement =>
      first.substitute key replacement :: substituteIn rest key replacement
end

theorem substituteIn_eq_map (shapes : List Shape) (key : Variable) (replacement : Shape) :
    substituteIn shapes key replacement = shapes.map (·.substitute key replacement) := by
  induction shapes with
  | nil => rfl
  | cons first rest ih => rw [substituteIn, ih, List.map_cons]

/-- Cases that are equal stay equal, so it does not matter whether they collapse before. -/
theorem substitute_unionOf (shapes : List Shape) (key : Variable) (replacement : Shape) :
    (unionOf shapes).substitute key replacement =
      unionOf (shapes.map (·.substitute key replacement)) := by
  rw [unionOf, substitute, substituteIn_eq_map, unionOf_eq_unionOf_iff]
  intro shape
  simp

end Shape

namespace Branch

variable {branch : Branch} {shapes : List Shape} {ty : Ty}

/-- The leaves of the tree of a branch are those of the trees of its children. -/
theorem mem_leaves_shape :
    ty ∈ (branch.shape shapes).leaves ↔ ∃ shape ∈ shapes, ty ∈ shape.leaves := by
  unfold shape
  split
  · simp [Shape.leaves]
  · simp [Shape.leaves]
  · exact Shape.mem_leaves_unionOf

theorem substitute_shape (branch : Branch) (shapes : List Shape) (key : Variable)
    (replacement : Shape) :
    (branch.shape shapes).substitute key replacement =
      branch.shape (shapes.map (·.substitute key replacement)) := by
  match branch, shapes with
  | function _, [_, _] => rfl
  | metatype _, [_] => rfl
  | function _, [] | function _, [_] | function _, _ :: _ :: _ :: _
  | metatype _, [] | metatype _, _ :: _ :: _ | union _, _ =>
      exact Shape.substitute_unionOf _ key replacement

end Branch

namespace Table

variable {table : Table} {graph : Graph} {ty last bound : Ty} {shape replacement : Shape}
  {key : Variable}

/-- The leaves of the tree of a type are the ends of the paths from it. -/
theorem Unfolds.mem_leaves_iff (hunfolds : table.Unfolds graph ty shape) :
    last ∈ shape.leaves ↔ ReflTransGen (table.Next graph) ty last ∧
      (∀ next, ¬ table.Link last next) ∧ graph.branch? last = none := by
  induction hunfolds with
  | @bound ty next shape hlink _ ih =>
      rw [ih]
      refine and_congr_left fun hend => ⟨.head (.inl hlink), fun hpath => ?_⟩
      obtain rfl | ⟨other, hother | hchild, hrest⟩ := hpath.cases_head
      · exact absurd hlink (hend.1 next)
      · exact hother.unique hlink ▸ hrest
      · exact absurd hlink (not_link_of_child hchild next)
  | @leaf ty hend hnone =>
      simp only [Shape.leaves, List.mem_singleton]
      constructor
      · rintro rfl
        exact ⟨.refl, hend, hnone⟩
      · rintro ⟨hpath, -⟩
        obtain heq | ⟨other, hlink | hchild, -⟩ := hpath.cases_head
        · exact heq.symm
        · exact absurd hlink (hend other)
        · obtain ⟨branch, hbranch, -⟩ := Graph.mem_children_iff.mp hchild
          simp [hnone] at hbranch
  | @branch ty branch shapes hbranch _ ih =>
      rw [Branch.mem_leaves_shape]
      constructor
      · rintro ⟨shape, hshape, hleaf⟩
        obtain ⟨child, hchild, rfl⟩ := List.mem_map.mp hshape
        obtain ⟨hpath, hend⟩ := (ih child hchild).mp hleaf
        exact ⟨.head (.inr (Graph.mem_children_iff.mpr ⟨branch, hbranch, hchild⟩)) hpath, hend⟩
      · rintro ⟨hpath, hend⟩
        obtain rfl | ⟨child, hlink | hchild, hrest⟩ := hpath.cases_head
        · simp [hbranch] at hend
        · exact absurd hlink (not_link_of_branch? hbranch child)
        · rw [Graph.Child, Graph.children_eq hbranch] at hchild
          exact ⟨_, List.mem_map_of_mem hchild, (ih child hchild).mpr ⟨hrest, hend⟩⟩

/-! ## A new binding -/

/-- A tree in which the variable is no leaf stays as it is. -/
theorem Unfolds.insert_of_not_mem (hunfolds : table.Unfolds graph ty shape)
    (hkey : table.get? key = none) (hleaf : .var key ∉ shape.leaves) :
    (table.insert key bound).Unfolds graph ty shape := by
  induction hunfolds with
  | bound hlink _ ih => exact .bound (link_insert hkey hlink) (ih hleaf)
  | leaf hend hnone =>
      rw [Shape.leaves, List.mem_singleton] at hleaf
      exact .leaf (not_link_insert (Ne.symm hleaf) hend) hnone
  | branch shapes hbranch _ ih =>
      refine .branch shapes hbranch ?_
      intro child hchild
      refine ih child hchild ?_
      intro hin
      exact hleaf (Branch.mem_leaves_shape.mpr ⟨_, List.mem_map_of_mem hchild, hin⟩)

/-- In every tree, the tree of what an unbound variable is bound to takes the place of the
variable. -/
theorem Unfolds.insert (hunfolds : table.Unfolds graph ty shape) (hkey : table.get? key = none)
    (hbound : table.Unfolds graph bound replacement) (hleaf : .var key ∉ replacement.leaves) :
    (table.insert key bound).Unfolds graph ty (shape.substitute key replacement) := by
  induction hunfolds with
  | bound hlink _ ih => exact .bound (link_insert hkey hlink) ih
  | @leaf ty hend hnone =>
      rw [Shape.substitute]
      split
      · rename_i heq
        refine .bound ?_ (hbound.insert_of_not_mem hkey hleaf)
        rw [heq, link_var_iff, get?_insert, if_pos rfl]
      · rename_i hne
        exact .leaf (not_link_insert hne hend) hnone
  | branch shapes hbranch _ ih =>
      rw [Branch.substitute_shape, List.map_map]
      exact .branch (fun child => (shapes child).substitute key replacement) hbranch ih

end Table

end Inference
