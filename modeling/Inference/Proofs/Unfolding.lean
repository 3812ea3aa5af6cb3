import Inference.Proofs.Dependence
import Inference.Proofs.Lists
import Inference.Shape

/-!
# Unfolding under a substitution

`table.Unfolds graph ty shape` says that `shape` is the tree of `ty` in which
every bound variable is replaced by the tree of its binding, to the end of its
chain. Without bindings it is the plain tree that `shape?` computes
(`shape?_eq_some_iff`). A type has at most one tree, and it has one if bindings
and branches together have no cycle (`exists_unfolds`). Growing the graph changes
the tree of no handle (`Unfolds.of_grows`).
-/

namespace Inference

open Relation

/-- The tree of a type under a substitution. A bound variable has the tree of what it is bound to,
and a branch the tree made of the trees of its children. Every other type is a leaf. -/
inductive Table.Unfolds (table : Table) (graph : Graph) : Ty → Shape → Prop where
  | bound {ty next shape} :
      table.Link ty next → Unfolds table graph next shape → Unfolds table graph ty shape
  | leaf {ty} :
      (∀ next, ¬ table.Link ty next) → graph.branch? ty = none →
      Unfolds table graph ty (.leaf ty)
  | branch {ty branch} (shapes : Ty → Shape) :
      graph.branch? ty = some branch →
      (∀ child ∈ branch.children, Unfolds table graph child (shapes child)) →
      Unfolds table graph ty (branch.shape (branch.children.map shapes))

/-- The tree of a type when no variable is bound. -/
abbrev Graph.Unfolds (graph : Graph) (ty : Ty) (shape : Shape) : Prop :=
  ({} : Table).Unfolds graph ty shape

/-- In the graph `after`, `result` has the tree that `ty` has in `graph` under the substitution, and
`ty` has no other one. -/
def Table.ResolvesTo (table : Table) (graph : Graph) (ty : Ty) (after : Graph) (result : Ty) :
    Prop :=
  ∃ shape, after.shape? result = some shape ∧ ∀ other, table.Unfolds graph ty other ↔ other = shape

theorem Branch.shape_congr {branch : Branch} {shapes others : Ty → Shape}
    (hshapes : ∀ child ∈ branch.children, shapes child = others child) :
    branch.shape (branch.children.map shapes) = branch.shape (branch.children.map others) :=
  congrArg branch.shape (List.map_congr_left hshapes)

/-- With other children the branch has the tree made of their trees. The children of a union
collapse into a set, and so do their trees. -/
theorem Branch.shape_withChildren {branch : Branch} {children : List Ty}
    (hlength : children.length = branch.children.length) (shapes : Ty → Shape) :
    (branch.withChildren children).shape ((branch.withChildren children).children.map shapes) =
      branch.shape (children.map shapes) := by
  cases branch with
  | function node =>
      match children, hlength with
      | [domain, codomain], _ => rfl
  | metatype node =>
      match children, hlength with
      | [of], _ => rfl
  | union node =>
      show Shape.unionOf _ = Shape.unionOf _
      rw [Shape.unionOf_eq_unionOf_iff]
      intro shape
      simp [withChildren, Branch.children]

/-- Rebuilding a branch with other children makes a branch with no further children. -/
theorem Branch.mem_children_withChildren {branch : Branch} {children : List Ty} {child : Ty}
    (hlength : children.length = branch.children.length) :
    child ∈ (branch.withChildren children).children ↔ child ∈ children := by
  cases branch with
  | function node =>
      match children, hlength with
      | [domain, codomain], _ => rfl
  | metatype node =>
      match children, hlength with
      | [of], _ => rfl
  | union node => simp [withChildren, Branch.children]

namespace Table

variable {table : Table} {graph before after : Graph} {ty next : Ty} {branch : Branch}
  {shape other : Shape}

theorem not_link_empty (ty next : Ty) : ¬ ({} : Table).Link ty next := by
  intro hlink
  obtain ⟨subject, -, hget⟩ := hlink
  cases hget

theorem not_link_of_branch? (hbranch : graph.branch? ty = some branch) (next : Ty) :
    ¬ table.Link ty next := by
  intro hlink
  obtain ⟨subject, rfl, -⟩ := hlink
  cases hbranch

/-! ## Inversion -/

theorem Unfolds.of_link (hlink : table.Link ty next) :
    table.Unfolds graph ty shape ↔ table.Unfolds graph next shape := by
  constructor
  · intro hunfolds
    cases hunfolds with
    | bound hother hnext => exact hother.unique hlink ▸ hnext
    | leaf hend => exact absurd hlink (hend next)
    | branch _ hbranch => exact absurd hlink (not_link_of_branch? hbranch next)
  · exact .bound hlink

/-- A type has the tree of the end of its chain. -/
theorem unfolds_walk_iff (table : Table) (graph : Graph) (ty : Ty) (shape : Shape) :
    table.Unfolds graph (table.walk ty) shape ↔ table.Unfolds graph ty shape := by
  have hpath := path_walk table ty
  generalize table.walk ty = reached at hpath ⊢
  induction hpath using ReflTransGen.head_induction_on with
  | refl => rfl
  | head hlink _ ih => exact ih.trans (Unfolds.of_link hlink).symm

theorem Unfolds.branch_cases (hbranch : graph.branch? ty = some branch)
    (hunfolds : table.Unfolds graph ty shape) :
    ∃ shapes, (∀ child ∈ branch.children, table.Unfolds graph child (shapes child)) ∧
      shape = branch.shape (branch.children.map shapes) := by
  cases hunfolds with
  | bound hlink => exact absurd hlink (not_link_of_branch? hbranch _)
  | leaf _ hnone => simp [hnone] at hbranch
  | branch shapes hfound hchildren =>
      rw [hbranch] at hfound
      cases hfound
      exact ⟨shapes, hchildren, rfl⟩

theorem Unfolds.leaf_cases (hend : ∀ next, ¬ table.Link ty next) (hnone : graph.branch? ty = none)
    (hunfolds : table.Unfolds graph ty shape) : shape = .leaf ty := by
  cases hunfolds with
  | bound hlink => exact absurd hlink (hend _)
  | leaf => rfl
  | branch _ hbranch => simp [hnone] at hbranch

/-! ## Uniqueness and existence -/

/-- A type has at most one tree. -/
theorem Unfolds.unique (hunfolds : table.Unfolds graph ty shape)
    (hother : table.Unfolds graph ty other) : shape = other := by
  induction hunfolds generalizing other with
  | bound hlink _ ih => exact ih ((Unfolds.of_link hlink).mp hother)
  | leaf hend hnone => exact (hother.leaf_cases hend hnone).symm
  | branch shapes hbranch _ ih =>
      obtain ⟨others, hothers, rfl⟩ := hother.branch_cases hbranch
      exact Branch.shape_congr fun child hchild => ih child hchild (hothers child hchild)

/-- Every type has a tree if bindings and branches together have no cycle. -/
theorem exists_unfolds (hacyclic : Acyclic (table.Next graph)) (ty : Ty) :
    ∃ shape, table.Unfolds graph ty shape := by
  -- A step leads to a type from which fewer bound variables and branches can be reached.
  induction hheight : height (table.Next graph) (table.boundVariables ++ graph.branches) ty
    using Nat.strongRecOn generalizing ty with
  | ind bound ih =>
      subst hheight
      by_cases hend : ∀ next, ¬ table.Link ty next
      · cases hbranch : graph.branch? ty with
        | none => exact ⟨.leaf ty, .leaf hend hbranch⟩
        | some branch =>
            have hin : ty ∈ table.boundVariables ++ graph.branches :=
              List.mem_append_right _
                (Graph.mem_branches_iff.mpr (Option.isSome_of_eq_some hbranch))
            have hchildren : ∀ child, ∃ shape, child ∈ branch.children →
                table.Unfolds graph child shape := by
              intro child
              by_cases hchild : child ∈ branch.children
              · have hstep : table.Next graph ty child :=
                  .inr (Graph.mem_children_iff.mpr ⟨branch, hbranch, hchild⟩)
                obtain ⟨shape, hshape⟩ := ih _ (height_lt hacyclic hin hstep) child rfl
                exact ⟨shape, fun _ => hshape⟩
              · exact ⟨default, fun h => absurd h hchild⟩
            obtain ⟨shapes, hshapes⟩ := Classical.axiomOfChoice hchildren
            exact ⟨_, .branch shapes hbranch hshapes⟩
      · obtain ⟨next, hlink⟩ := Classical.not_forall_not.mp hend
        have hin := List.mem_append_left graph.branches (mem_boundVariables hlink)
        obtain ⟨shape, hshape⟩ := ih _ (height_lt hacyclic hin (.inl hlink)) next rfl
        exact ⟨shape, .bound hlink hshape⟩

/-- Bindings for variables that do not occur in a type do not change its tree. -/
theorem Unfolds.of_unbound (hunfolds : graph.Unfolds ty shape)
    (hunbound : ∀ {subject}, ReflTransGen graph.Child ty (.var subject) →
      table.get? subject = none) : table.Unfolds graph ty shape := by
  induction hunfolds with
  | bound hlink => exact absurd hlink (not_link_empty _ _)
  | @leaf ty _ hnone =>
      refine .leaf ?_ hnone
      intro next hlink
      obtain ⟨subject, rfl, hget⟩ := hlink
      rw [hunbound .refl] at hget
      cases hget
  | @branch ty branch shapes hbranch _ ih =>
      refine .branch shapes hbranch ?_
      intro child hchild
      have hstep : graph.Child ty child := Graph.mem_children_iff.mpr ⟨branch, hbranch, hchild⟩
      exact ih child hchild fun hpath => hunbound (.head hstep hpath)

/-! ## Growing graphs -/

/-- Growing the graph changes the tree of no handle. -/
theorem Unfolds.of_grows (hunfolds : table.Unfolds before ty shape) (hgrows : before.Grows after)
    (hfits : table.Fits before) (hbefore : before.WellFormed) (hholds : before.Holds ty) :
    table.Unfolds after ty shape := by
  induction hunfolds with
  | bound hlink _ ih =>
      obtain ⟨subject, -, hget⟩ := id hlink
      exact .bound hlink (ih (hfits _ _ hget))
  | leaf hend hnone => exact .leaf hend ((hgrows.branch?_eq hholds).trans hnone)
  | branch shapes hbranch _ ih =>
      exact .branch shapes (hgrows.branch hbranch) fun child hchild =>
        ih child hchild (hbefore.holds_of_mem hbranch hchild)

end Table

/-! ## The plain tree -/

namespace Graph

variable {graph before after : Graph} {ty : Ty} {branch : Branch} {shape : Shape}

theorem Unfolds.of_grows (hunfolds : before.Unfolds ty shape) (hgrows : before.Grows after)
    (hbefore : before.WellFormed) (hholds : before.Holds ty) : after.Unfolds ty shape :=
  Table.Unfolds.of_grows hunfolds hgrows (fun _ _ hget => nomatch hget) hbefore hholds

theorem unfolds_of_shapeWithin {depth : Nat} (hshape : graph.shapeWithin depth ty = some shape) :
    graph.Unfolds ty shape := by
  induction depth generalizing ty shape with
  | zero => cases hshape
  | succ depth ih =>
      unfold shapeWithin at hshape
      cases hbranch : graph.branch? ty with
      | none =>
          rw [hbranch] at hshape
          cases hshape
          exact .leaf (Table.not_link_empty ty) hbranch
      | some branch =>
          simp only [hbranch, Option.map_eq_some_iff, mapM_eq_some_iff] at hshape
          obtain ⟨results, hresults, rfl⟩ := hshape
          let shapes := fun child => (graph.shapeWithin depth child).getD default
          have hshapes : results = branch.children.map shapes := by
            have := congrArg (List.map (Option.getD · default)) hresults
            simpa [Function.comp_def, shapes] using this.symm
          subst hshapes
          refine .branch shapes hbranch ?_
          intro child hchild
          refine ih ?_
          have := List.map_inj_left.mp (hresults.trans (List.map_map ..)) child hchild
          exact this

/-- A depth above the number of branches on a path is enough. -/
theorem shapeWithin_isSome (hacyclic : Acyclic graph.Child) {depth : Nat}
    (hdepth : height graph.Child graph.branches ty < depth) :
    (graph.shapeWithin depth ty).isSome := by
  induction depth generalizing ty with
  | zero => omega
  | succ depth ih =>
      unfold shapeWithin
      cases hbranch : graph.branch? ty with
      | none => rfl
      | some branch =>
          have hin : ty ∈ graph.branches :=
            mem_branches_iff.mpr (Option.isSome_of_eq_some hbranch)
          have hchildren : ∀ child ∈ branch.children, (graph.shapeWithin depth child).isSome := by
            intro child hchild
            have hlt := height_lt hacyclic hin (mem_children_iff.mpr ⟨branch, hbranch, hchild⟩)
            exact ih (by omega)
          have hall : branch.children.mapM (graph.shapeWithin depth) =
              some (branch.children.map fun child =>
                (graph.shapeWithin depth child).getD default) := by
            rw [mapM_eq_some_iff, List.map_map]
            refine List.map_congr_left ?_
            intro child hchild
            obtain ⟨shape, hshape⟩ := Option.isSome_iff_exists.mp (hchildren child hchild)
            simp [hshape]
          simp [hall]

/-- In a graph without cycles of branches, `shape?` computes the plain tree of every type. -/
theorem shape?_eq_some_iff (hacyclic : Acyclic graph.Child) :
    graph.shape? ty = some shape ↔ graph.Unfolds ty shape := by
  constructor
  · exact unfolds_of_shapeWithin
  · intro hunfolds
    have hdepth : height graph.Child graph.branches ty < graph.branchCount + 1 := by
      rw [← length_branches]
      exact Nat.lt_succ_of_le (height_le_length ty)
    obtain ⟨found, hfound⟩ := Option.isSome_iff_exists.mp (shapeWithin_isSome hacyclic hdepth)
    rw [shape?, hfound, (unfolds_of_shapeWithin hfound).unique hunfolds]

/-- The tree of a type if it has one, and any tree otherwise. -/
def tree (graph : Graph) (ty : Ty) : Shape := (graph.shape? ty).getD default

theorem WellFormed.tree_eq (hgraph : graph.WellFormed) (hunfolds : graph.Unfolds ty shape) :
    graph.tree ty = shape := by
  simp [tree, (shape?_eq_some_iff hgraph.acyclic).mpr hunfolds]

/-- The handle of an interned branch has the tree made of the trees of its children. -/
theorem unfolds_intern {children : List Ty} (hgraph : graph.WellFormed)
    (hlength : children.length = branch.children.length)
    (hholds : ∀ child ∈ children, graph.Holds child) {shapes : Ty → Shape}
    (hchildren : ∀ child ∈ children, graph.Unfolds child (shapes child)) :
    (graph.intern (branch.withChildren children)).2.Unfolds
      (graph.intern (branch.withChildren children)).1 (branch.shape (children.map shapes)) := by
  rw [← Branch.shape_withChildren hlength shapes]
  refine .branch shapes (branch?_intern graph _) ?_
  intro child hchild
  rw [Branch.mem_children_withChildren hlength] at hchild
  exact (hchildren child hchild).of_grows (grows_intern graph _) hgraph (hholds child hchild)

end Graph

end Inference
