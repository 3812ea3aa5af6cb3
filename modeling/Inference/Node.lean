import Inference.CaseSet

/-!
# Nodes of a type graph

Functions, metatypes and unions are branches: they are determined by their
children and never change. Tuples are places: a tuple keeps its identity and its
name while its elements are replaced. Opaque named types have no children.
-/

namespace Inference

/-- The function type from `domain` to `codomain`. -/
structure FunctionNode where
  domain : Ty
  codomain : Ty
  deriving DecidableEq

/-- The type of the type `of`. -/
structure MetatypeNode where
  of : Ty
  deriving DecidableEq

/-- The union of a set of types. -/
structure UnionNode where
  cases : CaseSet
  deriving DecidableEq

/-- An element of a tuple, possibly labelled. -/
structure Element where
  label : Option String
  ty : Ty
  deriving DecidableEq

/-- A tuple, which models a nominal type if it has a name. -/
structure TupleNode where
  name : Option String
  elements : List Element
  deriving DecidableEq

/-- An opaque type, known by its name. -/
structure NamedNode where
  name : String
  deriving DecidableEq

/-! ## Order

Nodes other than tuples are ordered by their fields, in the order of their
declaration. An absent label comes before every label.
-/

instance : Ord FunctionNode :=
  ⟨fun left right =>
    (compare left.domain right.domain).then (compare left.codomain right.codomain)⟩

instance : Ord MetatypeNode := ⟨fun left right => compare left.of right.of⟩

instance : Ord UnionNode := ⟨fun left right => compare left.cases right.cases⟩

instance : Ord Element :=
  ⟨fun left right => (compare left.label right.label).then (compare left.ty right.ty)⟩

instance : Ord NamedNode := ⟨fun left right => compare left.name right.name⟩

/-! ## Branches -/

/-- A node that is determined by its children. -/
inductive Branch where
  | function (node : FunctionNode)
  | metatype (node : MetatypeNode)
  | union (node : UnionNode)
  deriving DecidableEq

namespace Branch

/-- The children in order: domain and codomain, the described type, or the ascending cases. -/
def children : Branch → List Ty
  | function node => [node.domain, node.codomain]
  | metatype node => [node.of]
  | union node => node.cases.toList

/-- The branch of the same kind with other children. As many children as the branch has are
expected; the children of a union collapse into a set. -/
def withChildren : Branch → List Ty → Branch
  | function _, [domain, codomain] => function ⟨domain, codomain⟩
  | metatype _, [of] => metatype ⟨of⟩
  | union _, cases => union ⟨CaseSet.ofList cases⟩
  | branch, _ => branch

@[simp]
theorem withChildren_children (branch : Branch) :
    branch.withChildren branch.children = branch := by
  cases branch <;> simp [children, withChildren]

end Branch

end Inference
