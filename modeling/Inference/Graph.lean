import Inference.Arena
import Inference.Node

/-!
# Type graphs

A type graph owns the nodes that type handles name. Branches are interned: to
make a function, a metatype or a union that is already there is to get its
handle back. Every call that makes a tuple or an opaque named type makes a new
one, and only the elements of a tuple can be replaced later.
-/

namespace Inference

/-- The nodes of each kind; the position of a node is the number in its handle. -/
structure Graph where
  functions : Arena FunctionNode
  unions : Arena UnionNode
  metatypes : Arena MetatypeNode
  tuples : Arena TupleNode
  nameds : Arena NamedNode
  deriving DecidableEq

namespace Graph

/-- The graph without nodes. -/
def empty : Graph := ⟨∅, ∅, ∅, ∅, ∅⟩

instance : EmptyCollection Graph := ⟨empty⟩

instance : Inhabited Graph := ⟨empty⟩

/-! ## Looking at nodes -/

/-- The branch that a handle names, if it names one. -/
def branch? (graph : Graph) : Ty → Option Branch
  | .function id => (graph.functions.get? id).map .function
  | .metatype id => (graph.metatypes.get? id).map .metatype
  | .union id => (graph.unions.get? id).map .union
  | _ => none

/-- The children of the branch that a handle names; other handles have none. -/
def children (graph : Graph) (ty : Ty) : List Ty :=
  ((graph.branch? ty).map Branch.children).getD []

/-- The tuple at a position. -/
def tuple? (graph : Graph) (id : Nat) : Option TupleNode := graph.tuples.get? id

/-- The opaque named type at a position. -/
def named? (graph : Graph) (id : Nat) : Option NamedNode := graph.nameds.get? id

/-- The handles of all branches, of each kind the last one first. -/
def branches (graph : Graph) : List Ty :=
  (List.range graph.functions.size).reverse.map .function ++
    (List.range graph.metatypes.size).reverse.map .metatype ++
      (List.range graph.unions.size).reverse.map .union

/-- The number of branches. -/
def branchCount (graph : Graph) : Nat :=
  graph.functions.size + graph.metatypes.size + graph.unions.size

/-! ## Making and changing nodes -/

/-- The handle of a branch, which is added unless it is already there. -/
def intern (graph : Graph) : Branch → Ty × Graph
  | .function node =>
      let (id, functions) := graph.functions.intern node
      (.function id, { graph with functions })
  | .metatype node =>
      let (id, metatypes) := graph.metatypes.intern node
      (.metatype id, { graph with metatypes })
  | .union node =>
      let (id, unions) := graph.unions.intern node
      (.union id, { graph with unions })

/-- The handle that interning returns names the interned branch. -/
@[simp]
theorem branch?_intern (graph : Graph) (branch : Branch) :
    (graph.intern branch).2.branch? (graph.intern branch).1 = some branch := by
  cases branch <;> simp [intern, branch?, Arena.get?_intern]

/-- The function type from `domain` to `codomain`. -/
def function (graph : Graph) (domain codomain : Ty) : Ty × Graph :=
  graph.intern (.function ⟨domain, codomain⟩)

/-- The type of the type `of`. -/
def metatype (graph : Graph) (of : Ty) : Ty × Graph :=
  graph.intern (.metatype ⟨of⟩)

/-- The union of a set of types. -/
def union (graph : Graph) (cases : CaseSet) : Ty × Graph :=
  graph.intern (.union ⟨cases⟩)

/-- A new tuple. -/
def tuple (graph : Graph) (name : Option String) (elements : List Element) : Ty × Graph :=
  let (id, tuples) := graph.tuples.insert ⟨name, elements⟩
  (.tuple id, { graph with tuples })

/-- A new opaque named type. -/
def named (graph : Graph) (name : String) : Ty × Graph :=
  let (id, nameds) := graph.nameds.insert ⟨name⟩
  (.named id, { graph with nameds })

/-- Replace the elements of the tuple at a position, and return the elements they replace. -/
def replaceElements? (graph : Graph) (id : Nat) (elements : List Element) :
    Option (List Element × Graph) := do
  let node ← graph.tuples.get? id
  let (previous, tuples) ← graph.tuples.set? id { node with elements }
  pure (previous.elements, { graph with tuples })

end Graph

end Inference
