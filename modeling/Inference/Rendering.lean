import Inference.Graph
import Inference.Table

/-!
# Rendering types

Types are shown to users with their structure spelled out. A tuple with a name is
shown by its name, and a tuple without one by its elements, except inside of
itself, where dots stand for it. A stack holds the tuples whose elements are being
shown. It is the same before and after a type is shown, so what is shown of a type
depends on the type and on the tuples around it alone.

The cases of a union are shown in increasing order of their handles. Within a kind
this is the order in which the handles were made, which says nothing of what the
cases are. So the functions are given the order in which cases are listed, and what
depends on it can be told from what does not.
-/

namespace Inference

/-- The text of a variable. -/
def Variable.render (subject : Variable) : String := s!"$T{subject.id}"

/-- The text of a tuple element, given the text of its type. -/
def Element.render (element : Element) (text : String) : String :=
  match element.label with
  | some label => s!"{label}: {text}"
  | none => text

/-- The text of a tuple without a name, given the texts of its elements. -/
def TupleNode.render (texts : List String) : String := "(" ++ ", ".intercalate texts ++ ")"

namespace Branch

/-- The children in the order in which they are shown. The cases of a union are listed in some
order. -/
def shown (listing : CaseSet → List Ty) : Branch → List Ty
  | union node => listing node.cases
  | branch => branch.children

/-- The text of a branch, given the texts of its children. As many texts as the branch has children
are expected. -/
def render : Branch → List String → String
  | function _, [domain, codomain] => s!"({domain}) -> {codomain}"
  | metatype _, [of] => s!"{of}.Type"
  | _, texts => " | ".intercalate texts

end Branch

namespace Graph

/-- The text for a handle that names no node. -/
def unknown : String := "<unknown>"

/-- The text of a type that is no branch and no tuple. -/
def renderLeaf (graph : Graph) : Ty → String
  | .var subject => subject.render
  | .primitive kind => kind.name
  | .named id => ((graph.named? id).map (·.name)).getD unknown
  | _ => unknown

/-- The text of a type, unless that takes a path longer than the bound. The state is a stack of the
tuples whose elements are being shown, the innermost one first: a tuple is pushed before its
elements are shown, and popped after them. -/
def renderWithin (graph : Graph) (listing : CaseSet → List Ty) :
    Nat → Ty → StateT (List Nat) Option String
  | 0, _ => failure
  | depth + 1, ty =>
      match graph.branch? ty, ty with
      | some branch, _ => do
          let texts ← (branch.shown listing).mapM (graph.renderWithin listing depth)
          pure (branch.render texts)
      | none, .tuple id =>
          match graph.tuple? id with
          | none => pure unknown
          | some ⟨some name, _⟩ => pure name
          | some ⟨none, elements⟩ => do
              if id ∈ (← get) then
                pure "..."
              else
                modify (id :: ·)
                let texts ← elements.mapM fun element => do
                  let text ← graph.renderWithin listing depth element.ty
                  pure (element.render text)
                modify List.tail
                pure (TupleNode.render texts)
      | none, _ => pure (graph.renderLeaf ty)

/-- A bound for the paths that are shown. Between two tuples a path meets no branch twice, and
it enters no tuple twice. -/
def renderDepth (graph : Graph) : Nat := (graph.tuples.size + 1) * (graph.branchCount + 1)

/-- The text of a type whose unions list their cases in some order. Only a type on a cycle of
branches has none. -/
def renderListed? (graph : Graph) (listing : CaseSet → List Ty) (ty : Ty) : Option String :=
  (graph.renderWithin listing graph.renderDepth ty).run' []

/-- The text of a type. -/
def render? (graph : Graph) (ty : Ty) : Option String := graph.renderListed? CaseSet.toList ty

/-- The line for a binding, given the text of its type. -/
def renderEntry (subject : Variable) (text : String) : String :=
  s!"{subject.render} => {text}\n"

/-- The text of a table whose unions list their cases in some order: a line for each binding, in
the order of the variables. -/
def renderTableListed? (graph : Graph) (listing : CaseSet → List Ty) (table : Table) :
    Option String :=
  (table.entries.mapM fun entry =>
    (graph.renderListed? listing entry.2).map (renderEntry entry.1)).map String.join

/-- The text of a table. -/
def renderTable? (graph : Graph) (table : Table) : Option String :=
  graph.renderTableListed? CaseSet.toList table

end Graph

end Inference
