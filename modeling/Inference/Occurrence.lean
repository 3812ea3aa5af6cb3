import Inference.Graph
import Inference.Table

/-!
# Occurrences of a variable

A variable occurs in a type if some path from the type ends at it. A path goes
through bindings and from a branch to its children, but never into a tuple,
because recursive types are expressed through tuples.

The search opens each branch of the graph once, so it ends on every graph and
every table, and shared branches are not searched again.
-/

namespace Inference

namespace Table

/-- Whether a path from one of the pending types ends at the variable, when only the branches
that are still unopened may be entered. -/
def occursFrom (table : Table) (graph : Graph) (subject : Variable)
    (unopened : List Ty) : List Ty → Bool
  | [] => false
  | ty :: pending =>
      let reached := table.walk ty
      if reached = .var subject then true
      else if reached ∈ unopened then
        table.occursFrom graph subject (unopened.erase reached)
          (graph.children reached ++ pending)
      else table.occursFrom graph subject unopened pending
  termination_by pending => (unopened.length, pending.length)
  decreasing_by
    · have hin : table.walk ty ∈ unopened := ‹_›
      have := List.length_pos_of_mem hin
      have : (unopened.erase (table.walk ty)).length = unopened.length - 1 :=
        List.length_erase_of_mem hin
      exact Prod.Lex.left _ _ (by omega)
    · exact Prod.Lex.right _ (by simp)

/-- Whether the variable occurs in a type, through bindings and branches. -/
def occursIn (table : Table) (graph : Graph) (subject : Variable) (ty : Ty) : Bool :=
  table.occursFrom graph subject graph.branches [ty]

/-- Whether the policy of the table sees the variable in a type. The shallow policy looks only
at the end of the chain of bindings. -/
def seesIn (table : Table) (graph : Graph) (subject : Variable) (ty : Ty) : Bool :=
  match table.policy with
  | .eager => table.occursIn graph subject ty
  | .shallow => table.walk ty = .var subject

end Table

end Inference
