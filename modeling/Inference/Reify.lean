import Inference.Occurrence

/-!
# Reification

To reify a type is to replace every variable in it by what the variable stands
for, all the way down. Branches are interned again with their reified children,
while a tuple keeps its handle and has its elements replaced, so that everyone
who holds the handle sees them reified.

A tuple is entered once. When it is met again, inside of itself or elsewhere,
its handle is returned as it is, and this is what ends the reification of
recursive types.
-/

namespace Inference

/-- A reification under way: the graph as changed so far, and the tuples entered, the last one
first. -/
structure ReifyState where
  graph : Graph
  visited : List Nat := []
  deriving DecidableEq

namespace ReifyState

/-- Intern a branch. -/
def intern (state : ReifyState) (branch : Branch) : Ty × ReifyState :=
  let (ty, graph) := state.graph.intern branch
  (ty, { state with graph })

/-- Enter a tuple. -/
def enter (state : ReifyState) (id : Nat) : ReifyState :=
  { state with visited := id :: state.visited }

/-- Replace the elements of a tuple. -/
def replaceElements (state : ReifyState) (id : Nat) (elements : List Element) : ReifyState :=
  match state.graph.replaceElements? id elements with
  | some (_, graph) => { state with graph }
  | none => state

/-- Run a step on every item from left to right, each time on the state that the previous item
left. -/
def traverse {α β : Type} (step : α → ReifyState → Option (β × ReifyState)) :
    List α → ReifyState → Option (List β × ReifyState)
  | [], state => some ([], state)
  | item :: items, state => do
      let (result, state) ← step item state
      let (results, state) ← traverse step items state
      pure (result :: results, state)

end ReifyState

/-- The elements with other types, and with their labels. -/
def Element.withTypes (elements : List Element) (types : List Ty) : List Element :=
  List.zipWith (fun element ty => { element with ty }) elements types

namespace Table

/-- Reify a type, unless that takes a path longer than the bound. -/
def reifyWithin (table : Table) : Nat → Ty → ReifyState → Option (Ty × ReifyState)
  | 0, _, _ => none
  | depth + 1, ty, state =>
      let reached := table.walk ty
      match state.graph.branch? reached, reached with
      | some branch, _ => do
          let (children, state) ← ReifyState.traverse (table.reifyWithin depth) branch.children state
          pure (state.intern (branch.withChildren children))
      | none, .tuple id =>
          if id ∈ state.visited then some (reached, state)
          else
            let state := state.enter id
            match state.graph.tuple? id with
            | none => some (reached, state)
            | some node => do
                let (types, state) ←
                  ReifyState.traverse (table.reifyWithin depth) (node.elements.map (·.ty)) state
                pure (reached, state.replaceElements id (Element.withTypes node.elements types))
      | none, _ => some (reached, state)

/-- A bound for the paths of a reification. Between two tuples a path meets no branch twice, and
it enters no tuple twice. -/
def reifyDepth (graph : Graph) : Nat :=
  let bound := graph.branchCount + graph.tuples.size + 2
  bound * bound

/-- Reify a type: the reified handle, and the graph with new branches and changed tuples. There
is none if the type stands for itself inside of a branch. -/
def reify? (table : Table) (graph : Graph) (ty : Ty) : Option (Ty × Graph) :=
  (table.reifyWithin (reifyDepth graph) ty { graph }).map fun (reified, state) =>
    (reified, state.graph)

/-- A table whose types are reified, the graph they are in, and the number of tuples that were
entered on the way. -/
structure Reified where
  table : Table
  graph : Graph
  tuples : Nat
  deriving DecidableEq

/-- Reify listed bindings one after the other, entering every tuple at most once for all of
them. -/
def reifiedAlong? (table : Table) (order : List (Variable × Ty)) (graph : Graph) :
    Option Reified :=
  let depth := reifyDepth graph
  let step := fun (entry : Variable × Ty) (state : ReifyState) =>
    (table.reifyWithin depth entry.2 state).map fun (ty, state) => ((entry.1, ty), state)
  (ReifyState.traverse step order { graph }).map fun (listed, state) =>
    { table := { table with bindings := .ofList listed }
      graph := state.graph
      tuples := state.visited.length }

/-- The table with the same variables and their types reified, in the order of the variables. -/
def reified? (table : Table) (graph : Graph) : Option Reified :=
  table.reifiedAlong? table.entries graph

end Table

end Inference
