import Inference.Proofs.Reification.Growth

/-!
# Graphs that are reached

A graph is reached when it is made from the empty graph by operations that are
given handles of the graph as it is then. Replacing the elements of a tuple and
reifying through any table are among the operations, so tuples may be recursive.
Every operation keeps a graph well-formed and lets it grow (`Step.wellFormed`), so
the graphs that are reached are well-formed (`Reached.wellFormed`).
-/

namespace Inference

open Relation

namespace Graph

/-- One operation on a graph that is given handles of the graph. -/
inductive Step : Graph → Graph → Prop where
  | function {graph domain codomain} :
      graph.Holds domain → graph.Holds codomain → Step graph (graph.function domain codomain).2
  | metatype {graph of} : graph.Holds of → Step graph (graph.metatype of).2
  | union {graph : Graph} {cases : CaseSet} :
      (∀ case ∈ cases.toList, graph.Holds case) → Step graph (graph.union cases).2
  | tuple {graph : Graph} (name) {elements : List Element} :
      (∀ element ∈ elements, graph.Holds element.ty) → Step graph (graph.tuple name elements).2
  | named {graph : Graph} (name) : Step graph (graph.named name).2
  | replaceElements {graph after : Graph} {id previous} {elements : List Element} :
      (∀ element ∈ elements, graph.Holds element.ty) →
      graph.replaceElements? id elements = some (previous, after) → Step graph after
  | reify {graph after : Graph} {table : Table} {ty result} :
      table.Fits graph → graph.Holds ty → table.reify? graph ty = some (result, after) →
      Step graph after
  | reified {graph : Graph} {table : Table} {order reified} :
      table.Fits graph → order.Perm table.entries →
      table.reifiedAlong? order graph = some reified → Step graph reified.graph

/-- The graph is made from the empty graph by such operations. -/
def Reached (graph : Graph) : Prop := ReflTransGen Step ∅ graph

variable {before after graph : Graph}

/-- Every operation keeps a graph well-formed and lets it grow. -/
theorem Step.wellFormed (hstep : Step before after) (hbefore : before.WellFormed) :
    after.WellFormed ∧ before.Grows after := by
  cases hstep with
  | @function domain codomain hdomain hcodomain =>
      refine ⟨hbefore.intern ?_, grows_intern before _⟩
      simp [Branch.children, hdomain, hcodomain]
  | metatype hof =>
      refine ⟨hbefore.intern ?_, grows_intern before _⟩
      simp [Branch.children, hof]
  | union hcases => exact ⟨hbefore.intern hcases, grows_intern before _⟩
  | tuple name helements => exact ⟨hbefore.tuple name helements, grows_tuple before name _⟩
  | named name => exact ⟨hbefore.named name, grows_named before name⟩
  | replaceElements helements hreplace =>
      exact ⟨hbefore.replaceElements? hreplace helements, grows_replaceElements? hreplace⟩
  | reify hfits hty hreify =>
      obtain ⟨finish, rfl, hreifies⟩ := Table.reify?_sound hreify
      obtain ⟨hafter, hadvances, -⟩ :=
        hreifies.advances hfits hbefore (List.forall_mem_singleton.mpr hty)
      exact ⟨hafter, hadvances.grows⟩
  | reified hfits horder hreified =>
      obtain ⟨results, finish, hreifies, rfl⟩ := Table.reifiedAlong?_sound hreified
      obtain ⟨hafter, hadvances, -⟩ :=
        hreifies.advances hfits hbefore (Table.holds_of_perm hfits horder)
      exact ⟨hafter, hadvances.grows⟩

theorem Reached.wellFormed (hreached : graph.Reached) : graph.WellFormed := by
  unfold Reached at hreached
  induction hreached with
  | refl => exact wellFormed_empty
  | tail _ hstep ih => exact (hstep.wellFormed ih).1

/-- A tuple that contains itself in a union with a function and a variable. It contains another
variable, which may stand for the tuple. -/
def looped : Graph where
  functions := ⟨#[⟨.var ⟨1⟩, .tuple 0⟩]⟩
  unions := ⟨#[⟨.ofList [.function 0, .var ⟨2⟩]⟩]⟩
  metatypes := ∅
  tuples := ⟨#[⟨some "Node", [⟨some "self", .var ⟨0⟩⟩, ⟨none, .union 0⟩]⟩]⟩
  nameds := ∅

theorem reached_looped : looped.Reached := by
  have htuple : Reached (tuple ∅ (some "Node") []).2 :=
    .single (.tuple (some "Node") fun _ h => absurd h List.not_mem_nil)
  have hfunction : Reached ((tuple ∅ (some "Node") []).2.function (.var ⟨1⟩) (.tuple 0)).2 :=
    htuple.tail (.function trivial (by decide))
  have hcases : ∀ case ∈ (CaseSet.ofList [.function 0, .var ⟨2⟩]).toList,
      Holds ((tuple ∅ (some "Node") []).2.function (.var ⟨1⟩) (.tuple 0)).2 case := by decide
  have helements : ∀ element ∈ [Element.mk (some "self") (.var ⟨0⟩), ⟨none, .union 0⟩],
      Holds (((tuple ∅ (some "Node") []).2.function (.var ⟨1⟩) (.tuple 0)).2.union
        (.ofList [.function 0, .var ⟨2⟩])).2 element.ty := by decide
  exact (hfunction.tail (.union hcases)).tail (@Step.replaceElements _ _ 0 [] _ helements rfl)

end Graph

end Inference
