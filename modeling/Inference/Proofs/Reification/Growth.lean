import Inference.Proofs.Unfolding
import Inference.Proofs.Reification.Relation

/-!
# What reification does to a graph

Through a table whose types are handles of a well-formed graph, reifying a handle
gives a handle, keeps the graph well-formed and adds branches only: the branches
and named types that are there stay under their handles, and no tuple or named
type is added (`Reifies.advances`). This holds for every table, whatever cycles
its bindings have.
-/

namespace Inference

namespace ReifyState

/-- The nodes of one state are in another one, which has no further tuples or named types. -/
structure Advances (state finish : ReifyState) : Prop where
  grows : state.graph.Grows finish.graph
  tuples : finish.graph.tuples.size = state.graph.tuples.size
  nameds : finish.graph.nameds = state.graph.nameds

theorem Advances.refl (state : ReifyState) : Advances state state := ⟨.refl _, rfl, rfl⟩

theorem Advances.trans {state middle finish : ReifyState} (hfirst : Advances state middle)
    (hsecond : Advances middle finish) : Advances state finish :=
  ⟨hfirst.grows.trans hsecond.grows, hsecond.tuples.trans hfirst.tuples,
    hsecond.nameds.trans hfirst.nameds⟩

theorem advances_intern (state : ReifyState) (branch : Branch) :
    Advances state (state.intern branch).2 :=
  ⟨Graph.grows_intern state.graph branch,
    congrArg Arena.size (Graph.tuples_intern state.graph branch),
    Graph.nameds_intern state.graph branch⟩

/-- Replacing elements in a state either replaces them in its graph or does nothing. -/
theorem replaceElements_cases (state : ReifyState) (id : Nat) (elements : List Element) :
    state.graph.tuple? id = none ∧ state.replaceElements id elements = state ∨
      ∃ previous graph, state.graph.replaceElements? id elements = some (previous, graph) ∧
        state.replaceElements id elements = { state with graph } := by
  unfold replaceElements
  cases hreplace : state.graph.replaceElements? id elements with
  | some pair => exact .inr ⟨pair.1, pair.2, rfl, rfl⟩
  | none =>
      refine .inl ⟨?_, rfl⟩
      cases hnode : state.graph.tuple? id with
      | none => rfl
      | some node =>
          have hfound : state.graph.tuples.get? id = some node := hnode
          simp [Graph.replaceElements?, hfound, Arena.set?] at hreplace

theorem advances_replaceElements (state : ReifyState) (id : Nat) (elements : List Element) :
    Advances state (state.replaceElements id elements) := by
  obtain ⟨-, heq⟩ | ⟨previous, graph, hreplace, heq⟩ := state.replaceElements_cases id elements
  · rw [heq]
    exact .refl state
  · rw [heq]
    obtain ⟨_, -, -, -, -, hsize, hnameds⟩ := Graph.replaceElements?_cases hreplace
    exact ⟨Graph.grows_replaceElements? hreplace, hsize, hnameds⟩

theorem wellFormed_replaceElements {state : ReifyState} {id : Nat} {elements : List Element}
    (hgraph : state.graph.WellFormed)
    (helements : ∀ element ∈ elements, state.graph.Holds element.ty) :
    (state.replaceElements id elements).graph.WellFormed := by
  obtain ⟨-, heq⟩ | ⟨previous, graph, hreplace, heq⟩ := state.replaceElements_cases id elements
  · rw [heq]
    exact hgraph
  · rw [heq]
    exact hgraph.replaceElements? hreplace helements

end ReifyState

/-- The types of elements that are given other types are among those types. -/
theorem Element.mem_withTypes {elements : List Element} {types : List Ty} {element : Element}
    (helement : element ∈ Element.withTypes elements types) : element.ty ∈ types := by
  unfold Element.withTypes at helement
  induction elements generalizing types with
  | nil => simp at helement
  | cons first rest ih =>
      cases types with
      | nil => simp at helement
      | cons ty types =>
          rw [List.zipWith_cons_cons, List.mem_cons] at helement
          obtain rfl | hrest := helement
          · exact List.mem_cons_self
          · exact List.mem_cons_of_mem _ (ih hrest)

namespace Table

variable {table : Table}

theorem holds_walk {graph : Graph} {ty : Ty} (hfits : table.Fits graph) (hgraph : graph.WellFormed)
    (hholds : graph.Holds ty) : graph.Holds (table.walk ty) :=
  holds_of_path hfits hgraph hholds (path_of_links graph (path_walk table ty))

/-- Reifying handles of a well-formed graph keeps the graph well-formed, adds branches only, and
gives handles. -/
theorem Reifies.advances {state finish : ReifyState} {tys results : List Ty}
    (hreifies : table.Reifies state tys results finish) (hfits : table.Fits state.graph)
    (hgraph : state.graph.WellFormed) (hholds : ∀ ty ∈ tys, state.graph.Holds ty) :
    finish.graph.WellFormed ∧ state.Advances finish ∧
      ∀ result ∈ results, finish.graph.Holds result := by
  induction hreifies with
  | nil state => exact ⟨hgraph, .refl state, hholds⟩
  | @cons state middle finish ty tys result results _ _ ihFirst ihRest =>
      obtain ⟨hmiddle, hfirst, hresult⟩ := ihFirst hfits hgraph
        fun other hother => hholds other (List.mem_cons.mpr (.inl (List.mem_singleton.mp hother)))
      have hgrows := hfirst.grows
      obtain ⟨hfinish, hrest, hresults⟩ := ihRest (hfits.of_grows hgrows) hmiddle
        fun other hother => hgrows.holds (hholds other (List.mem_cons_of_mem ty hother))
      refine ⟨hfinish, hfirst.trans hrest, ?_⟩
      intro other hother
      rcases List.mem_cons.mp hother with rfl | hin
      · exact hrest.grows.holds (hresult other List.mem_cons_self)
      · exact hresults other hin
  | @branch state middle ty branch children hbranch hchildren ih =>
      obtain ⟨hmiddle, hadvances, hresults⟩ := ih hfits hgraph
        fun child hchild => hgraph.holds_of_mem hbranch hchild
      refine ⟨hmiddle.intern ?_, hadvances.trans (middle.advances_intern _), ?_⟩
      · intro child hchild
        rw [Branch.mem_children_withChildren hchildren.length_eq] at hchild
        exact hresults child hchild
      · intro result hresult
        rw [List.mem_singleton.mp hresult]
        exact Graph.holds_intern middle.graph _
  | @tuple state middle ty id node types heq _ hnode _ ih =>
      -- Entering the tuple leaves the graph as it is; its elements are replaced after their turn.
      have hreached := holds_walk hfits hgraph (hholds ty List.mem_cons_self)
      have helements : ∀ element ∈ node.elements.map (·.ty), state.graph.Holds element :=
        fun element helement => hgraph.holds_element ⟨id, node, rfl, hnode, helement⟩
      obtain ⟨hmiddle, hentered, hresults⟩ := ih hfits hgraph helements
      have hadvances : state.Advances middle := ⟨hentered.grows, hentered.tuples, hentered.nameds⟩
      have hlast := middle.advances_replaceElements id (Element.withTypes node.elements types)
      refine ⟨ReifyState.wellFormed_replaceElements hmiddle ?_, hadvances.trans hlast, ?_⟩
      · intro element helement
        exact hresults element.ty (Element.mem_withTypes helement)
      · intro result hresult
        rw [List.mem_singleton.mp hresult, ← heq]
        exact (hadvances.trans hlast).grows.holds hreached
  | @again state ty id heq =>
      refine ⟨hgraph, .refl state, ?_⟩
      rw [List.forall_mem_singleton, ← heq]
      exact holds_walk hfits hgraph (hholds ty List.mem_cons_self)
  | @missing state ty id heq =>
      refine ⟨hgraph, ⟨.refl _, rfl, rfl⟩, ?_⟩
      rw [List.forall_mem_singleton, ← heq]
      exact holds_walk hfits hgraph (hholds ty List.mem_cons_self)
  | @leaf state ty =>
      refine ⟨hgraph, .refl state, ?_⟩
      rw [List.forall_mem_singleton]
      exact holds_walk hfits hgraph (hholds ty List.mem_cons_self)

end Table

end Inference
