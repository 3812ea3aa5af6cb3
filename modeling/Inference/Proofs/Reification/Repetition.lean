import Inference.Proofs.Reification.Resolved
import Inference.Proofs.Session

/-!
# Entering tuples again

The bindings of a table are reified with one record of the tuples that are entered.
Without it, each of them would enter again the tuples that earlier ones have
entered, and this would make no difference (`reified_agrees_with_each`).

Read `Lags` first. It relates a state to one that has forgotten some tuples which
are finished. Both states give the same handles and the same graph
(`Reifies.lags`): where one state returns a tuple at once, the other one may enter
it, but then its elements are resolved and nothing changes.
-/

namespace Inference

open Relation

namespace ReifyState

theorem tuple?_replaceElements_of_ne {state : ReifyState} {id other : Nat}
    (elements : List Element) (hne : other ≠ id) :
    (state.replaceElements id elements).graph.tuple? other = state.graph.tuple? other := by
  obtain ⟨-, heq⟩ | ⟨previous, graph, hreplace, heq⟩ := state.replaceElements_cases id elements
  · rw [heq]
  · obtain ⟨_, -, -, htuple, -⟩ := Graph.replaceElements?_cases hreplace
    rw [heq]
    exact (htuple other).trans (if_neg hne)

theorem graph_replaceElements_congr {state other : ReifyState} (hgraph : other.graph = state.graph)
    (id : Nat) (elements : List Element) :
    (other.replaceElements id elements).graph = (state.replaceElements id elements).graph := by
  unfold replaceElements
  rw [hgraph]
  cases state.graph.replaceElements? id elements with
  | some pair => rfl
  | none => exact hgraph

end ReifyState

namespace Table

variable {table : Table} {graph : Graph} {state middle finish other last : ReifyState} {ty : Ty}
  {tys results : List Ty} {id : Nat} {done : List Nat}

/-- Handles can be reified one after the other from every state, whatever tuples are entered. -/
theorem exists_reifies (hgrounded : table.Grounded state.graph)
    (hholds : ∀ ty ∈ tys, state.graph.Holds ty) :
    ∃ results finish, table.Reifies state tys results finish := by
  obtain ⟨results, finish, htraverse⟩ := traverse_returns hgrounded.wellFormed hgrounded.fits
    hgrounded.next (reifyWithin_returns hgrounded.wellFormed hgrounded.fits hgrounded.next)
    (.self hgrounded.wellFormed) hholds fun ty _ => effort_lt_reifyDepth table state.graph state ty
  exact ⟨results, finish, traverse_sound reifyWithin_sound htraverse⟩

/-- Reifying handles from any state leads to a graph in which handles can be reified. -/
theorem Grounded.of_reifies (hgrounded : table.Grounded state.graph)
    (hreifies : table.Reifies state tys results finish)
    (hholds : ∀ ty ∈ tys, state.graph.Holds ty) :
    table.Grounded finish.graph ∧ state.graph.Grows finish.graph := by
  obtain ⟨hfinish, hgrows⟩ :=
    hreifies.grows hgrounded.fits (.self hgrounded.wellFormed) hholds
  exact ⟨hgrounded.of_grows hgrows hfinish, hgrows⟩

/-! ## Forgotten tuples -/

/-- The other state has the same graph, and it has forgotten some of the tuples that are done. -/
structure Lags (table : Table) (done : List Nat) (state other : ReifyState) : Prop where
  graph : other.graph = state.graph
  visited : ∀ {id}, id ∈ state.visited ↔ id ∈ other.visited ∨ id ∈ done
  finished : table.Finished { graph := state.graph, visited := done }

theorem Lags.start (hfinished : table.Finished state) :
    table.Lags state.visited state { graph := state.graph } :=
  ⟨rfl, by simp, hfinished⟩

theorem Lags.enter (hlags : table.Lags done state other) (id : Nat) :
    table.Lags done (state.enter id) (other.enter id) where
  graph := hlags.graph
  visited {found} := by
    simp only [ReifyState.enter, List.mem_cons, hlags.visited, or_assoc]
  finished := hlags.finished

theorem Lags.intern (hlags : table.Lags done state other) (hgraph : state.graph.WellFormed)
    (branch : Branch) :
    (other.intern branch).1 = (state.intern branch).1 ∧
      table.Lags done (state.intern branch).2 (other.intern branch).2 := by
  have hsame : other.graph.intern branch = state.graph.intern branch := by rw [hlags.graph]
  refine ⟨congrArg (·.1) hsame, congrArg (·.2) hsame, hlags.visited, ?_⟩
  refine hlags.finished.of_grows hgraph (Graph.grows_intern state.graph branch) ?_
  intro id _
  show Arena.get? (state.graph.intern branch).2.tuples id = _
  rw [Graph.tuples_intern]
  rfl

theorem Lags.replaceElements (hlags : table.Lags done state other)
    (hgraph : state.graph.WellFormed) (hid : id ∉ done) (elements : List Element) :
    table.Lags done (state.replaceElements id elements) (other.replaceElements id elements) where
  graph := ReifyState.graph_replaceElements_congr hlags.graph id elements
  visited := by
    intro found
    rw [ReifyState.visited_replaceElements, ReifyState.visited_replaceElements]
    exact hlags.visited
  finished := by
    refine hlags.finished.of_grows hgraph (state.advances_replaceElements id elements).grows ?_
    intro found hfound
    refine ReifyState.tuple?_replaceElements_of_ne elements ?_
    intro heq
    exact hid (heq ▸ hfound)

/-- A tuple that is done may be entered again, which changes nothing. -/
theorem Lags.again (hlags : table.Lags done state other) (hgrounded : table.Grounded state.graph)
    (hwalk : table.walk ty = .tuple id) (hholds : state.graph.Holds (.tuple id))
    (hdone : id ∈ done) (hforgotten : id ∉ other.visited) :
    ∃ last, table.Reifies other [ty] [.tuple id] last ∧ table.Lags done state last := by
  have hgraph := hlags.graph
  rw [← hgraph] at hgrounded hholds
  obtain ⟨node, hnode⟩ := Option.isSome_iff_exists.mp hholds
  have hpart : ∀ element ∈ node.elements.map (·.ty),
      other.graph.ElementOf (.tuple id) element :=
    fun element helement => ⟨id, node, rfl, hnode, helement⟩
  have hfinished := hlags.finished
  rw [← hgraph] at hfinished
  have hcovered : ∀ element ∈ node.elements.map (·.ty),
      table.Covered { graph := other.graph, visited := done } element :=
    fun element helement => hfinished.covered hdone (hpart element helement)
  have helements : ∀ element ∈ node.elements.map (·.ty), other.graph.Holds element :=
    fun element helement => hgrounded.wellFormed.holds_element (hpart element helement)
  have hresolved : ∀ element ∈ node.elements.map (·.ty), table.Resolved other.graph element :=
    fun element helement => (hcovered element helement).resolved hfinished
  have hentered : table.Grounded (other.enter id).graph := hgrounded
  obtain ⟨types, middle, hreifies⟩ := exists_reifies hentered helements
  obtain ⟨rfl, hmiddle⟩ := hreifies.of_resolved hgrounded.wellFormed hresolved
  obtain ⟨hpass, -⟩ := hreifies.pass hgrounded.wellFormed hgrounded.fits hgrounded.chains
    ((Ready.self hgrounded.wellFormed).enter id) helements
  have hkept : middle.graph.tuple? id = some node := by
    rw [hmiddle]
    exact hnode
  have hlast := Reifies.tuple hwalk hforgotten hnode hreifies
  rw [Element.withTypes_self, ReifyState.replaceElements_self hkept] at hlast
  refine ⟨middle, hlast, hmiddle.trans hgraph, ?_, hlags.finished⟩
  intro found
  rw [hlags.visited]
  constructor
  · rintro (hin | hin)
    · exact .inl (hpass.visited (List.mem_cons_of_mem id hin))
    · exact .inr hin
  · rintro (hin | hin)
    · by_cases henters : (other.enter id).Enters middle found
      · -- What is entered below the tuple is done, because the tuple is finished.
        obtain ⟨element, helement, hpath⟩ := hpass.reached henters
        have hparts := (hresolved element helement).path_of_reach hpath
        exact .inr (((hcovered element helement).of_path hfinished hparts).entered .refl)
      · have hbefore : found ∈ (other.enter id).visited :=
          Classical.byContradiction fun hnot => henters ⟨hnot, hin⟩
        obtain rfl | hold := List.mem_cons.mp hbefore
        · exact .inr hdone
        · exact .inl hold
    · exact .inr hin

/-- A state that has forgotten tuples that are done reifies handles to the same handles, and it
leaves the same graph. -/
theorem Reifies.lags (hreifies : table.Reifies state tys results finish)
    (hlags : table.Lags done state other) (hgrounded : table.Grounded state.graph)
    (hholds : ∀ ty ∈ tys, state.graph.Holds ty) :
    ∃ last, table.Reifies other tys results last ∧ table.Lags done finish last := by
  induction hreifies generalizing other with
  | nil => exact ⟨other, .nil other, hlags⟩
  | @cons state middle finish ty tys result results hfirst _ ihFirst ihRest =>
      have hty := List.forall_mem_singleton.mpr (hholds ty List.mem_cons_self)
      obtain ⟨hmiddle, hgrows⟩ := hgrounded.of_reifies hfirst hty
      obtain ⟨between, hbetween, hlags⟩ := ihFirst hlags hgrounded hty
      obtain ⟨last, hlast, hlags⟩ := ihRest hlags hmiddle
        fun other hother => hgrows.holds (hholds other (List.mem_cons_of_mem ty hother))
      exact ⟨last, .cons hbetween hlast, hlags⟩
  | @branch state middle ty branch children hbranch hchildren ih =>
      have hin : ∀ child ∈ branch.children, state.graph.Holds child :=
        fun child hchild => hgrounded.wellFormed.holds_of_mem hbranch hchild
      obtain ⟨hmiddle, -⟩ := hgrounded.of_reifies hchildren hin
      obtain ⟨last, hlast, hlags'⟩ := ih hlags hgrounded hin
      obtain ⟨hsame, hlags'⟩ := hlags'.intern hmiddle.wellFormed (branch.withChildren children)
      rw [← hlags.graph] at hbranch
      refine ⟨_, ?_, hlags'⟩
      rw [← hsame]
      exact .branch hbranch hlast
  | @tuple state middle ty id node types hwalk hunentered hnode helements ih =>
      have hin : ∀ element ∈ node.elements.map (·.ty), state.graph.Holds element :=
        fun element helement =>
          hgrounded.wellFormed.holds_element ⟨id, node, rfl, hnode, helement⟩
      have hnot : id ∉ other.visited ∧ id ∉ done := by
        rw [hlags.visited, not_or] at hunentered
        exact hunentered
      have hentered : table.Grounded (state.enter id).graph := hgrounded
      obtain ⟨hmiddle, -⟩ := hentered.of_reifies helements hin
      obtain ⟨last, hlast, hlags'⟩ := ih (hlags.enter id) hgrounded hin
      rw [← hlags.graph] at hnode
      exact ⟨_, .tuple hwalk hnot.1 hnode hlast,
        hlags'.replaceElements hmiddle.wellFormed hnot.2 _⟩
  | @again state ty id hwalk hentered =>
      by_cases hknown : id ∈ other.visited
      · exact ⟨other, .again hwalk hknown, hlags⟩
      · have hdone := (hlags.visited.mp hentered).resolve_left hknown
        have hreached :=
          holds_walk hgrounded.fits hgrounded.wellFormed (hholds ty List.mem_cons_self)
        rw [hwalk] at hreached
        exact hlags.again hgrounded hwalk hreached hdone hknown
  | @missing state ty id hwalk hunentered hmissing =>
      have hnot : id ∉ other.visited := fun hin => hunentered (hlags.visited.mpr (.inl hin))
      rw [← hlags.graph] at hmissing
      exact ⟨other.enter id, .missing hwalk hnot hmissing, hlags.enter id⟩
  | @leaf state ty hnone hnotuple =>
      rw [← hlags.graph] at hnone
      exact ⟨other, .leaf hnone hnotuple, hlags⟩

/-! ## One record for all bindings, and one record for each -/

/-- Reify listed bindings one after the other, each one in the graph that the one before leaves and
from the state in which no tuple is entered. -/
def reifyEach? (table : Table) :
    List (Variable × Ty) → Graph → Option (List (Variable × Ty) × Graph)
  | [], graph => some ([], graph)
  | (subject, ty) :: order, graph => do
      let (result, graph) ← table.reify? graph ty
      let (listed, graph) ← table.reifyEach? order graph
      pure ((subject, result) :: listed, graph)

theorem Reifies.cons_cases (hreifies : table.Reifies state (ty :: tys) results finish) :
    ∃ result rest middle, results = result :: rest ∧
      table.Reifies state [ty] [result] middle ∧ table.Reifies middle tys rest finish := by
  cases hreifies with
  | cons hfirst hrest => exact ⟨_, _, _, rfl, hfirst, hrest⟩
  | branch hbranch hchildren => exact ⟨_, _, _, rfl, .branch hbranch hchildren, .nil _⟩
  | tuple hwalk hid hnode helements =>
      exact ⟨_, _, _, rfl, .tuple hwalk hid hnode helements, .nil _⟩
  | again hwalk hid => exact ⟨_, _, _, rfl, .again hwalk hid, .nil _⟩
  | missing hwalk hid hmissing => exact ⟨_, _, _, rfl, .missing hwalk hid hmissing, .nil _⟩
  | leaf hnone hnotuple => exact ⟨_, _, _, rfl, .leaf hnone hnotuple, .nil _⟩

/-- What is related from the state in which no tuple is entered is what reifying returns. -/
theorem reify?_of_reifies (hgrounded : table.Grounded graph) {result : Ty}
    (hreifies : table.Reifies { graph } [ty] [result] finish) :
    table.reify? graph ty = some (result, finish.graph) := by
  obtain ⟨found, last, hreify, hreturns⟩ :=
    reify?_returns hgrounded.wellFormed hgrounded.fits hgrounded.next ty
  obtain ⟨heq, rfl⟩ := (reifyWithin_sound (hreturns _ (Nat.le_refl _))).unique hreifies
  cases heq
  exact hreify

/-- From a state whose tuples are finished, every binding is reified as if no tuple were entered. -/
theorem Reifies.reifyEach?_eq {order : List (Variable × Ty)}
    (hreifies : table.Reifies state (order.map (·.2)) results finish)
    (hfinished : table.Finished state) (hgrounded : table.Grounded state.graph)
    (hholds : ∀ ty ∈ order.map (·.2), state.graph.Holds ty) :
    table.reifyEach? order state.graph =
      some ((order.map (·.1)).zip results, finish.graph) := by
  induction order generalizing state results with
  | nil =>
      cases hreifies
      rfl
  | cons entry order ih =>
      obtain ⟨result, rest, middle, rfl, hfirst, hrest⟩ := hreifies.cons_cases
      have hty := List.forall_mem_singleton.mpr (hholds entry.2 List.mem_cons_self)
      obtain ⟨hmiddle, hgrows⟩ := hgrounded.of_reifies hfirst hty
      obtain ⟨hnext, -⟩ := hfinished.of_reifies hfirst hgrounded hty
      obtain ⟨last, hlast, hlags⟩ := hfirst.lags (.start hfinished) hgrounded hty
      have hreify := reify?_of_reifies hgrounded hlast
      rw [hlags.graph] at hreify
      have hothers := ih hrest hnext hmiddle fun other hother =>
        hgrows.holds (hholds other (List.mem_cons_of_mem _ hother))
      simp [Table.reifyEach?, hreify, hothers]

/-- Reifying the bindings of a table with one record of the tuples that are entered gives the same
handle for every variable and the same graph as reifying them one after the other, each with a
record of its own. -/
theorem reified_agrees_with_each {order : List (Variable × Ty)} (hreached : graph.Reached)
    (hfits : table.Fits graph) (hacyclic : Acyclic (table.DependsOn graph))
    (horder : order.Perm table.entries) : ∃ reified listed,
      table.reifiedAlong? order graph = some reified ∧
      table.reifyEach? order graph = some (listed, reified.graph) ∧
      listed.map (·.1) = order.map (·.1) ∧
      ∀ subject ty, (subject, ty) ∈ listed ↔ reified.table.get? subject = some ty := by
  have hgrounded : table.Grounded graph := .of_dependsOn hreached.wellFormed hfits hacyclic
  have hholds := holds_of_perm hfits horder
  obtain ⟨results, finish, hreified, hreifies⟩ := exists_reifiedAlong hgrounded horder
  have hlength : results.length = order.length := by
    rw [hreifies.length_eq, List.length_map]
  have hkeys := Bindings.map_fst_zip_entries hlength
  refine ⟨_, _, hreified,
    hreifies.reifyEach?_eq (finished_start table graph) hgrounded hholds, hkeys, ?_⟩
  intro subject ty
  refine (Bindings.get?_ofList_eq_some_iff ?_).symm
  rw [hkeys]
  exact Bindings.nodup_of_perm horder

theorem reified_agrees_with_each_looped : ∃ reified listed,
    looped.reifiedAlong? looped.entries.reverse .looped = some reified ∧
    looped.reifyEach? looped.entries.reverse .looped = some (listed, reified.graph) ∧
    listed.map (·.1) = looped.entries.reverse.map (·.1) ∧
    ∀ subject ty, (subject, ty) ∈ listed ↔ reified.table.get? subject = some ty :=
  have hsound := Session.reached_looped.sound.tables looped List.mem_cons_self
  reified_agrees_with_each Graph.reached_looped hsound.fits hsound.acyclic
    (List.reverse_perm _)

-- The function is reified first and enters the tuple, which is entered again for variable 0.
example : (looped.reifyEach? looped.entries.reverse .looped).map (·.1) =
    some [(⟨3⟩, .function 1), (⟨2⟩, .function 1), (⟨1⟩, .primitive .int), (⟨0⟩, .tuple 0)] := by
  decide

end Table

end Inference
