import Inference.Proofs.Reification.Settling

/-!
# The tuples that reification rewrites

Reification enters exactly the tuples that can be reached from the reified types
through bindings, branches and elements (`Reifies.mem_visited_iff`). It rewrites
each of them once, to elements that have the trees which the elements had before,
and it leaves all others alone. Read `Pass` first: it says what one part of a
reification does, whatever tuples are already entered.
-/

namespace Inference

open Relation

namespace ReifyState

/-- The part of a reification between the states enters the tuple. -/
def Enters (state finish : ReifyState) (id : Nat) : Prop :=
  id ∉ state.visited ∧ id ∈ finish.visited

theorem visited_replaceElements (state : ReifyState) (id : Nat) (elements : List Element) :
    (state.replaceElements id elements).visited = state.visited := by
  obtain ⟨-, heq⟩ | ⟨previous, graph, -, heq⟩ := state.replaceElements_cases id elements
  · rw [heq]
  · rw [heq]

theorem enters_replaceElements {state middle : ReifyState} {id other : Nat}
    {elements : List Element} :
    state.Enters (middle.replaceElements id elements) other ↔ state.Enters middle other := by
  unfold Enters
  rw [visited_replaceElements]

theorem tuple?_replaceElements {state : ReifyState} {id : Nat} {node : TupleNode}
    (hnode : state.graph.tuple? id = some node) (elements : List Element) (other : Nat) :
    (state.replaceElements id elements).graph.tuple? other =
      if other = id then some ⟨node.name, elements⟩ else state.graph.tuple? other := by
  obtain ⟨hnone, -⟩ | ⟨previous, graph, hreplace, heq⟩ := state.replaceElements_cases id elements
  · simp [hnone] at hnode
  · obtain ⟨found, hfound, -, htuple, -⟩ := Graph.replaceElements?_cases hreplace
    rw [hnode] at hfound
    cases hfound
    rw [heq]
    exact htuple other

end ReifyState

namespace Table

/-- The step along a binding, from a branch to a child, or from a tuple to the type of an
element. -/
def Reach (table : Table) (graph : Graph) (ty next : Ty) : Prop :=
  table.Next graph ty next ∨ graph.ElementOf ty next

/-- A state that the reification of types of the original graph may be in: only tuples that are
entered differ from the original ones. -/
structure Ready (origin : Graph) (state : ReifyState) : Prop where
  grows : origin.Grows state.graph
  wellFormed : state.graph.WellFormed
  unentered : ∀ {id}, id ∉ state.visited → state.graph.tuple? id = origin.tuple? id

/-- What the reification of types of the original graph does between two states. The tuples that it
enters can be reached from the types, and they settle. The tuples that are met without entering
another tuple, from the types or from the elements of a tuple that is entered, are entered at the
end. All other tuples stay as they are. -/
structure Pass (table : Table) (origin : Graph) (tys : List Ty) (state finish : ReifyState) :
    Prop where
  visited : ∀ {id}, id ∈ state.visited → id ∈ finish.visited
  untouched : ∀ {id}, ¬ state.Enters finish id →
    finish.graph.tuple? id = state.graph.tuple? id
  settled : ∀ {id}, state.Enters finish id → table.SettlesTuple origin finish.graph id
  reached : ∀ {id}, state.Enters finish id →
    ∃ ty ∈ tys, ReflTransGen (table.Reach origin) ty (.tuple id)
  closed : ∀ {id element other}, state.Enters finish id → origin.ElementOf (.tuple id) element →
    ReflTransGen (table.Next origin) element (.tuple other) → other ∈ finish.visited
  direct : ∀ {ty id}, ty ∈ tys → ReflTransGen (table.Next origin) ty (.tuple id) →
    id ∈ finish.visited

variable {table : Table} {origin : Graph} {state middle finish : ReifyState} {ty : Ty}
  {tys : List Ty}

theorem reach_of_next {next : Ty} (hpath : ReflTransGen (table.Next origin) ty next) :
    ReflTransGen (table.Reach origin) ty next :=
  ReflTransGen.mono (fun _ _ => Or.inl) _ _ hpath

/-- From a handle of a well-formed graph, bindings, branches and elements lead to handles of the
graph. -/
theorem holds_of_reach {next : Ty} (hfits : table.Fits origin) (horigin : origin.WellFormed)
    (hholds : origin.Holds ty) (hpath : ReflTransGen (table.Reach origin) ty next) :
    origin.Holds next := by
  induction hpath with
  | refl => exact hholds
  | tail _ hstep ih =>
      obtain hnext | helement := hstep
      · exact holds_of_path hfits horigin ih (.single hnext)
      · exact horigin.holds_element helement

/-- From a type whose chain ends at a tuple, bindings and branches lead to no other tuple. -/
theorem tuple_of_path {id other : Nat} (hchains : Acyclic table.Link)
    (hwalk : table.walk ty = .tuple id)
    (hpath : ReflTransGen (table.Next origin) ty (.tuple other)) : id = other := by
  obtain heq | ⟨child, hchild, -⟩ := next_path_cases hchains (not_link_tuple table other) hpath
  · rw [hwalk] at heq
    cases heq
    rfl
  · simp [hwalk, Graph.Child, Graph.children, Graph.branch?] at hchild

theorem Ready.of_pass (hready : Ready origin state) (hpass : table.Pass origin tys state finish)
    (hgrows : state.graph.Grows finish.graph) (hfinish : finish.graph.WellFormed) :
    Ready origin finish where
  grows := hready.grows.trans hgrows
  wellFormed := hfinish
  unentered hid := by
    rw [hpass.untouched fun henters => hid henters.2]
    exact hready.unentered fun hvisited => hid (hpass.visited hvisited)

theorem Ready.start (horigin : origin.WellFormed) : Ready origin { graph := origin } :=
  ⟨.refl origin, horigin, fun _ => rfl⟩

theorem Ready.enter (hready : Ready origin state) (id : Nat) : Ready origin (state.enter id) where
  grows := hready.grows
  wellFormed := hready.wellFormed
  unentered hother := hready.unentered fun hin => hother (List.mem_cons_of_mem id hin)

/-! ## The parts of a reification -/

/-- Nothing happens if all tuples that can be met are entered. -/
theorem Pass.refl (hdirect : ∀ {ty id}, ty ∈ tys →
    ReflTransGen (table.Next origin) ty (.tuple id) → id ∈ state.visited) :
    table.Pass origin tys state state where
  visited := id
  untouched _ := rfl
  settled henters := absurd henters.2 henters.1
  reached henters := absurd henters.2 henters.1
  closed henters := absurd henters.2 henters.1
  direct := hdirect

/-- A tuple that is entered on the way is entered before or after any state in between. -/
theorem enters_cases (middle : ReifyState) {id : Nat} (henters : state.Enters finish id) :
    state.Enters middle id ∨ middle.Enters finish id := by
  by_cases hmiddle : id ∈ middle.visited
  · exact .inl ⟨henters.1, hmiddle⟩
  · exact .inr ⟨hmiddle, henters.2⟩

theorem Pass.cons (hfirst : table.Pass origin [ty] state middle)
    (hrest : table.Pass origin tys middle finish) (hmiddle : middle.graph.WellFormed)
    (hgrows : middle.graph.Grows finish.graph) :
    table.Pass origin (ty :: tys) state finish where
  visited hid := hrest.visited (hfirst.visited hid)
  untouched {id} hid := by
    have hafter : ¬ middle.Enters finish id := fun henters =>
      hid ⟨fun hvisited => henters.1 (hfirst.visited hvisited), henters.2⟩
    have hbefore : ¬ state.Enters middle id := fun henters =>
      hid ⟨henters.1, hrest.visited henters.2⟩
    rw [hrest.untouched hafter, hfirst.untouched hbefore]
  settled henters := by
    obtain hbefore | hafter := enters_cases middle henters
    · exact (hfirst.settled hbefore).of_grows hmiddle hgrows
        (hrest.untouched fun hafter => hafter.1 hbefore.2)
    · exact hrest.settled hafter
  reached henters := by
    obtain hbefore | hafter := enters_cases middle henters
    · obtain ⟨other, hother, hpath⟩ := hfirst.reached hbefore
      rw [List.mem_singleton.mp hother] at hpath
      exact ⟨ty, List.mem_cons_self, hpath⟩
    · obtain ⟨other, hother, hpath⟩ := hrest.reached hafter
      exact ⟨other, List.mem_cons_of_mem ty hother, hpath⟩
  closed henters helement hpath := by
    obtain hbefore | hafter := enters_cases middle henters
    · exact hrest.visited (hfirst.closed hbefore helement hpath)
    · exact hrest.closed hafter helement hpath
  direct hother hpath := by
    obtain heq | hin := List.mem_cons.mp hother
    · exact hrest.visited (hfirst.direct (List.mem_singleton.mpr heq) hpath)
    · exact hrest.direct hin hpath

/-- Reifying a branch meets the tuples that its children meet. -/
theorem Pass.branch {branch interned : Branch}
    (hpass : table.Pass origin branch.children state middle) (hchains : Acyclic table.Link)
    (hbranch : origin.branch? (table.walk ty) = some branch)
    (hmiddle : middle.graph.WellFormed) :
    table.Pass origin [ty] state (middle.intern interned).2 := by
  have htuple : ∀ id, (middle.intern interned).2.graph.tuple? id = middle.graph.tuple? id := by
    intro id
    show Arena.get? (middle.graph.intern interned).2.tuples id = _
    rw [Graph.tuples_intern]
    rfl
  exact {
    visited := hpass.visited
    closed := hpass.closed
    untouched := by
      intro id hid
      rw [htuple]
      exact hpass.untouched hid
    settled := by
      intro id henters
      exact (hpass.settled henters).of_grows hmiddle (Graph.grows_intern middle.graph interned)
        (htuple id)
    reached := by
      intro id henters
      obtain ⟨child, hchild, hpath⟩ := hpass.reached henters
      refine ⟨ty, List.mem_cons_self, ?_⟩
      have hstep : table.Reach origin (table.walk ty) child :=
        .inl (.inr (Graph.mem_children_iff.mpr ⟨branch, hbranch, hchild⟩))
      exact (reach_of_next (path_of_links origin (path_walk table ty))).trans (.head hstep hpath)
    direct := by
      intro other id hother hpath
      rw [List.mem_singleton.mp hother] at hpath
      -- The path leads on from the branch at the end of the chain.
      obtain heq | ⟨child, hchild, hrest⟩ :=
        next_path_cases hchains (not_link_tuple table id) hpath
      · rw [heq] at hbranch
        cases hbranch
      · rw [Graph.Child, Graph.children_eq hbranch] at hchild
        exact hpass.direct hchild hrest }

/-- After a tuple is entered, what is entered is the tuple or another one. -/
theorem enters_enter (id : Nat) {other : Nat} (henters : state.Enters middle other) :
    other = id ∨ other ≠ id ∧ (state.enter id).Enters middle other := by
  by_cases heq : other = id
  · exact .inl heq
  · refine .inr ⟨heq, ?_, henters.2⟩
    intro hin
    exact henters.1 ((List.mem_cons.mp hin).resolve_left heq)

/-- Reifying a tuple for the first time enters it and meets the tuples that its elements meet. -/
theorem Pass.tuple {id : Nat} {node : TupleNode} {types : List Ty}
    (hpass : table.Pass origin (node.elements.map (·.ty)) (state.enter id) middle)
    (hchains : Acyclic table.Link) (hwalk : table.walk ty = .tuple id)
    (hunentered : id ∉ state.visited) (hstate : state.graph.tuple? id = some node)
    (hnode : origin.tuple? id = some node) (hmiddle : middle.graph.WellFormed)
    (hsettles : List.Forall₂ (table.Settles origin middle.graph) (node.elements.map (·.ty)) types) :
    table.Pass origin [ty] state
      (middle.replaceElements id (Element.withTypes node.elements types)) := by
  have hentered : id ∈ (state.enter id).visited := List.mem_cons_self
  have hkept : middle.graph.tuple? id = some node := by
    rw [hpass.untouched fun henters => henters.1 hentered]
    exact hstate
  have htuple := ReifyState.tuple?_replaceElements hkept (Element.withTypes node.elements types)
  have hgrows := (middle.advances_replaceElements id (Element.withTypes node.elements types)).grows
  have hvisited := middle.visited_replaceElements id (Element.withTypes node.elements types)
  have hpath : ReflTransGen (table.Next origin) ty (.tuple id) := by
    rw [← hwalk]
    exact path_of_links origin (path_walk table ty)
  exact {
    visited := by
      intro other hother
      rw [hvisited]
      exact hpass.visited (List.mem_cons_of_mem id hother)
    untouched := by
      intro other hother
      rw [ReifyState.enters_replaceElements] at hother
      have hne : other ≠ id := by
        intro heq
        subst heq
        exact hother ⟨hunentered, hpass.visited hentered⟩
      rw [htuple, if_neg hne]
      refine hpass.untouched ?_
      intro henters
      exact hother ⟨fun hin => henters.1 (List.mem_cons_of_mem id hin), henters.2⟩
    settled := by
      intro other henters
      rw [ReifyState.enters_replaceElements] at henters
      obtain rfl | ⟨hne, hinner⟩ := enters_enter id henters
      · exact settlesTuple_withTypes hnode ((htuple other).trans (if_pos rfl))
          (hsettles.imp fun _ _ helement => helement.of_grows hmiddle hgrows)
      · exact (hpass.settled hinner).of_grows hmiddle hgrows ((htuple other).trans (if_neg hne))
    reached := by
      intro other henters
      rw [ReifyState.enters_replaceElements] at henters
      refine ⟨ty, List.mem_cons_self, ?_⟩
      obtain rfl | ⟨-, hinner⟩ := enters_enter id henters
      · exact reach_of_next hpath
      · obtain ⟨element, helement, hrest⟩ := hpass.reached hinner
        exact (reach_of_next hpath).trans (.head (.inr ⟨id, node, rfl, hnode, helement⟩) hrest)
    closed := by
      intro other element last henters helement hrest
      rw [ReifyState.enters_replaceElements] at henters
      rw [hvisited]
      obtain rfl | ⟨-, hinner⟩ := enters_enter id henters
      · obtain ⟨found, owner, heq, hfound, hin⟩ := helement
        cases heq
        rw [hnode] at hfound
        cases hfound
        exact hpass.direct hin hrest
      · exact hpass.closed hinner helement hrest
    direct := by
      intro start other hstart hrest
      rw [List.mem_singleton.mp hstart] at hrest
      rw [hvisited, ← tuple_of_path hchains hwalk hrest]
      exact hpass.visited hentered }

end Table

end Inference
