import Inference.Proofs.Leaves
import Inference.Proofs.Reification.Termination

/-!
# Resolved types

A type is resolved when no bound variable can be reached from it, in tuples either.
Reification has nothing to do on resolved types: it gives the same handles and
leaves the graph as it is (`Reifies.of_resolved`).

What reification gives is resolved. Read `Finished` first: it is the invariant of a
reification under way, and it says that no bound variable occurs in the elements of
the tuples that are entered, and that those elements lead to no other tuples. It is
not kept by the parts of a reification, because a tuple is entered before its
elements are replaced, but it is kept from before a type to after it
(`Finished.of_reifies`).
-/

namespace Inference

open Relation

/-- The step from a branch to a child, or from a tuple to the type of an element. -/
def Graph.Part (graph : Graph) (ty part : Ty) : Prop :=
  graph.Child ty part ∨ graph.ElementOf ty part

/-- No variable that the table binds can be reached from the type, in tuples either. -/
def Table.Resolved (table : Table) (graph : Graph) (ty : Ty) : Prop :=
  ∀ subject, ReflTransGen graph.Part ty (.var subject) → table.get? subject = none

variable {table : Table}

namespace Graph

variable {graph : Graph} {ty : Ty} {branch : Branch} {id : Nat} {node : TupleNode}

/-- Interning a branch of a well-formed graph gives its handle and changes nothing. -/
theorem WellFormed.intern_eq (hgraph : graph.WellFormed)
    (hbranch : graph.branch? ty = some branch) : graph.intern branch = (ty, graph) := by
  obtain ⟨other, hother, heq⟩ | ⟨hnew, -⟩ := graph.intern_cases branch
  · rw [heq, hgraph.interned hother hbranch]
  · exact absurd hbranch (hnew ty)

/-- Replacing the elements of a tuple by themselves changes nothing. -/
theorem replaceElements?_self (hnode : graph.tuple? id = some node) :
    graph.replaceElements? id node.elements = some (node.elements, graph) := by
  have hfound : graph.tuples.get? id = some node := hnode
  have hset : graph.tuples.set? id node = some (node, graph.tuples) := by
    obtain ⟨hlt, hitem⟩ := Array.getElem?_eq_some_iff.mp hfound
    rw [Arena.set?, hfound, ← hitem, Array.setIfInBounds, dif_pos hlt, Array.set_getElem_self]
    rfl
  simp only [replaceElements?, hfound, bind, Option.bind_some, hset]
  rfl

end Graph

theorem ReifyState.replaceElements_self {state : ReifyState} {id : Nat} {node : TupleNode}
    (hnode : state.graph.tuple? id = some node) :
    state.replaceElements id node.elements = state := by
  rw [replaceElements, Graph.replaceElements?_self hnode]

/-- Elements that are given the types they have stay as they are. -/
theorem Element.withTypes_self (elements : List Element) :
    withTypes elements (elements.map (·.ty)) = elements := by
  unfold withTypes
  induction elements with
  | nil => rfl
  | cons first rest ih => rw [List.map_cons, List.zipWith_cons_cons, ih]

namespace Table

variable {graph : Graph} {state finish : ReifyState} {ty next part result : Ty}
  {tys results : List Ty} {id : Nat}

/-! ## Reifying resolved types -/

theorem Resolved.of_path (hresolved : table.Resolved graph ty)
    (hpath : ReflTransGen graph.Part ty part) : table.Resolved graph part :=
  fun subject hrest => hresolved subject (hpath.trans hrest)

theorem Resolved.not_link (hresolved : table.Resolved graph ty) (next : Ty) :
    ¬ table.Link ty next := by
  intro hlink
  obtain ⟨subject, rfl, hget⟩ := hlink
  rw [hresolved subject .refl] at hget
  cases hget

theorem Resolved.walk_eq (hresolved : table.Resolved graph ty) : table.walk ty = ty :=
  walk_of_not_link hresolved.not_link

/-- A resolved type leads along no binding. -/
theorem Resolved.path_of_reach (hresolved : table.Resolved graph ty)
    (hpath : ReflTransGen (table.Reach graph) ty next) : ReflTransGen graph.Part ty next := by
  induction hpath with
  | refl => exact .refl
  | tail _ hstep ih =>
      obtain (hlink | hchild) | helement := hstep
      · exact absurd hlink ((hresolved.of_path ih).not_link _)
      · exact ih.tail (.inl hchild)
      · exact ih.tail (.inr helement)

/-- Reifying resolved types of a well-formed graph gives the same handles and leaves the graph as
it is. -/
theorem Reifies.of_resolved (hreifies : table.Reifies state tys results finish)
    (hgraph : state.graph.WellFormed) (hresolved : ∀ ty ∈ tys, table.Resolved state.graph ty) :
    results = tys ∧ finish.graph = state.graph := by
  induction hreifies with
  | nil => exact ⟨rfl, rfl⟩
  | @cons state middle finish ty tys result results _ _ ihFirst ihRest =>
      obtain ⟨hresult, hmiddle⟩ := ihFirst hgraph
        (List.forall_mem_singleton.mpr (hresolved ty List.mem_cons_self))
      cases hresult
      obtain ⟨rfl, hfinish⟩ := ihRest (hmiddle ▸ hgraph) fun other hother =>
        hmiddle ▸ hresolved other (List.mem_cons_of_mem ty hother)
      exact ⟨rfl, hfinish.trans hmiddle⟩
  | @branch state middle ty branch children hbranch _ ih =>
      have hty := hresolved ty List.mem_cons_self
      rw [hty.walk_eq] at hbranch
      obtain ⟨rfl, hmiddle⟩ := ih hgraph fun child hchild => hty.of_path
        (.single (.inl (Graph.mem_children_iff.mpr ⟨branch, hbranch, hchild⟩)))
      simp only [Branch.withChildren_children, ReifyState.intern, hmiddle,
        hgraph.intern_eq hbranch, and_self]
  | @tuple state middle ty id node types hwalk _ hnode _ ih =>
      have hty := hresolved ty List.mem_cons_self
      rw [hty.walk_eq] at hwalk
      subst hwalk
      obtain ⟨rfl, hmiddle⟩ := ih hgraph fun element helement => hty.of_path
        (.single (.inr ⟨id, node, rfl, hnode, helement⟩))
      have hkept : middle.graph.tuple? id = some node := by
        rw [hmiddle]
        exact hnode
      rw [Element.withTypes_self, ReifyState.replaceElements_self hkept]
      exact ⟨rfl, hmiddle⟩
  | @again state ty id hwalk =>
      rw [(hresolved ty List.mem_cons_self).walk_eq] at hwalk
      exact ⟨by rw [hwalk], rfl⟩
  | @missing state ty id hwalk =>
      rw [(hresolved ty List.mem_cons_self).walk_eq] at hwalk
      exact ⟨by rw [hwalk], rfl⟩
  | @leaf state ty =>
      exact ⟨by rw [(hresolved ty List.mem_cons_self).walk_eq], rfl⟩

/-! ## Finished tuples -/

/-- No bound variable occurs in the type outside of tuples, and the tuples that occur in it are
entered. -/
structure Covered (table : Table) (state : ReifyState) (ty : Ty) : Prop where
  unbound : ∀ {subject}, ReflTransGen state.graph.Child ty (.var subject) →
    table.get? subject = none
  entered : ∀ {id}, ReflTransGen state.graph.Child ty (.tuple id) → id ∈ state.visited

/-- The elements of all tuples that are entered are covered. -/
structure Finished (table : Table) (state : ReifyState) : Prop where
  covered : ∀ {id element}, id ∈ state.visited → state.graph.ElementOf (.tuple id) element →
    table.Covered state element

theorem finished_start (table : Table) (graph : Graph) : table.Finished { graph } :=
  ⟨fun hid => absurd hid List.not_mem_nil⟩

/-- From a covered type on everything is covered, if the tuples that are entered are finished. -/
theorem Covered.of_path (hcovered : table.Covered state ty) (hfinished : table.Finished state)
    (hpath : ReflTransGen state.graph.Part ty part) : table.Covered state part := by
  induction hpath with
  | refl => exact hcovered
  | tail _ hstep ih =>
      obtain hchild | helement := hstep
      · exact ⟨fun hrest => ih.unbound (.head hchild hrest),
          fun hrest => ih.entered (.head hchild hrest)⟩
      · have howner := helement
        obtain ⟨id, node, rfl, -⟩ := howner
        exact hfinished.covered (ih.entered .refl) helement

theorem Covered.resolved (hcovered : table.Covered state ty) (hfinished : table.Finished state) :
    table.Resolved state.graph ty :=
  fun _ hpath => (hcovered.of_path hfinished hpath).unbound .refl

/-- A covered type stays covered while the graph grows and tuples are entered. -/
theorem Covered.of_grows (hcovered : table.Covered state ty) (hgraph : state.graph.WellFormed)
    (hholds : state.graph.Holds ty) (hgrows : state.graph.Grows finish.graph)
    (hvisited : ∀ {id}, id ∈ state.visited → id ∈ finish.visited) : table.Covered finish ty where
  unbound hpath := hcovered.unbound ((hgrows.path_iff hgraph hholds).mp hpath)
  entered hpath := hvisited (hcovered.entered ((hgrows.path_iff hgraph hholds).mp hpath))

/-- What a type settles on is covered if the tuples that the type leads to are entered. -/
theorem Settles.covered (hsettles : table.Settles graph finish.graph ty result)
    (hnext : Acyclic (table.Next graph))
    (hentered : ∀ {id}, ReflTransGen (table.Next graph) ty (.tuple id) → id ∈ finish.visited) :
    table.Covered finish result where
  unbound := hsettles.resolved
  entered {id} hpath := by
    -- Both types have one tree, and the tuple is a leaf of it.
    obtain ⟨shape, hshape⟩ := exists_unfolds hnext ty
    have hleaf : .tuple id ∈ shape.leaves := (hsettles.unfolds hshape).mem_leaves_iff.mpr
      ⟨path_of_children {} hpath, not_link_empty _, rfl⟩
    exact hentered (hshape.mem_leaves_iff.mp hleaf).1

/-! ## What reification gives -/

/-- Any state may be the first one, if its own graph is the original one. -/
theorem Ready.self (hgraph : state.graph.WellFormed) : Ready state.graph state :=
  ⟨.refl _, hgraph, fun _ => rfl⟩

/-- Finished tuples stay finished while the graph grows, as long as they are not changed. -/
theorem Finished.of_grows {after : Graph} {done : List Nat}
    (hfinished : table.Finished { graph, visited := done }) (hgraph : graph.WellFormed)
    (hgrows : graph.Grows after) (hsame : ∀ id ∈ done, after.tuple? id = graph.tuple? id) :
    table.Finished { graph := after, visited := done } := by
  refine ⟨?_⟩
  intro id element hid helement
  have hold : graph.ElementOf (.tuple id) element := by
    obtain ⟨_, node, heq, hnode, hin⟩ := helement
    cases heq
    exact ⟨id, node, rfl, (hsame id hid).symm.trans hnode, hin⟩
  exact (hfinished.covered hid hold).of_grows hgraph (hgraph.holds_element hold) hgrows fun h => h

/-- If the tuples that are entered are finished, then they are so after reifying handles of the
graph, and the handles that this gives are covered. -/
theorem Finished.of_reifies (hfinished : table.Finished state)
    (hreifies : table.Reifies state tys results finish) (hgrounded : table.Grounded state.graph)
    (hholds : ∀ ty ∈ tys, state.graph.Holds ty) :
    table.Finished finish ∧ ∀ result ∈ results, table.Covered finish result := by
  have hready := Ready.self hgrounded.wellFormed
  obtain ⟨hfinish, hgrows⟩ := hreifies.grows hgrounded.fits hready hholds
  obtain ⟨hpass, hsettles⟩ :=
    hreifies.pass hgrounded.wellFormed hgrounded.fits hgrounded.chains hready hholds
  refine ⟨⟨?_⟩, ?_⟩
  · intro id element hid helement
    by_cases hbefore : id ∈ state.visited
    · have hkept : table.Finished { graph := finish.graph, visited := state.visited } :=
        hfinished.of_grows hgrounded.wellFormed hgrows fun id hid =>
          hpass.untouched fun henters => henters.1 hid
      exact (hkept.covered hbefore helement).of_grows hfinish (hfinish.holds_element helement)
        (.refl _) hpass.visited
    · -- The tuple is entered, so its elements settle those that it had.
      have henters : state.Enters finish id := ⟨hbefore, hid⟩
      obtain ⟨ty, hty, hpath⟩ := hpass.reached henters
      obtain ⟨old, hold⟩ := Option.isSome_iff_exists.mp
        (holds_of_reach hgrounded.fits hgrounded.wellFormed (hholds ty hty) hpath)
      obtain ⟨elements, hnew, hsettled⟩ := hpass.settled henters old hold
      obtain ⟨_, node, heq, hnode, hin⟩ := helement
      cases heq
      rw [hnew] at hnode
      cases hnode
      obtain ⟨listed, hlisted, rfl⟩ := List.mem_map.mp hin
      obtain ⟨before, hbefore, helement⟩ := exists_mem_of_forall₂ hsettled hlisted
      exact helement.settles.covered hgrounded.next fun hrest =>
        hpass.closed henters ⟨id, old, rfl, hold, List.mem_map_of_mem hbefore⟩ hrest
  · intro result hresult
    obtain ⟨ty, hty, hsettled⟩ := exists_mem_of_forall₂ hsettles hresult
    exact hsettled.covered hgrounded.next fun hpath => hpass.direct hty hpath

end Table

end Inference
