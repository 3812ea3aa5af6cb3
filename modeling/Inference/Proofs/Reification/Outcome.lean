import Inference.Proofs.Reification.Termination
import Inference.Proofs.Session

/-!
# The outcome of reification

On a graph that is reached, reifying a handle through a table without cycles
returns. The type that it returns stands for the type that it is given, with every
bound variable replaced to the end (`reify_resolves`). In the graph that it
returns, the tuples that can be reached have their elements replaced in the same
way, and nothing else has changed except for new branches (`reify_rewrites`).
-/

namespace Inference

open Relation

namespace Table

/-- What reifying a type does to the nodes of a graph. A tuple that can be reached from the type
keeps its name and the labels of its elements, and the type of each element resolves to the one in
its place. Every other node stays as it is, and only branches are added. -/
structure Rewrites (table : Table) (graph : Graph) (ty : Ty) (after : Graph) : Prop where
  reached : ∀ {id}, ReflTransGen (table.Reach graph) ty (.tuple id) → ∃ node elements,
    graph.tuple? id = some node ∧ after.tuple? id = some ⟨node.name, elements⟩ ∧
      List.Forall₂ (fun old new => new.label = old.label ∧
        table.ResolvesTo graph old.ty after new.ty) node.elements elements
  untouched : ∀ {id}, ¬ ReflTransGen (table.Reach graph) ty (.tuple id) →
    after.tuple? id = graph.tuple? id
  branch : ∀ {other branch}, graph.branch? other = some branch →
    after.branch? other = some branch
  nameds : after.nameds = graph.nameds
  tuples : after.tuples.size = graph.tuples.size

variable {table : Table} {graph after : Graph} {ty next result : Ty}

/-- A type resolves to the type that it settles on. -/
theorem Settles.resolvesTo (hsettles : table.Settles graph after ty result)
    (hnext : Acyclic (table.Next graph)) (hafter : after.WellFormed) :
    table.ResolvesTo graph ty after result := by
  obtain ⟨shape, hshape⟩ := exists_unfolds hnext ty
  refine ⟨shape, (Graph.shape?_eq_some_iff hafter.acyclic).mpr (hsettles.unfolds hshape), ?_⟩
  intro other
  constructor
  · intro hother
    exact hother.unique hshape
  · intro heq
    exact heq ▸ hshape

/-- A reification that starts with no tuple entered rewrites the tuples that can be reached. -/
theorem Pass.rewrites {finish : ReifyState} (hpass : table.Pass graph [ty] { graph } finish)
    (hadvances : ReifyState.Advances { graph } finish) (hfinish : finish.graph.WellFormed)
    (hfits : table.Fits graph) (hgraph : graph.WellFormed) (hnext : Acyclic (table.Next graph))
    (hty : graph.Holds ty) : table.Rewrites graph ty finish.graph := by
  have hvisited : ∀ {id}, id ∈ finish.visited ↔
      ReflTransGen (table.Reach graph) ty (.tuple id) := by
    intro id
    rw [hpass.mem_visited_iff]
    exact ⟨fun ⟨_, hin, hpath⟩ => List.mem_singleton.mp hin ▸ hpath,
      fun hpath => ⟨ty, List.mem_cons_self, hpath⟩⟩
  refine ⟨?_, ?_, hadvances.grows.branch, hadvances.nameds, hadvances.tuples⟩
  · intro id hpath
    obtain ⟨node, hnode⟩ := Option.isSome_iff_exists.mp (holds_of_reach hfits hgraph hty hpath)
    obtain ⟨elements, hafter, hsettled⟩ :=
      hpass.settled ⟨List.not_mem_nil, hvisited.mpr hpath⟩ node hnode
    refine ⟨node, elements, hnode, hafter, hsettled.imp ?_⟩
    intro old new helement
    exact ⟨helement.label, helement.settles.resolvesTo hnext hfinish⟩
  · intro id hpath
    exact hpass.untouched fun henters => hpath (hvisited.mp henters.2)

/-- Reifying a handle of a graph that is reached passes over the graph and settles the handle. -/
theorem exists_pass (hreached : graph.Reached) (hfits : table.Fits graph)
    (hacyclic : Acyclic (table.DependsOn graph)) (hty : graph.Holds ty) : ∃ result finish,
    table.reify? graph ty = some (result, finish.graph) ∧
      ReifyState.Advances { graph } finish ∧ finish.graph.WellFormed ∧
      table.Pass graph [ty] { graph } finish ∧ table.Settles graph finish.graph ty result := by
  have hgraph := hreached.wellFormed
  have hnext := (acyclic_next_iff hgraph.acyclic).mpr hacyclic
  have hsource : ∀ other ∈ [ty], graph.Holds other := List.forall_mem_singleton.mpr hty
  obtain ⟨result, finish, hreify, hreturns⟩ := reify?_returns hgraph hfits hnext ty
  have hreifies := reifyWithin_sound (hreturns _ (Nat.le_refl _))
  obtain ⟨hfinish, hadvances, -⟩ := hreifies.advances hfits hgraph hsource
  obtain ⟨hpass, hsettles⟩ :=
    hreifies.pass hgraph hfits (acyclic_link hnext) (.start hgraph) hsource
  cases hsettles with
  | cons hfirst _ => exact ⟨result, finish, hreify, hadvances, hfinish, hpass, hfirst⟩

/-- Reifying a type returns a handle of the new graph, and the type resolves to it. -/
theorem reify_resolves (hreached : graph.Reached) (hfits : table.Fits graph)
    (hacyclic : Acyclic (table.DependsOn graph)) (hty : graph.Holds ty) :
    ∃ result after, table.reify? graph ty = some (result, after) ∧
      after.Holds result ∧ table.ResolvesTo graph ty after result := by
  obtain ⟨result, finish, hreify, -, hfinish, -, hsettles⟩ :=
    exists_pass hreached hfits hacyclic hty
  have hnext := (acyclic_next_iff hreached.wellFormed.acyclic).mpr hacyclic
  exact ⟨result, finish.graph, hreify, hsettles.holds, hsettles.resolvesTo hnext hfinish⟩

theorem reify_resolves_looped : ∃ result after,
    looped.reify? .looped (.union 0) = some (result, after) ∧ after.Holds result ∧
      looped.ResolvesTo .looped (.union 0) after result :=
  have hsound := Session.reached_looped.sound.tables looped List.mem_cons_self
  reify_resolves Graph.reached_looped hsound.fits hsound.acyclic (by decide)

-- Both cases of the union stand for one function in the end.
example :
    ((looped.reify? .looped (.union 0)).bind fun (ty, graph) => (graph.shape? ty).map (ty, ·)) =
      some (.union 1,
        .unionOf [.function (.leaf (.primitive .int)) (.leaf (.tuple 0))]) := by decide

/-- Reifying a type rewrites the tuples that can be reached from it and nothing else. -/
theorem reify_rewrites (hreached : graph.Reached) (hfits : table.Fits graph)
    (hacyclic : Acyclic (table.DependsOn graph)) (hty : graph.Holds ty) :
    ∃ result after, table.reify? graph ty = some (result, after) ∧
      table.Rewrites graph ty after := by
  obtain ⟨result, finish, hreify, hadvances, hfinish, hpass, -⟩ :=
    exists_pass hreached hfits hacyclic hty
  have hgraph := hreached.wellFormed
  have hnext := (acyclic_next_iff hgraph.acyclic).mpr hacyclic
  exact ⟨result, finish.graph, hreify,
    hpass.rewrites hadvances hfinish hfits hgraph hnext hty⟩

theorem reify_rewrites_looped : ∃ result after,
    looped.reify? .looped (.var ⟨2⟩) = some (result, after) ∧
      looped.Rewrites .looped (.var ⟨2⟩) after :=
  have hsound := Session.reached_looped.sound.tables looped List.mem_cons_self
  reify_rewrites Graph.reached_looped hsound.fits hsound.acyclic trivial

example :
    ((looped.reify? .looped (.var ⟨2⟩)).bind fun (_, graph) => graph.tuple? 0) =
      some ⟨some "Node", [⟨some "self", .tuple 0⟩, ⟨none, .union 1⟩]⟩ := by decide

end Table

namespace Session

variable {session : Session} {table : Table}

/-- In every session that is reached, walking any type through any table leads to the end of its
chain, reifying it returns, and so does reifying the table, in whatever order its bindings come.
The results are those of the unbounded recursion: no larger bound would give others. -/
theorem reification_returns (hreached : session.Reached) (htable : table ∈ session.tables) :
    (∀ ty, table.Ends ty (table.walk ty)) ∧
    (∀ ty, ∃ result finish, table.reify? session.graph ty = some (result, finish.graph) ∧
      ∀ depth, Table.reifyDepth session.graph ≤ depth →
        table.reifyWithin depth ty { graph := session.graph } = some (result, finish)) ∧
    ∀ order, order.Perm table.entries → ∃ reified results finish,
      table.reifiedAlong? order session.graph = some reified ∧ reified.graph = finish.graph ∧
      ∀ depth, Table.reifyDepth session.graph ≤ depth →
        ReifyState.traverse (table.reifyWithin depth) (order.map (·.2))
          { graph := session.graph } = some (results, finish) := by
  have hgraph := hreached.sound.graph
  have hsound := hreached.sound.tables table htable
  have hnext := hsound.next hgraph
  refine ⟨Table.ends_walk (hsound.chains hgraph), ?_, ?_⟩
  · exact Table.reify?_returns hgraph hsound.fits hnext
  · intro order horder
    exact Table.reifiedAlong?_returns hgraph hsound.fits hnext
      (Table.holds_of_perm hsound.fits horder)

theorem reification_returns_looped :
    (∀ ty, Table.looped.Ends ty (Table.looped.walk ty)) ∧
    (∀ ty, ∃ result finish, Table.looped.reify? looped.graph ty = some (result, finish.graph) ∧
      ∀ depth, Table.reifyDepth looped.graph ≤ depth →
        Table.looped.reifyWithin depth ty { graph := looped.graph } = some (result, finish)) ∧
    ∀ order, order.Perm Table.looped.entries → ∃ reified results finish,
      Table.looped.reifiedAlong? order looped.graph = some reified ∧
      reified.graph = finish.graph ∧
      ∀ depth, Table.reifyDepth looped.graph ≤ depth →
        ReifyState.traverse (Table.looped.reifyWithin depth) (order.map (·.2))
          { graph := looped.graph } = some (results, finish) :=
  reification_returns reached_looped (show Table.looped ∈ looped.tables from List.mem_cons_self)

end Session

end Inference
