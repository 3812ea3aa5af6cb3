import Inference.Proofs.Reification.Outcome
import Inference.Proofs.Reification.Resolved

/-!
# Reifying again

Reification reaches a fixpoint in one go (`reify_reaches_fixpoint`). What it
returns is resolved, in the tuples that are reached on the way too, and a resolved
type is returned as it is, in the same graph. That nothing is interned anew for a
resolved type rests on the graph having one handle for equal branches.
-/

namespace Inference

open Relation

namespace Table

variable {table : Table} {graph after : Graph} {ty result : Ty}

/-- Nothing can be reached from a type that is no handle of the graph. -/
theorem resolved_of_not_holds (hty : ¬ graph.Holds ty) : table.Resolved graph ty := by
  intro subject hpath
  obtain rfl | ⟨part, hchild | helement, -⟩ := hpath.cases_head
  · exact absurd trivial hty
  · obtain ⟨branch, hbranch, -⟩ := Graph.mem_children_iff.mp hchild
    exact absurd (Graph.holds_of_branch? hbranch) hty
  · obtain ⟨id, node, rfl, hnode, -⟩ := helement
    exact absurd (Option.isSome_of_eq_some hnode) hty

/-- Reifying a resolved type returns the type and leaves the graph as it is. -/
theorem reify?_of_resolved (hgrounded : table.Grounded graph)
    (hresolved : table.Resolved graph ty) : table.reify? graph ty = some (ty, graph) := by
  obtain ⟨result, finish, hreify, hreturns⟩ :=
    reify?_returns hgrounded.wellFormed hgrounded.fits hgrounded.next ty
  have hreifies := reifyWithin_sound (hreturns _ (Nat.le_refl _))
  obtain ⟨hresult, hfinish⟩ :=
    hreifies.of_resolved hgrounded.wellFormed (List.forall_mem_singleton.mpr hresolved)
  cases hresult
  rw [hreify, hfinish]

/-- What reifying a handle returns is resolved in the graph that it leaves. -/
theorem resolved_of_reify? (hgrounded : table.Grounded graph) (hty : graph.Holds ty)
    (hreify : table.reify? graph ty = some (result, after)) : table.Resolved after result := by
  obtain ⟨finish, rfl, hreifies⟩ := reify?_sound hreify
  obtain ⟨hfinished, hcovered⟩ := (finished_start table graph).of_reifies hreifies hgrounded
    (List.forall_mem_singleton.mpr hty)
  exact (hcovered result List.mem_cons_self).resolved hfinished

/-- Reifying any type returns a resolved one, and reifying that one again returns it and leaves the
graph as it is. The same holds of every type that is resolved to begin with. -/
theorem reify_reaches_fixpoint (hreached : graph.Reached) (hfits : table.Fits graph)
    (hacyclic : Acyclic (table.DependsOn graph)) (ty : Ty) :
    (∃ result after, table.reify? graph ty = some (result, after) ∧
      table.Resolved after result ∧ table.reify? after result = some (result, after)) ∧
    (table.Resolved graph ty → table.reify? graph ty = some (ty, graph)) := by
  have hgrounded : table.Grounded graph := .of_dependsOn hreached.wellFormed hfits hacyclic
  refine ⟨?_, reify?_of_resolved hgrounded⟩
  by_cases hty : graph.Holds ty
  · obtain ⟨result, finish, hreify, hadvances, hfinish, -, -⟩ :=
      exists_pass hreached hfits hacyclic hty
    have hresolved := resolved_of_reify? hgrounded hty hreify
    exact ⟨result, finish.graph, hreify, hresolved,
      reify?_of_resolved (hgrounded.of_grows hadvances.grows hfinish) hresolved⟩
  · have hresolved : table.Resolved graph ty := resolved_of_not_holds hty
    have hreify := reify?_of_resolved hgrounded hresolved
    exact ⟨ty, graph, hreify, hresolved, hreify⟩

theorem reify_reaches_fixpoint_looped : ∃ result after,
    looped.reify? .looped (.union 0) = some (result, after) ∧ looped.Resolved after result ∧
      looped.reify? after result = some (result, after) := by
  have hsound := Session.reached_looped.sound.tables looped List.mem_cons_self
  obtain ⟨⟨result, after, hreify, hresolved, -⟩, -⟩ :=
    reify_reaches_fixpoint Graph.reached_looped hsound.fits hsound.acyclic (.union 0)
  have hstep : Graph.looped.Step after := .reify hsound.fits (by decide) hreify
  have hgraph := Graph.reached_looped.wellFormed
  have hlater := hsound.of_grows hgraph (hstep.wellFormed hgraph).2
  exact ⟨result, after, hreify, hresolved, (reify_reaches_fixpoint
    (Graph.reached_looped.tail hstep) hlater.fits hlater.acyclic result).2 hresolved⟩

end Table

end Inference
