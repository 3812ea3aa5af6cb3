import Inference.Proofs.Reification.Display
import Inference.Proofs.Reification.Repetition
import Inference.Proofs.Reification.Tables

/-!
# The reified table

Reifying a table takes its bindings in the order of the variables, which is one of the
orders in which they can be reified (`reified?_eq`). So what holds of every order holds
of the reified table: there is one (`exists_reified`), it is resolved and reifying it
again changes nothing, its bindings are those of reifying each type on its own, and any
other order gives the same table up to the numbers of new branches.
-/

namespace Inference

open Relation

namespace Table

variable {table : Table} {graph : Graph} {reified other : Reified} {order : List (Variable × Ty)}
  {subject : Variable} {bound : Ty}

theorem reified?_eq (table : Table) (graph : Graph) :
    table.reified? graph = table.reifiedAlong? table.entries graph := rfl

/-- Each variable keeps its place, and stands for what its type is reified to. -/
theorem entries_reified (hreified : table.reified? graph = some reified) :
    ∃ results finish, table.Reifies { graph } (table.entries.map (·.2)) results finish ∧
      reified.graph = finish.graph ∧
      reified.table.entries = (table.entries.map (·.1)).zip results := by
  obtain ⟨results, finish, hreifies, rfl⟩ := reifiedAlong?_sound hreified
  refine ⟨results, finish, hreifies, rfl, Bindings.entries_ofList_of_ascending ?_⟩
  have hlength : results.length = table.entries.length := by
    rw [hreifies.length_eq, List.length_map]
  have hascending : (table.entries.map (·.1)).Pairwise (· < ·) :=
    List.pairwise_map.mpr table.bindings.ascending
  rw [← Bindings.map_fst_zip_entries hlength] at hascending
  exact List.pairwise_map.mp hascending

theorem keys_reified (hreified : table.reified? graph = some reified) :
    reified.table.bindings.keys = table.bindings.keys := by
  obtain ⟨results, finish, hreifies, -, hentries⟩ := entries_reified hreified
  have hlength : results.length = table.entries.length := by
    rw [hreifies.length_eq, List.length_map]
  exact (congrArg (List.map (·.1)) hentries).trans (Bindings.map_fst_zip_entries hlength)

section

variable (hgrounded : table.Grounded graph)
include hgrounded

/-- A table can be reified, and what this gives is determined without an order. -/
theorem exists_reified :
    ∃ reified, table.reified? graph = some reified ∧ table.Renews graph reified := by
  obtain ⟨_, _, hreified, -⟩ := exists_reifiedAlong hgrounded (.refl table.entries)
  exact ⟨_, hreified, renews_of_perm hgrounded (.refl _) hreified⟩

variable (hreified : table.reified? graph = some reified)
include hreified

theorem renews_reified : table.Renews graph reified :=
  renews_of_perm hgrounded (.refl _) hreified

theorem reified_resolved (hget : reified.table.get? subject = some bound) :
    table.Resolved reified.graph bound :=
  resolved_of_get?_reified hgrounded (.refl _) hreified hget

/-- Reifying the reified table gives the same table and leaves the graph as it is. -/
theorem reified_again :
    ∃ tuples, reified.table.reified? reified.graph = some { reified with tuples } := by
  have hrenews := renews_reified hgrounded hreified
  refine reifiedAlong?_of_resolved (.of_reified hrenews.types hrenews.wellFormed) ?_ (.refl _)
  intro subject bound hget other hpath
  exact (eq_none_iff_of_rel (hrenews.types other)).mpr
    (reified_resolved hgrounded hreified hget other hpath)

/-- Reifying the types one after the other, each with a record of its own, gives the bindings of the
reified table and its graph. -/
theorem reifyEach?_entries :
    table.reifyEach? table.entries graph = some (reified.table.entries, reified.graph) := by
  obtain ⟨results, finish, hreifies, hgraph, hentries⟩ := entries_reified hreified
  rw [hentries, hgraph]
  exact hreifies.reifyEach?_eq (finished_start table graph) hgrounded
    (holds_of_perm hgrounded.fits (.refl _))

/-- Another order of the bindings gives the same table up to the numbers of new branches. -/
theorem reified_alike (horder : order.Perm table.entries)
    (hother : table.reifiedAlong? order graph = some other) : reified.Alike graph other :=
  (renews_reified hgrounded hreified).alike (renews_of_perm hgrounded horder hother) hgrounded

/-- Another order of the bindings gives the same text, in which unions may list new cases in another
order. -/
theorem reified_texts (horder : order.Perm table.entries)
    (hother : table.reifiedAlong? order graph = some other) :
    ∃ text last listing, reified.graph.renderTable? reified.table = some text ∧
      other.graph.renderTable? other.table = some last ∧
      reified.graph.renderTableListed? listing reified.table = some last ∧
      ∀ cases : CaseSet, graph.Rearranges cases.toList (listing cases) := by
  obtain ⟨text, last, listing, htext, hlast, hlisted, hrearranges, -⟩ :=
    (renews_reified hgrounded hreified).texts (renews_of_perm hgrounded horder hother) hgrounded
  exact ⟨text, last, listing, htext, hlast, hlisted, hrearranges⟩

end

end Table

end Inference
