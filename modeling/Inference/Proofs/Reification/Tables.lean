import Inference.Proofs.Reification.Meaning
import Inference.Proofs.Reification.Resolved

/-!
# Reified tables

A table whose types are reified binds the same variables, and in the graph that
reification leaves it means the same as the table that it is made from
(`Unfolds.of_reified`). No variable that is bound can be reached from its types, so
there is nothing left to do for another reification (`reified_is_resolved`).
-/

namespace Inference

open Relation

namespace Table

variable {table : Table} {graph : Graph} {reified : Reified} {ty bound : Ty} {shape : Shape}
  {subject : Variable} {order : List (Variable × Ty)}

section

variable (hrelated : ∀ subject, Option.Rel (table.Settles graph reified.graph)
  (table.get? subject) (reified.table.get? subject))

include hrelated

theorem mem_keys_reified :
    subject ∈ reified.table.bindings.keys ↔ subject ∈ table.bindings.keys := by
  have hnone := eq_none_iff_of_rel (hrelated subject)
  rw [mem_keys_iff, mem_keys_iff, ← Option.ne_none_iff_exists', ← Option.ne_none_iff_exists']
  exact not_congr hnone

/-- A handle of the original graph has the same tree under the reified table. -/
theorem Unfolds.of_reified (hunfolds : table.Unfolds graph ty shape)
    (hgrounded : table.Grounded graph) (hgrows : graph.Grows reified.graph)
    (hholds : graph.Holds ty) : reified.table.Unfolds reified.graph ty shape := by
  induction hunfolds with
  | @bound ty next shape hlink hunfolds _ =>
      obtain ⟨subject, rfl, hget⟩ := hlink
      have hsubject := hrelated subject
      rw [hget] at hsubject
      generalize hnew : reified.table.get? subject = new at hsubject
      cases hsubject with
      | some hsettles =>
          exact .bound (link_var_iff.mpr hnew) ((hsettles.unfolds hunfolds).of_unbound
            (unbound_of_reified hrelated hnew))
  | @leaf ty hend hnone =>
      refine .leaf ?_ ((hgrows.branch?_eq hholds).trans hnone)
      intro next hlink
      obtain ⟨subject, rfl, hnew⟩ := hlink
      obtain ⟨old, hold, -⟩ := exists_eq_some_of_rel (hrelated subject) hnew
      exact hend old (link_var_iff.mpr hold)
  | branch shapes hbranch _ ih =>
      refine .branch shapes (hgrows.branch hbranch) ?_
      intro child hchild
      exact ih child hchild (hgrounded.wellFormed.holds_of_mem hbranch hchild)

/-- The types of the reified table can be reified again. -/
theorem Grounded.of_reified (hreified : reified.graph.WellFormed) :
    reified.table.Grounded reified.graph := by
  refine .of_dependsOn hreified ?_ (acyclic_of_unbound (unbound_of_reified hrelated))
  intro subject bound hget
  obtain ⟨old, -, hsettles⟩ := exists_eq_some_of_rel (hrelated subject) hget
  exact hsettles.holds

end

/-- The types of a table whose types are reified are resolved. -/
theorem resolved_of_get?_reified (hgrounded : table.Grounded graph)
    (horder : order.Perm table.entries)
    (hreified : table.reifiedAlong? order graph = some reified)
    (hget : reified.table.get? subject = some bound) : table.Resolved reified.graph bound := by
  obtain ⟨results, finish, hreifies, rfl⟩ := reifiedAlong?_sound hreified
  obtain ⟨hfinished, hcovered⟩ := (finished_start table graph).of_reifies hreifies hgrounded
    (holds_of_perm hgrounded.fits horder)
  have hlength : results.length = order.length := by
    rw [hreifies.length_eq, List.length_map]
  have hkeys := Bindings.map_fst_zip_entries hlength
  have hnodup := Bindings.nodup_of_perm horder
  rw [← hkeys] at hnodup
  have hin := (Bindings.get?_ofList_eq_some_iff hnodup).mp hget
  exact (hcovered bound (List.of_mem_zip hin).2).resolved hfinished

/-- Reifying the types of a table that are resolved gives the table and leaves the graph. -/
theorem reifiedAlong?_of_resolved (hgrounded : table.Grounded graph)
    (hresolved : ∀ subject bound, table.get? subject = some bound → table.Resolved graph bound)
    (horder : order.Perm table.entries) :
    ∃ tuples, table.reifiedAlong? order graph = some { table, graph, tuples } := by
  obtain ⟨results, finish, hreified, hreifies⟩ := exists_reifiedAlong hgrounded horder
  have htypes : ∀ ty ∈ order.map (·.2), table.Resolved graph ty := by
    intro ty hty
    obtain ⟨entry, hentry, rfl⟩ := List.mem_map.mp hty
    exact hresolved _ _ (Bindings.mem_entries_iff.mp (horder.mem_iff.mp hentry))
  obtain ⟨rfl, hgraph⟩ := hreifies.of_resolved hgrounded.wellFormed htypes
  refine ⟨finish.visited.length, ?_⟩
  rw [hreified, hgraph, List.zip_map', List.map_id', Bindings.ofList_of_perm horder]

/-- Reifying the types of a table gives a table for the same variables. No variable that is bound
can be reached from its types, every handle means the same under both tables, and reifying the types
once more, in any order, changes nothing. -/
theorem reified_is_resolved (hreached : graph.Reached) (hfits : table.Fits graph)
    (hacyclic : Acyclic (table.DependsOn graph)) (horder : order.Perm table.entries) :
    ∃ reified, table.reifiedAlong? order graph = some reified ∧
      (∀ subject, subject ∈ reified.table.bindings.keys ↔ subject ∈ table.bindings.keys) ∧
      (∀ subject bound, reified.table.get? subject = some bound →
        table.Resolved reified.graph bound) ∧
      (∀ ty, graph.Holds ty → ∃ shape,
        reified.table.reifiedShape? reified.graph ty = some shape ∧
        table.reifiedShape? reified.graph ty = some shape) ∧
      ∀ again, again.Perm reified.table.entries → ∃ tuples,
        reified.table.reifiedAlong? again reified.graph = some { reified with tuples } := by
  have hgrounded : table.Grounded graph := .of_dependsOn hreached.wellFormed hfits hacyclic
  obtain ⟨results, finish, hreified, -⟩ := exists_reifiedAlong hgrounded horder
  generalize hrenewed : Reified.mk _ _ _ = reified at hreified
  have hstep := Graph.Step.reified hfits horder hreified
  obtain ⟨hafter, hgrows⟩ := hstep.wellFormed hreached.wellFormed
  have hreachedAfter : reified.graph.Reached := hreached.tail hstep
  have hrelated := rel_get?_reified hgrounded.wellFormed hfits hgrounded.chains horder hreified
  have hold : table.Grounded reified.graph := hgrounded.of_grows hgrows hafter
  have hnew : reified.table.Grounded reified.graph := .of_reified hrelated hafter
  have hresolved : ∀ subject bound, reified.table.get? subject = some bound →
      table.Resolved reified.graph bound :=
    fun subject bound => resolved_of_get?_reified hgrounded horder hreified
  refine ⟨reified, hreified, fun _ => mem_keys_reified hrelated, hresolved, ?_, ?_⟩
  · intro ty hty
    obtain ⟨shape, hshape⟩ := exists_unfolds hgrounded.next ty
    have hholds := hgrows.holds hty
    refine ⟨shape, (reifiedShape?_eq_some_iff hreachedAfter hnew hholds).mpr ?_,
      (reifiedShape?_eq_some_iff hreachedAfter hold hholds).mpr ?_⟩
    · exact hshape.of_reified hrelated hgrounded hgrows hty
    · exact hshape.of_grows hgrows hfits hgrounded.wellFormed hty
  · intro again hagain
    refine reifiedAlong?_of_resolved hnew ?_ hagain
    intro subject bound hget other hpath
    exact (eq_none_iff_of_rel (hrelated other)).mpr (hresolved subject bound hget other hpath)

theorem reified_is_resolved_looped : ∃ reified,
    looped.reifiedAlong? looped.entries .looped = some reified ∧
    (∀ subject, subject ∈ reified.table.bindings.keys ↔ subject ∈ looped.bindings.keys) ∧
    (∀ subject bound, reified.table.get? subject = some bound →
      looped.Resolved reified.graph bound) ∧
    (∀ ty, Graph.looped.Holds ty → ∃ shape,
      reified.table.reifiedShape? reified.graph ty = some shape ∧
      looped.reifiedShape? reified.graph ty = some shape) ∧
    ∀ again, again.Perm reified.table.entries → ∃ tuples,
      reified.table.reifiedAlong? again reified.graph = some { reified with tuples } :=
  have hsound := Session.reached_looped.sound.tables looped List.mem_cons_self
  reified_is_resolved Graph.reached_looped hsound.fits hsound.acyclic (.refl _)

end Table

end Inference
