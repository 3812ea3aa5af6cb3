import Inference.Bind
import Inference.Proofs.Reification.Correctness
import Inference.Proofs.Search

/-!
# Tables without cycles

A table is sound for a graph when it is eager, its types are handles of the graph,
and no variable depends on itself. Recording a binding keeps a table sound, because
the search has not found the variable in the new binding (`Sound.bind`). A table
whose types are reified is sound, because no variable that it binds is left in a
type that it binds a variable to (`Sound.reified`).
-/

namespace Inference

open Relation

namespace Table

/-- An eager table with handles of the graph in which no variable depends on itself. -/
structure Sound (table : Table) (graph : Graph) : Prop where
  eager : table.policy = .eager
  fits : table.Fits graph
  acyclic : Acyclic (table.DependsOn graph)

variable {table after : Table} {graph grown : Graph} {subject key : Variable} {ty bound : Ty}
  {error : BindError}

theorem Sound.next (hsound : table.Sound graph) (hgraph : graph.WellFormed) :
    Acyclic (table.Next graph) :=
  (acyclic_next_iff hgraph.acyclic).mpr hsound.acyclic

theorem Sound.chains (hsound : table.Sound graph) (hgraph : graph.WellFormed) :
    Acyclic table.Link :=
  acyclic_link (hsound.next hgraph)

theorem Sound.grounded (hsound : table.Sound graph) (hgraph : graph.WellFormed) :
    table.Grounded graph :=
  ⟨hgraph, hsound.fits, hsound.next hgraph⟩

theorem sound_empty (graph : Graph) : ({} : Table).Sound graph := by
  refine ⟨rfl, ?_, ?_⟩
  · intro subject bound hget
    cases hget
  · intro subject hcycle
    obtain ⟨other, ⟨bound, hget, -⟩, -⟩ := TransGen.head'_iff.mp hcycle
    cases hget

theorem Sound.of_grows (hsound : table.Sound graph) (hgraph : graph.WellFormed)
    (hgrows : graph.Grows grown) : table.Sound grown where
  eager := hsound.eager
  fits := hsound.fits.of_grows hgrows
  acyclic := by
    rw [dependsOn_of_grows hsound.fits hgraph hgrows]
    exact hsound.acyclic

/-! ## Binding -/

/-- The judgement of a request for a variable whose chain ends at an unbound one. -/
theorem judge_of_walk_var (hwalk : table.walk (.var subject) = .var key) :
    table.judge graph subject ty =
      if table.walk ty = .var key ∧ key ≠ subject then .holds
      else if table.seesIn graph key (table.walk ty) then .refuses (.cyclic key ty)
      else .records key ty := by
  simp only [judge, hwalk]

/-- The judgement of a request for a variable that stands for something else than a variable. -/
theorem judge_of_walk_ne_var (hwalk : ∀ key, table.walk (.var subject) ≠ .var key) :
    table.judge graph subject ty =
      if table.walk (.var subject) = table.walk ty then .holds
      else .refuses (.inconsistent subject (table.walk (.var subject)) ty) := by
  unfold judge
  cases hreached : table.walk (.var subject) with
  | var key => exact absurd hreached (hwalk key)
  | _ => rfl

/-- A request that is not refused leaves the table as it is, or it binds the end of the variable's
chain, which is not seen in the end of the requested type's chain. -/
theorem bind_cases (hbind : table.bind graph subject ty = .ok after) :
    after = table ∨ ∃ key, table.walk (.var subject) = .var key ∧
      table.seesIn graph key (table.walk ty) = false ∧ after = table.insert key ty := by
  by_cases hvar : ∃ key, table.walk (.var subject) = .var key
  · obtain ⟨key, hwalk⟩ := hvar
    rw [bind, judge_of_walk_var hwalk] at hbind
    split at hbind
    · cases hbind
      exact .inl rfl
    · split at hbind
      · cases hbind
      · rename_i hseen
        cases hbind
        exact .inr ⟨key, hwalk, Bool.not_eq_true _ ▸ hseen, rfl⟩
  · rw [bind, judge_of_walk_ne_var (not_exists.mp hvar)] at hbind
    split at hbind
    · cases hbind
      exact .inl rfl
    · cases hbind

theorem bind_eq_error_iff :
    table.bind graph subject ty = .error error ↔
      table.judge graph subject ty = .refuses error := by
  unfold bind
  cases table.judge graph subject ty <;> simp [accept]

theorem policy_of_bind (hbind : table.bind graph subject ty = .ok after) :
    after.policy = table.policy := by
  obtain rfl | ⟨key, -, -, rfl⟩ := bind_cases hbind
  · rfl
  · rfl

/-- The end of the chain of a variable is unbound if it is a variable. -/
theorem get?_of_walk (hchains : Acyclic table.Link) (hwalk : table.walk ty = .var key) :
    table.get? key = none := by
  have hend := (ends_walk hchains ty).2
  rw [hwalk] at hend
  exact Option.eq_none_iff_forall_ne_some.mpr fun bound hget =>
    hend bound (link_var_iff.mpr hget)

theorem Fits.insert (hfits : table.Fits graph) (hty : graph.Holds ty) (key : Variable) :
    (table.insert key ty).Fits graph := by
  intro other bound hget
  rw [get?_insert] at hget
  split at hget
  · cases hget
    exact hty
  · exact hfits other bound hget

/-- Binding an unbound variable to a type closes no cycle exactly if the policy does not see the
variable in the type. -/
theorem acyclic_insert_iff (hsees : Acyclic (table.Sees graph)) (hkey : table.get? key = none) :
    Acyclic ((table.insert key ty).Sees graph) ↔
      table.seesIn graph key (table.walk ty) = false := by
  have hchains : Acyclic table.Link := hsees.mono sees_of_link
  -- The search starts at the end of the type's chain, which every path to the variable meets.
  have hwalk : ReflTransGen (table.Sees graph) (table.walk ty) (.var key) ↔
      ReflTransGen (table.Sees graph) ty (.var key) := by
    refine ⟨fun hpath => ?_, path_from_walk hchains link_of_sees (not_link_of_get?_eq_none hkey)⟩
    exact (ReflTransGen.mono (fun _ _ => sees_of_link) _ _ (path_walk table ty)).trans hpath
  have hinsert : ∀ {left right}, (table.insert key ty).Sees graph left right ↔
      table.Sees graph left right ∨ left = .var key ∧ right = ty := sees_insert_iff hkey
  rw [← Bool.not_eq_true, seesIn_iff hchains hkey, hwalk]
  constructor
  · intro hacyclic hback
    have hback := ReflTransGen.mono (fun _ _ hstep => hinsert.mpr (.inl hstep)) _ _ hback
    exact hacyclic (.var key) (.head' (hinsert.mpr (.inr ⟨rfl, rfl⟩)) hback)
  · exact hsees.add_edge (.var key) ty hinsert.mp

theorem Sound.bind (hsound : table.Sound graph) (hgraph : graph.WellFormed)
    (hty : graph.Holds ty) (hbind : table.bind graph subject ty = .ok after) :
    after.Sound graph := by
  obtain rfl | ⟨key, hwalk, hseen, rfl⟩ := bind_cases hbind
  · exact hsound
  · have hkey := get?_of_walk (hsound.chains hgraph) hwalk
    have hsees : table.Sees graph = table.Next graph := sees_eq_next hsound.eager
    have heager : (table.insert key ty).policy = .eager := hsound.eager
    have hafter := (acyclic_insert_iff (hsees ▸ hsound.next hgraph) hkey).mpr hseen
    rw [sees_eq_next heager] at hafter
    exact ⟨heager, hsound.fits.insert hty key, (acyclic_next_iff hgraph.acyclic).mp hafter⟩

/-! ## Reifying a table -/

/-- If no bound variable occurs in what a variable is bound to, then there is no dependence between
bound variables at all. -/
theorem acyclic_of_unbound (hunbound : ∀ {subject bound other}, table.get? subject = some bound →
      ReflTransGen graph.Child bound (.var other) → table.get? other = none) :
    Acyclic (table.DependsOn graph) := by
  intro subject hcycle
  -- The variable is bound, since it is the start of the cycle, and unbound, since it is the end.
  obtain ⟨first, ⟨bound, hget, -⟩, -⟩ := TransGen.head'_iff.mp hcycle
  obtain ⟨last, -, ⟨other, hlast, hpath⟩⟩ := TransGen.tail'_iff.mp hcycle
  rw [hunbound hlast hpath] at hget
  cases hget

/-- Reifying the types of a table gives a table with the same variables and settled types. -/
theorem rel_get?_reified (hgraph : graph.WellFormed) (hfits : table.Fits graph)
    (hchains : Acyclic table.Link) {order : List (Variable × Ty)}
    (horder : order.Perm table.entries) {reified : Reified}
    (hreified : table.reifiedAlong? order graph = some reified) (subject : Variable) :
    Option.Rel (table.Settles graph reified.graph) (table.get? subject)
      (reified.table.get? subject) := by
  obtain ⟨results, finish, hreifies, rfl⟩ := reifiedAlong?_sound hreified
  obtain ⟨-, hsettles⟩ := hreifies.pass hgraph hfits hchains (.start hgraph)
    (holds_of_perm hfits horder)
  exact Bindings.rel_get?_ofList horder hsettles subject

/-- No variable that is bound occurs in the reified types of a table. -/
theorem unbound_of_reified {reified : Reified} (hrelated : ∀ subject,
      Option.Rel (table.Settles graph reified.graph) (table.get? subject)
        (reified.table.get? subject)) {other : Variable}
    (hget : reified.table.get? subject = some bound)
    (hpath : ReflTransGen reified.graph.Child bound (.var other)) :
    reified.table.get? other = none := by
  obtain ⟨old, -, hsettles⟩ := exists_eq_some_of_rel (hrelated subject) hget
  exact (eq_none_iff_of_rel (hrelated other)).mpr (hsettles.resolved hpath)

theorem Sound.reified (hsound : table.Sound graph) (hgraph : graph.WellFormed)
    {order : List (Variable × Ty)} (horder : order.Perm table.entries) {reified : Reified}
    (hreified : table.reifiedAlong? order graph = some reified) :
    reified.table.Sound reified.graph := by
  have hrelated := rel_get?_reified hgraph hsound.fits (hsound.chains hgraph) horder hreified
  refine ⟨?_, ?_, acyclic_of_unbound (unbound_of_reified hrelated)⟩
  · obtain ⟨_, _, -, rfl⟩ := reifiedAlong?_sound hreified
    exact hsound.eager
  · intro subject bound hget
    obtain ⟨old, -, hsettles⟩ := exists_eq_some_of_rel (hrelated subject) hget
    exact hsettles.holds

end Table

end Inference
