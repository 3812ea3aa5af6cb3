import Inference.Proofs.Acyclic
import Inference.Table

/-!
# Chains of bindings

A chain of bindings leads from a bound variable to what it is bound to, and on
from there. If no chain returns to its start, walking a type ends where its chain
ends (`walk_eq_iff_ends`): the bound on the number of steps never cuts a chain
short.
-/

namespace Inference

open Relation

namespace Table

/-- The step from a bound variable to the type it is bound to. -/
def Link (table : Table) (ty bound : Ty) : Prop :=
  ∃ subject, ty = .var subject ∧ table.get? subject = some bound

/-- The chain of bindings from a type on leads to `reached` and no further. -/
def Ends (table : Table) (ty reached : Ty) : Prop :=
  ReflTransGen table.Link ty reached ∧ ∀ next, ¬ table.Link reached next

variable {table : Table} {ty next reached bound : Ty} {subject : Variable}

theorem link_var_iff : table.Link (.var subject) bound ↔ table.get? subject = some bound := by
  simp [Link]

theorem Link.unique (hnext : table.Link ty next) (hother : table.Link ty bound) :
    next = bound := by
  obtain ⟨subject, rfl, hnext⟩ := hnext
  rw [link_var_iff, hnext] at hother
  exact Option.some.inj hother

/-- An unbound variable has no link. -/
theorem not_link_of_get?_eq_none (hunbound : table.get? subject = none) (next : Ty) :
    ¬ table.Link (.var subject) next := by
  simp [link_var_iff, hunbound]

theorem not_link_tuple (table : Table) (id : Nat) (next : Ty) : ¬ table.Link (.tuple id) next := by
  intro hlink
  obtain ⟨subject, heq, -⟩ := hlink
  cases heq

/-- A new binding for an unbound variable leaves the other links as they are. -/
theorem link_insert {key : Variable} (hkey : table.get? key = none) (hlink : table.Link ty next) :
    (table.insert key bound).Link ty next := by
  obtain ⟨subject, rfl, hget⟩ := hlink
  refine link_var_iff.mpr ?_
  rw [get?_insert, if_neg]
  · exact hget
  · intro heq
    rw [heq, hkey] at hget
    cases hget

/-- A link after a new binding was there before, or it is the one of the variable that is bound. -/
theorem link_insert_cases {key : Variable} (hlink : (table.insert key bound).Link ty next) :
    table.Link ty next ∨ ty = .var key ∧ next = bound := by
  obtain ⟨subject, rfl, hget⟩ := hlink
  rw [get?_insert] at hget
  split at hget
  · rename_i heq
    cases hget
    exact .inr ⟨by rw [heq], rfl⟩
  · exact .inl (link_var_iff.mpr hget)

/-- Only the variable that is bound gets a new link. -/
theorem not_link_insert {key : Variable} (hne : ty ≠ .var key) (hend : ∀ next, ¬ table.Link ty next)
    (next : Ty) : ¬ (table.insert key bound).Link ty next := by
  intro hlink
  obtain hold | ⟨heq, -⟩ := link_insert_cases hlink
  · exact hend next hold
  · exact hne heq

/-! ## Following a chain -/

theorem follow_of_link (hlink : table.Link ty next) (steps : Nat) :
    table.follow (steps + 1) ty = table.follow steps next := by
  obtain ⟨subject, rfl, hget⟩ := hlink
  simp [follow, hget]

theorem follow_of_not_link (hend : ∀ next, ¬ table.Link ty next) (steps : Nat) :
    table.follow steps ty = ty := by
  cases steps with
  | zero => rfl
  | succ steps =>
      cases ty with
      | var subject =>
          simp only [link_var_iff] at hend
          rw [follow, Option.eq_none_iff_forall_ne_some.mpr hend]
      | _ => rfl

/-- The variables that a table binds, as types. -/
def boundVariables (table : Table) : List Ty := table.bindings.keys.map .var

theorem length_boundVariables (table : Table) : table.boundVariables.length = table.size := by
  simp [boundVariables, Bindings.keys, Bindings.entries, size, Bindings.size]

theorem mem_keys_iff :
    subject ∈ table.bindings.keys ↔ ∃ bound, table.get? subject = some bound := by
  simp only [Bindings.keys, List.mem_map, Prod.exists, exists_and_right, exists_eq_right,
    Bindings.mem_entries_iff, get?]

theorem mem_boundVariables (hlink : table.Link ty next) : ty ∈ table.boundVariables := by
  obtain ⟨subject, rfl, hget⟩ := hlink
  exact List.mem_map_of_mem (mem_keys_iff.mpr ⟨next, hget⟩)

/-- Following a chain for as many steps as it has bound variables leads to its end. -/
theorem ends_follow (hchains : Acyclic table.Link) {steps : Nat}
    (hsteps : height table.Link table.boundVariables ty ≤ steps) :
    table.Ends ty (table.follow steps ty) := by
  -- Every step leaves a bound variable behind that cannot be reached any more.
  induction steps generalizing ty with
  | zero =>
      show table.Ends ty ty
      refine ⟨.refl, ?_⟩
      intro next hlink
      have hlt := height_lt hchains (mem_boundVariables hlink) hlink
      omega
  | succ steps ih =>
      by_cases hend : ∀ next, ¬ table.Link ty next
      · rw [follow_of_not_link hend]
        exact ⟨.refl, hend⟩
      · obtain ⟨next, hlink⟩ := Classical.not_forall_not.mp hend
        have hlt := height_lt hchains (mem_boundVariables hlink) hlink
        obtain ⟨hpath, hend⟩ := @ih next (by omega)
        rw [follow_of_link hlink]
        exact ⟨.head hlink hpath, hend⟩

/-- A chain has one end. -/
theorem Ends.unique (hreached : table.Ends ty reached) (hother : table.Ends ty bound) :
    reached = bound := by
  obtain ⟨hpath, hend⟩ := hreached
  obtain ⟨hother, hotherEnd⟩ := hother
  induction hpath using ReflTransGen.head_induction_on with
  | refl =>
      obtain heq | ⟨next, hlink, -⟩ := hother.cases_head
      · exact heq
      · exact absurd hlink (hend next)
  | head hlink _ ih =>
      obtain rfl | ⟨next, hfirst, hrest⟩ := hother.cases_head
      · exact absurd hlink (hotherEnd _)
      · rw [Link.unique hfirst hlink] at hrest
        exact ih hrest

/-! ## Walking -/

variable (hchains : Acyclic table.Link)

include hchains in
theorem ends_walk (ty : Ty) : table.Ends ty (table.walk ty) := by
  refine ends_follow hchains ?_
  rw [← length_boundVariables]
  exact height_le_length ty

include hchains in
/-- Walking a type leads to `reached` exactly if the chain from the type on ends there. -/
theorem walk_eq_iff_ends : table.walk ty = reached ↔ table.Ends ty reached := by
  constructor
  · intro heq
    exact heq ▸ ends_walk hchains ty
  · exact (ends_walk hchains ty).unique

theorem walk_of_not_link (hend : ∀ next, ¬ table.Link ty next) : table.walk ty = ty :=
  follow_of_not_link hend table.size

include hchains in
theorem walk_of_link (hlink : table.Link ty next) : table.walk ty = table.walk next := by
  obtain ⟨hpath, hend⟩ := ends_walk hchains next
  exact (walk_eq_iff_ends hchains).mpr ⟨.head hlink hpath, hend⟩

include hchains in
theorem walk_walk (ty : Ty) : table.walk (table.walk ty) = table.walk ty :=
  walk_of_not_link (ends_walk hchains ty).2

include hchains in
/-- A path that takes the link wherever there is one and that ends at a type without a link first
follows the chain of bindings to its end. -/
theorem path_from_walk {step : Ty → Ty → Prop} {last : Ty}
    (hstep : ∀ {ty next}, step ty next → table.Link ty next ∨ ∀ other, ¬ table.Link ty other)
    (hlast : ∀ next, ¬ table.Link last next) (hpath : ReflTransGen step ty last) :
    ReflTransGen step (table.walk ty) last := by
  induction hpath using ReflTransGen.head_induction_on with
  | refl => rw [walk_of_not_link hlast]
  | head hfirst hrest ih =>
      obtain hlink | hend := hstep hfirst
      · rw [walk_of_link hchains hlink]
        exact ih
      · rw [walk_of_not_link hend]
        exact .head hfirst hrest

/-- The steps from a type on, whatever the chains are like, are links. -/
theorem path_walk (table : Table) (ty : Ty) : ReflTransGen table.Link ty (table.walk ty) := by
  unfold walk
  induction table.size generalizing ty with
  | zero => exact .refl
  | succ steps ih =>
      by_cases hend : ∀ next, ¬ table.Link ty next
      · rw [follow_of_not_link hend]
      · obtain ⟨next, hlink⟩ := Classical.not_forall_not.mp hend
        rw [follow_of_link hlink]
        exact .head hlink (ih next)

end Table

end Inference
