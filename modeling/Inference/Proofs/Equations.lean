import Inference.Proofs.Histories

/-!
# Accepted equations

A request states the equation of a variable and a type. A table solves the equation
if the variable is bound and its chain ends where the chain of the type ends. Then
the request changes nothing, and these are the only requests that are accepted and
change nothing (`bind_eq_self_iff`).

An accepted request leaves a table that solves its equation, and so does every table
that grows out of that one. Both chains go on from where they met, so the equation
stays solved (`accepted_for_good`).
-/

namespace Inference

open Relation

namespace Table

/-- The variable is bound, and its chain ends where the chain of the type ends. -/
structure Solves (table : Table) (subject : Variable) (ty : Ty) : Prop where
  bound : ∃ bound, table.get? subject = some bound
  walk_eq : table.walk (.var subject) = table.walk ty

variable {table accepted later before after : Table} {graph : Graph} {subject key : Variable}
  {ty : Ty}

/-- A variable whose chain ends at a variable is bound exactly if that is another one. -/
theorem bound_iff_of_walk (hchains : Acyclic table.Link)
    (hwalk : table.walk (.var subject) = .var key) :
    (∃ bound, table.get? subject = some bound) ↔ key ≠ subject := by
  constructor
  · rintro ⟨bound, hget⟩ rfl
    rw [get?_of_walk hchains hwalk] at hget
    cases hget
  · intro hne
    cases hget : table.get? subject with
    | some bound => exact ⟨bound, rfl⟩
    | none =>
        rw [walk_of_not_link (not_link_of_get?_eq_none hget)] at hwalk
        exact absurd (Ty.var.inj hwalk).symm hne

/-- A variable whose chain ends at something else than a variable is bound. -/
theorem bound_of_walk_ne_var (hwalk : ∀ key, table.walk (.var subject) ≠ .var key) :
    ∃ bound, table.get? subject = some bound := by
  cases hget : table.get? subject with
  | some bound => exact ⟨bound, rfl⟩
  | none => exact absurd (walk_of_not_link (not_link_of_get?_eq_none hget)) (hwalk subject)

/-- The equation of a variable whose chain ends at a variable is solved if the chain of the type ends
there too, except when that is the variable itself. -/
theorem solves_iff_of_walk (hchains : Acyclic table.Link)
    (hwalk : table.walk (.var subject) = .var key) :
    table.Solves subject ty ↔ table.walk ty = .var key ∧ key ≠ subject := by
  rw [← bound_iff_of_walk hchains hwalk]
  constructor
  · intro hsolves
    exact ⟨hsolves.walk_eq.symm.trans hwalk, hsolves.bound⟩
  · intro h
    exact ⟨h.2, hwalk.trans h.1.symm⟩

/-- A binding that is recorded was not there before. -/
theorem insert_ne_self (hkey : table.get? key = none) : table.insert key ty ≠ table := by
  intro heq
  have hget := get?_insert table key key ty
  rw [heq, hkey, if_pos rfl] at hget
  cases hget

/-- A request is accepted without a change exactly if its equation is solved. -/
theorem bind_eq_self_iff (hchains : Acyclic table.Link) :
    table.bind graph subject ty = .ok table ↔ table.Solves subject ty := by
  by_cases hvar : ∃ key, table.walk (.var subject) = .var key
  · obtain ⟨key, hwalk⟩ := hvar
    rw [solves_iff_of_walk hchains hwalk, bind, judge_of_walk_var hwalk]
    split
    · rename_i hholds
      exact iff_of_true rfl hholds
    · rename_i hnot
      refine iff_of_false ?_ hnot
      split
      · intro hrefuses
        cases hrefuses
      · intro hrecords
        exact insert_ne_self (get?_of_walk hchains hwalk) (Except.ok.inj hrecords)
  · have hwalk := not_exists.mp hvar
    rw [bind, judge_of_walk_ne_var hwalk]
    split
    · rename_i heq
      exact iff_of_true rfl ⟨bound_of_walk_ne_var hwalk, heq⟩
    · rename_i hne
      constructor
      · intro hrefuses
        cases hrefuses
      · intro hsolves
        exact absurd hsolves.walk_eq hne

/-- An accepted request leaves a table that solves its equation. -/
theorem solves_of_bind (hchains : Acyclic table.Link)
    (hbind : table.bind graph subject ty = .ok after) : after.Solves subject ty := by
  obtain ⟨hgrows, hafter⟩ := grows_of_bind hchains hbind
  obtain rfl | ⟨key, hwalk, -, rfl⟩ := bind_cases hbind
  · exact (bind_eq_self_iff hchains).mp hbind
  · have hkey : (table.insert key ty).get? key = some ty := by rw [get?_insert, if_pos rfl]
    constructor
    · by_cases heq : subject = key
      · exact ⟨ty, heq ▸ hkey⟩
      · obtain ⟨bound, hget⟩ := (bound_iff_of_walk hchains hwalk).mpr (Ne.symm heq)
        exact ⟨bound, hgrows subject bound hget⟩
    · calc (table.insert key ty).walk (.var subject)
          = (table.insert key ty).walk (table.walk (.var subject)) :=
            (hgrows.walk_walk hafter _).symm
        _ = (table.insert key ty).walk (.var key) := by rw [hwalk]
        _ = (table.insert key ty).walk ty := walk_of_link hafter (link_var_iff.mpr hkey)

/-- An equation that is solved stays solved when the table grows. -/
theorem Solves.of_grows (hsolves : before.Solves subject ty) (hgrows : before.Grows after)
    (hchains : Acyclic after.Link) : after.Solves subject ty := by
  obtain ⟨⟨bound, hget⟩, hwalk⟩ := hsolves
  refine ⟨⟨bound, hgrows subject bound hget⟩, ?_⟩
  rw [← hgrows.walk_walk hchains, hwalk, hgrows.walk_walk hchains]

/-- Let a request be accepted, and any other requests follow, which may be refused. Then every
binding that there ever was is still there, the chains of the variable and of the type end alike, and
the request is accepted again, with any graph and without a change. -/
theorem accepted_for_good (hchains : Acyclic table.Link)
    (hbind : table.bind graph subject ty = .ok accepted)
    (hlater : ReflTransGen Requested accepted later) :
    (∀ earlier, ReflTransGen Requested table earlier → ReflTransGen Requested earlier later →
      earlier.Grows later) ∧
    later.walk (.var subject) = later.walk ty ∧
    ∀ graph, later.bind graph subject ty = .ok later := by
  obtain ⟨-, haccepted⟩ := grows_of_bind hchains hbind
  obtain ⟨hgrows, hend⟩ := grows_of_requests hlater haccepted
  have hsolves := (solves_of_bind hchains hbind).of_grows hgrows hend
  refine ⟨?_, hsolves.walk_eq, fun _ => (bind_eq_self_iff hend).mpr hsolves⟩
  intro earlier hearlier hrest
  exact (grows_of_requests hrest (grows_of_requests hearlier hchains).2).1

/-- Both ends have moved on to a variable that is still unbound. -/
theorem accepted_for_good_chained : ∃ later : Table,
    later.walk (.var ⟨2⟩) = .var ⟨4⟩ ∧ ReflTransGen Requested chained later ∧
    (∀ earlier, ReflTransGen Requested {} earlier → ReflTransGen Requested earlier later →
      earlier.Grows later) ∧
    later.walk (.var ⟨2⟩) = later.walk (.var ⟨3⟩) ∧
    ∀ graph, later.bind graph ⟨2⟩ (.var ⟨3⟩) = .ok later := by
  have hbind : ({} : Table).bind ∅ ⟨2⟩ (.var ⟨3⟩) = .ok chained := by cbv
  have hmoved : chained.bind .looped ⟨2⟩ (.var ⟨4⟩) =
      .ok (ofList [(⟨2⟩, .var ⟨3⟩), (⟨3⟩, .var ⟨4⟩)]) := by cbv
  have hrefused : (ofList [(⟨2⟩, .var ⟨3⟩), (⟨3⟩, .var ⟨4⟩)]).Requested
      (ofList [(⟨2⟩, .var ⟨3⟩), (⟨3⟩, .var ⟨4⟩)]) := ⟨∅, (⟨4⟩, .var ⟨2⟩), by cbv⟩
  have hlater := (ReflTransGen.single (requested_of_bind hmoved)).tail hrefused
  exact ⟨_, by decide, hlater,
    accepted_for_good (acyclic_link_withPolicy .eager) hbind hlater⟩

end Table

end Inference
