import Inference.Proofs.Enumeration
import Inference.Proofs.Histories

/-!
# Agreement of tables

Tables agree if no variable that both of them bind tells them apart. To find out, it
is enough to look up the bindings of one of them in the other one. Which table that
is and in what order its bindings come is not seen in the answer
(`confirms_iff`), so the comparison may go through the smaller table
(`isEquivalent_iff_agrees`).

Tables lose no binding, so what tells two tables apart once tells all later ones apart
(`Agrees.of_grows`).
-/

namespace Inference

open Relation

namespace Table

/-- Every variable that both tables bind is bound to the same type by both. -/
def Agrees (left right : Table) : Prop :=
  ∀ subject bound other, left.get? subject = some bound → right.get? subject = some other →
    bound = other

/-- Whether the table binds no variable to another type than the list does. -/
def confirms (table : Table) (listed : List (Variable × Ty)) : Bool :=
  listed.all fun (subject, ty) => (table.get? subject).all (· = ty)

variable {left right table other before after earlier later : Table}
  {order : List (Variable × Ty)}

theorem Agrees.symm (hagrees : left.Agrees right) : right.Agrees left :=
  fun subject bound other hright hleft => (hagrees subject other bound hleft hright).symm

theorem agrees_comm : left.Agrees right ↔ right.Agrees left := ⟨.symm, .symm⟩

/-- The tables agree exactly if one of them confirms the bindings of the other one, in whatever
order they are listed. -/
theorem confirms_iff (horder : order.Perm table.entries) :
    other.confirms order = true ↔ table.Agrees other := by
  rw [confirms, List.all_eq_true]
  constructor
  · intro hall subject bound found hbound hfound
    have hentry : (subject, bound) ∈ order :=
      horder.mem_iff.mpr (Bindings.mem_entries_iff.mpr hbound)
    have hsame := hall (subject, bound) hentry
    simp only [hfound, Option.all_some, decide_eq_true_eq] at hsame
    exact hsame.symm
  · rintro hagrees ⟨subject, bound⟩ hentry
    have hbound : table.get? subject = some bound :=
      Bindings.mem_entries_iff.mp (horder.mem_iff.mp hentry)
    show (other.get? subject).all (· = bound) = true
    cases hfound : other.get? subject with
    | none => rfl
    | some found => exact decide_eq_true (hagrees subject bound found hbound hfound).symm

/-- The comparison goes through the smaller table. -/
theorem isEquivalent_eq (left right : Table) :
    left.isEquivalent right =
      if left.size ≤ right.size then right.confirms left.entries
      else left.confirms right.entries := by
  by_cases hle : left.size ≤ right.size
  · simp only [isEquivalent, if_pos hle, confirms]
  · simp only [isEquivalent, if_neg hle, confirms]

/-- The comparison comes out as it would through the other table. -/
theorem isEquivalent_iff_agrees : left.isEquivalent right = true ↔ left.Agrees right := by
  rw [isEquivalent_eq]
  split
  · exact confirms_iff (.refl _)
  · exact (confirms_iff (.refl _)).trans agrees_comm

/-- Tables are equal exactly if they bind every variable alike. -/
theorem beq_iff_get?_eq :
    (left == right) = true ↔ ∀ subject, left.get? subject = right.get? subject := by
  refine decide_eq_true_iff.trans ⟨fun heq subject => ?_, Bindings.ext⟩
  rw [get?, get?, heq]

/-- Tables that agree are equal if they bind the same variables. -/
theorem beq_iff_agrees : (left == right) = true ↔
    left.Agrees right ∧ ∀ subject, (left.get? subject).isSome = (right.get? subject).isSome := by
  rw [beq_iff_get?_eq]
  constructor
  · intro hget
    refine ⟨?_, fun subject => by rw [hget]⟩
    intro subject bound other hbound hother
    rw [hget, hother] at hbound
    exact (Option.some.inj hbound).symm
  · rintro ⟨hagrees, hbinds⟩ subject
    have hsame := hbinds subject
    cases hleft : left.get? subject with
    | none =>
        rw [hleft] at hsame
        exact (Option.not_isSome_iff_eq_none.mp (Bool.eq_false_iff.mp hsame.symm)).symm
    | some bound =>
        rw [hleft] at hsame
        obtain ⟨other, hright⟩ := Option.isSome_iff_exists.mp hsame.symm
        rw [hright, hagrees subject bound other hleft hright]

/-- What later tables agree on, the earlier ones agreed on. -/
theorem Agrees.of_grows (hagrees : after.Agrees later) (hleft : before.Grows after)
    (hright : earlier.Grows later) : before.Agrees earlier :=
  fun subject bound other hbound hother =>
    hagrees subject bound other (hleft subject bound hbound) (hright subject other hother)

/-- Comparing two tables tells whether no variable that both of them bind tells them apart, and it
does so from either side, through either table and in whatever order its bindings come. Tables are
equal exactly if they are equivalent and bind the same variables. Let the chains of both have no
cycle. If they are not equivalent, then they never will be, whatever is requested of either of them,
in whatever order, with whatever graphs and with whatever outcomes. -/
theorem equivalence_is_agreement (left right : Table) :
    (left.isEquivalent right = true ↔ left.Agrees right) ∧
    (∀ order, order.Perm left.entries → right.confirms order = left.isEquivalent right) ∧
    (∀ order, order.Perm right.entries → left.confirms order = left.isEquivalent right) ∧
    left.isEquivalent right = right.isEquivalent left ∧
    ((left == right) = true ↔ left.isEquivalent right = true ∧
      ∀ subject, (left.get? subject).isSome = (right.get? subject).isSome) ∧
    (Acyclic left.Link → Acyclic right.Link → left.isEquivalent right = false →
      ∀ after later, ReflTransGen Requested left after → ReflTransGen Requested right later →
        after.isEquivalent later = false) := by
  refine ⟨isEquivalent_iff_agrees, ?_, ?_, ?_, ?_, ?_⟩
  · intro order horder
    rw [Bool.eq_iff_iff, confirms_iff horder, isEquivalent_iff_agrees]
  · intro order horder
    rw [Bool.eq_iff_iff, confirms_iff horder, isEquivalent_iff_agrees, agrees_comm]
  · rw [Bool.eq_iff_iff, isEquivalent_iff_agrees, isEquivalent_iff_agrees, agrees_comm]
  · rw [isEquivalent_iff_agrees, beq_iff_agrees]
  · intro hleft hright hdiffer after later hafter hlater
    rw [← Bool.not_eq_true, isEquivalent_iff_agrees] at hdiffer ⊢
    exact fun hagrees => hdiffer
      (hagrees.of_grows (grows_of_requests hafter hleft).1 (grows_of_requests hlater hright).1)

/-- The table that was smaller becomes the larger one. -/
theorem equivalence_is_agreement_outgrown : ∃ after : Table,
    (ofList [(⟨0⟩, .primitive .int)]).isEquivalent
      (ofList [(⟨0⟩, .primitive .bool), (⟨1⟩, .tuple 0)]) = false ∧
    ReflTransGen Requested (ofList [(⟨0⟩, .primitive .int)]) after ∧ 2 < after.size ∧
    after.isEquivalent (ofList [(⟨0⟩, .primitive .bool), (⟨1⟩, .tuple 0)]) = false := by
  have hleft : Acyclic (ofList [(⟨0⟩, .primitive .int)]).Link :=
    acyclic_link_insert (acyclic_link_withPolicy .eager) rfl (by decide)
  have hright : Acyclic (ofList [(⟨0⟩, .primitive .bool), (⟨1⟩, .tuple 0)]).Link :=
    acyclic_link_insert (acyclic_link_insert (acyclic_link_withPolicy .eager) rfl (by decide)) rfl
      (by decide)
  have hfirst : (ofList [(⟨0⟩, .primitive .int)]).bind ∅ ⟨1⟩ (.tuple 0) =
      .ok (ofList [(⟨0⟩, .primitive .int), (⟨1⟩, .tuple 0)]) := by cbv
  have hsecond : (ofList [(⟨0⟩, .primitive .int), (⟨1⟩, .tuple 0)]).bind ∅ ⟨2⟩ (.var ⟨0⟩) =
      .ok (ofList [(⟨0⟩, .primitive .int), (⟨1⟩, .tuple 0), (⟨2⟩, .var ⟨0⟩)]) := by cbv
  have hafter := (ReflTransGen.single (requested_of_bind hfirst)).tail (requested_of_bind hsecond)
  have hdiffer : (ofList [(⟨0⟩, .primitive .int)]).isEquivalent
      (ofList [(⟨0⟩, .primitive .bool), (⟨1⟩, .tuple 0)]) = false := by decide
  exact ⟨_, hdiffer, hafter, by decide,
    (equivalence_is_agreement _ _).2.2.2.2.2 hleft hright hdiffer _ _ hafter .refl⟩

end Table

end Inference
