import Inference.Proofs.Leaves
import Inference.Proofs.Reification.Outcome

/-!
# The meaning of reified types

What reification means is the tree of the type that it returns. On a graph that is
reached, a table without cycles gives every handle one such tree, which is the tree
of the handle under the substitution (`reifiedShape?_eq_some_iff`).

A request that records a binding changes this meaning in one way: wherever the
variable was that is now bound, there is the tree of the requested type
(`bind_composes`). The search before the request has made sure that the variable
is not in that tree itself.
-/

namespace Inference

open Relation

namespace Table

/-- The tree of the type that reifying a type returns, in the graph that it returns. -/
def reifiedShape? (table : Table) (graph : Graph) (ty : Ty) : Option Shape :=
  (table.reify? graph ty).bind fun (result, after) => after.shape? result

variable {table : Table} {graph : Graph} {ty : Ty} {shape : Shape} {key : Variable}

/-- The tree of a reified handle is the tree of the handle under the substitution. -/
theorem reifiedShape?_eq_some_iff (hreached : graph.Reached) (hgrounded : table.Grounded graph)
    (hty : graph.Holds ty) :
    table.reifiedShape? graph ty = some shape ↔ table.Unfolds graph ty shape := by
  have hacyclic := (acyclic_next_iff hgrounded.wellFormed.acyclic).mp hgrounded.next
  obtain ⟨result, finish, hreify, -, hfinish, -, hsettles⟩ :=
    exists_pass hreached hgrounded.fits hacyclic hty
  obtain ⟨found, hfound, hresolves⟩ := hsettles.resolvesTo hgrounded.next hfinish
  rw [reifiedShape?, hreify]
  show finish.graph.shape? result = some shape ↔ _
  rw [hfound, Option.some.injEq, hresolves]
  exact eq_comm

/-- A variable that is not found in a type is no leaf of its tree. -/
theorem not_mem_leaves_of_occursIn (hchains : Acyclic table.Link) (hkey : table.get? key = none)
    (hfound : table.occursIn graph key (table.walk ty) = false)
    (hunfolds : table.Unfolds graph ty shape) : .var key ∉ shape.leaves := by
  intro hleaf
  have hwalk := (unfolds_walk_iff table graph ty shape).mpr hunfolds
  rw [(occursIn_iff hchains hkey).mpr (hwalk.mem_leaves_iff.mp hleaf).1] at hfound
  cases hfound

end Table

namespace Session

variable {session : Session} {table after : Table} {subject : Variable} {ty : Ty}

/-- A request that changes the table binds the variable at the end of the chain. In what reifying a
type means, the meaning of the requested type then takes the place of that variable, which is not
in it. The requested variable and the requested type mean the same afterwards. -/
theorem bind_composes (hreached : session.Reached) (htable : table ∈ session.tables)
    (hty : session.graph.Holds ty) (hbind : table.bind session.graph subject ty = .ok after)
    (hrecords : after ≠ table) : ∃ key replacement,
      table.walk (.var subject) = .var key ∧ table.get? key = none ∧
      after = table.insert key ty ∧
      table.reifiedShape? session.graph ty = some replacement ∧ .var key ∉ replacement.leaves ∧
      (∀ other, session.graph.Holds other → ∃ shape,
        table.reifiedShape? session.graph other = some shape ∧
        after.reifiedShape? session.graph other = some (shape.substitute key replacement)) ∧
      after.reifiedShape? session.graph (.var subject) = some replacement ∧
      after.reifiedShape? session.graph ty = some replacement := by
  obtain rfl | ⟨key, hwalk, hseen, rfl⟩ := Table.bind_cases hbind
  · exact absurd rfl hrecords
  have hsound := hreached.sound.tables table htable
  have hbefore := hsound.grounded hreached.sound.graph
  have hafter := (hsound.bind hreached.sound.graph hty hbind).grounded hreached.sound.graph
  have hkey := Table.get?_of_walk hbefore.chains hwalk
  simp only [Table.seesIn, hsound.eager] at hseen
  -- What both tables mean is the tree under the substitution.
  have hmeans : ∀ {other shape}, session.graph.Holds other →
      (table.reifiedShape? session.graph other = some shape ↔
        table.Unfolds session.graph other shape) :=
    Table.reifiedShape?_eq_some_iff hreached.graph hbefore
  have hmeansAfter : ∀ {other shape}, session.graph.Holds other →
      ((table.insert key ty).reifiedShape? session.graph other = some shape ↔
        (table.insert key ty).Unfolds session.graph other shape) :=
    Table.reifiedShape?_eq_some_iff hreached.graph hafter
  obtain ⟨replacement, hreplacement⟩ := Table.exists_unfolds hbefore.next ty
  have hleaf := Table.not_mem_leaves_of_occursIn hbefore.chains hkey hseen hreplacement
  refine ⟨key, replacement, hwalk, hkey, rfl, (hmeans hty).mpr hreplacement, hleaf, ?_, ?_, ?_⟩
  · intro other hother
    obtain ⟨shape, hshape⟩ := Table.exists_unfolds hbefore.next other
    exact ⟨shape, (hmeans hother).mpr hshape,
      (hmeansAfter hother).mpr (hshape.insert hkey hreplacement hleaf)⟩
  · have hsubject : table.Unfolds session.graph (.var subject) (.leaf (.var key)) := by
      rw [← Table.unfolds_walk_iff, hwalk]
      exact .leaf (Table.not_link_of_get?_eq_none hkey) rfl
    have hinserted := hsubject.insert hkey hreplacement hleaf
    rw [Shape.substitute, if_pos rfl] at hinserted
    have hholds : session.graph.Holds (.var subject) := trivial
    exact (hmeansAfter hholds).mpr hinserted
  · exact (hmeansAfter hty).mpr (hreplacement.insert_of_not_mem hkey hleaf)

theorem bind_composes_chained : ∃ after,
    Table.chained.bind .looped ⟨2⟩ (.function 0) = .ok after ∧ after ≠ .chained ∧
    ∃ key replacement, Table.chained.walk (.var ⟨2⟩) = .var key ∧
      Table.chained.get? key = none ∧ after = Table.chained.insert key (.function 0) ∧
      Table.chained.reifiedShape? .looped (.function 0) = some replacement ∧
      .var key ∉ replacement.leaves ∧
      (∀ other, Graph.looped.Holds other → ∃ shape,
        Table.chained.reifiedShape? .looped other = some shape ∧
        after.reifiedShape? .looped other = some (shape.substitute key replacement)) ∧
      after.reifiedShape? .looped (.var ⟨2⟩) = some replacement ∧
      after.reifiedShape? .looped (.function 0) = some replacement := by
  have hbind : Table.chained.bind .looped ⟨2⟩ (.function 0) =
      .ok (.ofList [(⟨2⟩, .var ⟨3⟩), (⟨3⟩, .function 0)]) := by cbv
  have hrecords : Table.ofList [(⟨2⟩, .var ⟨3⟩), (⟨3⟩, .function 0)] ≠ .chained := by decide
  exact ⟨_, hbind, hrecords,
    bind_composes reached_chained List.mem_cons_self (by decide) hbind hrecords⟩

-- The variable and the function are two cases of the union before, and one case afterwards.
example :
    (Table.chained.reifiedShape? .looped (.union 0)).map
        (·.substitute ⟨3⟩ (.function (.leaf (.var ⟨1⟩)) (.leaf (.tuple 0)))) =
      some (.unionOf [.function (.leaf (.var ⟨1⟩)) (.leaf (.tuple 0))]) := by decide

end Session

end Inference
