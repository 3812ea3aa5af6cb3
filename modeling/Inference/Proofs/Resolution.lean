import Inference.Proofs.Histories

/-!
# How chains move

A recorded binding is for the variable at the end of a chain, and any number of
other chains may end there too. All of them go on to the end of the chain of the
type that is recorded, and every other chain stays as it is (`walk_insert`). No
chain comes back to the variable that is bound, because the chain of the type does
not end at it.

`binding_moves_chains` says this of a request, whatever its policy and its graph.
-/

namespace Inference

namespace Table

variable {table after : Table} {graph : Graph} {subject key : Variable} {ty bound : Ty}

/-- A binding for an unbound variable moves the chains that end at the variable to the end of the
type's chain. -/
theorem walk_insert (hchains : Acyclic table.Link) (hkey : table.get? key = none)
    (hne : table.walk ty ≠ .var key) (start : Ty) :
    (table.insert key ty).walk start =
      if table.walk start = .var key then table.walk ty else table.walk start := by
  have hafter := acyclic_link_insert hchains hkey hne
  have hgrows : table.Grows (table.insert key ty) := grows_insert hkey
  -- An old end is an end still, unless it is the variable that is bound.
  have hend : ∀ other, table.walk other ≠ .var key →
      (table.insert key ty).walk (table.walk other) = table.walk other := by
    intro other hother
    exact walk_of_not_link (not_link_insert hother (ends_walk hchains other).2)
  have hlink : (table.insert key ty).Link (.var key) ty := by
    rw [link_var_iff, get?_insert, if_pos rfl]
  rw [← hgrows.walk_walk hafter start]
  split
  · rename_i hreached
    calc (table.insert key ty).walk (table.walk start)
        = (table.insert key ty).walk (.var key) := by rw [hreached]
      _ = (table.insert key ty).walk ty := walk_of_link hafter hlink
      _ = (table.insert key ty).walk (table.walk ty) := (hgrows.walk_walk hafter ty).symm
      _ = table.walk ty := hend ty hne
  · rename_i hreached
    exact hend start hreached

/-- A request that binds a variable binds the end of the chain of the requested variable to the type
as requested. -/
theorem recorded_of_bind (hchains : Acyclic table.Link)
    (hbind : table.bind graph subject ty = .ok after) (hkey : table.get? key = none)
    (hrecorded : after.get? key = some bound) :
    table.walk (.var subject) = .var key ∧ bound = ty ∧ after = table.insert key ty ∧
      table.walk ty ≠ .var key := by
  obtain rfl | ⟨found, hwalk, hseen, rfl⟩ := bind_cases hbind
  · rw [hkey] at hrecorded
    cases hrecorded
  · rw [get?_insert] at hrecorded
    split at hrecorded
    · rename_i heq
      subst heq
      exact ⟨hwalk, (Option.some.inj hrecorded).symm, rfl,
        walk_ne_of_seesIn hchains hkey hseen⟩
    · rw [hkey] at hrecorded
      cases hrecorded

/-- Let a request record a binding for a variable. That is the end of the chain of the requested
variable, and it is bound to the type as requested. The chains that ended there now end where the
chain of the type ended, and all others where they did. So the requested variable and the type have
one end, and exactly the variables whose chain ended at the one that is bound have another end than
before. -/
theorem binding_moves_chains (hchains : Acyclic table.Link)
    (hbind : table.bind graph subject ty = .ok after) (hkey : table.get? key = none)
    (hrecorded : after.get? key = some bound) :
    table.walk (.var subject) = .var key ∧ bound = ty ∧
    (∀ start, after.walk start =
      if table.walk start = .var key then table.walk ty else table.walk start) ∧
    after.walk (.var subject) = after.walk ty ∧
    ∀ other : Variable, after.walk (.var other) ≠ table.walk (.var other) ↔
      table.walk (.var other) = .var key := by
  obtain ⟨hwalk, rfl, rfl, hne⟩ := recorded_of_bind hchains hbind hkey hrecorded
  have hmoves := walk_insert hchains hkey hne
  refine ⟨hwalk, rfl, hmoves, ?_, ?_⟩
  · rw [hmoves, hmoves, if_pos hwalk, if_neg hne]
  · intro other
    rw [hmoves]
    split
    · rename_i hreached
      exact iff_of_true (hreached ▸ hne) hreached
    · rename_i hreached
      exact iff_of_false (fun h => h rfl) hreached

/-- Variables 0, 2 and 3 stand for variable 1, and variable 4 for a function that is not there. -/
def converging : Table :=
  ofList [(⟨0⟩, .var ⟨1⟩), (⟨2⟩, .var ⟨0⟩), (⟨3⟩, .var ⟨1⟩), (⟨4⟩, .function 7)]

/-- The request names variable 0, and variables 1, 2 and 3 move with it. -/
theorem binding_moves_chains_converging : ∃ after : Table,
    converging.bind ∅ ⟨0⟩ (.var ⟨4⟩) = .ok after ∧ after.get? ⟨1⟩ = some (.var ⟨4⟩) ∧
    after.walk (.var ⟨2⟩) = .function 7 ∧
    ∀ other : Variable, after.walk (.var other) ≠ converging.walk (.var other) ↔
      converging.walk (.var other) = .var ⟨1⟩ := by
  have hfirst : Acyclic (ofList [(⟨0⟩, .var ⟨1⟩)]).Link :=
    acyclic_link_insert (acyclic_link_withPolicy .eager) rfl (by decide)
  have hsecond : Acyclic (ofList [(⟨0⟩, .var ⟨1⟩), (⟨2⟩, .var ⟨0⟩)]).Link :=
    acyclic_link_insert hfirst rfl (by decide)
  have hthird : Acyclic (ofList [(⟨0⟩, .var ⟨1⟩), (⟨2⟩, .var ⟨0⟩), (⟨3⟩, .var ⟨1⟩)]).Link :=
    acyclic_link_insert hsecond rfl (by decide)
  have hchains : Acyclic converging.Link := acyclic_link_insert hthird rfl (by decide)
  have hbind : converging.bind ∅ ⟨0⟩ (.var ⟨4⟩) = .ok (converging.insert ⟨1⟩ (.var ⟨4⟩)) := by cbv
  have hkey : converging.get? ⟨1⟩ = none := by decide
  have hrecorded : (converging.insert ⟨1⟩ (.var ⟨4⟩)).get? ⟨1⟩ = some (.var ⟨4⟩) := by decide
  obtain ⟨-, -, hmoves, -, hmoved⟩ := binding_moves_chains hchains hbind hkey hrecorded
  refine ⟨_, hbind, hrecorded, ?_, hmoved⟩
  rw [hmoves]
  decide

end Table

end Inference
