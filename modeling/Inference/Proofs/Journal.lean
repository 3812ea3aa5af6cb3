import Inference.Journal
import Inference.Proofs.Descriptions
import Inference.Proofs.Equations

/-!
# The journal of a table

A call to bind leaves one entry if it records a binding, one if it is refused, and
none if it is accepted without a change (`bindLogged_cases`, `entries_bindLogged_iff`).
A variable is recorded only while it is unbound, and stays bound from then on. So the
journal of a table that starts without bindings mentions every variable once, and its
recorded bindings are those of the table (`LoggedTable.journal_is_faithful`). They can
be read off the lines of the journal as well (`LoggedTable.lines_tell_bindings`).
-/

namespace Inference

open Relation

namespace Table

variable {table : Table}

/-- The three outcomes of a call, and what the journal says of each. -/
theorem bindLogged_cases (hchains : Acyclic table.Link) (graph : Graph) (subject : Variable)
    (ty : Ty) :
    (∃ error, table.bindLogged graph subject ty = (.error error, [.refused error])) ∨
    table.bindLogged graph subject ty = (.ok table, []) ∨
    ∃ key, table.walk (.var subject) = .var key ∧ table.get? key = none ∧
      table.walk ty ≠ .var key ∧
      table.bindLogged graph subject ty = (.ok (table.insert key ty), [.recorded key ty]) := by
  by_cases hvar : ∃ key, table.walk (.var subject) = .var key
  · obtain ⟨key, hwalk⟩ := hvar
    have hkey := get?_of_walk hchains hwalk
    rw [bindLogged, judge_of_walk_var hwalk]
    split
    · exact .inr (.inl rfl)
    · split
      · exact .inl ⟨_, rfl⟩
      · rename_i hseen
        have hseen := Bool.not_eq_true _ ▸ hseen
        exact .inr (.inr ⟨key, hwalk, hkey, walk_ne_of_seesIn hchains hkey hseen, rfl⟩)
  · rw [bindLogged, judge_of_walk_ne_var (not_exists.mp hvar)]
    split
    · exact .inr (.inl rfl)
    · exact .inl ⟨_, rfl⟩

/-- A call leaves no entry exactly if the table solves the equation already, a refusal exactly if
the request is refused, and a recorded binding exactly if that is what the request makes of the
table. -/
theorem entries_bindLogged_iff (hchains : Acyclic table.Link) (graph : Graph) (subject : Variable)
    (ty : Ty) :
    ((table.bindLogged graph subject ty).2 = [] ↔ table.Solves subject ty) ∧
    (∀ error, (table.bindLogged graph subject ty).2 = [.refused error] ↔
      table.bind graph subject ty = .error error) ∧
    ∀ key bound, (table.bindLogged graph subject ty).2 = [.recorded key bound] ↔
      bound = ty ∧ table.walk (.var subject) = .var key ∧
        table.bind graph subject ty = .ok (table.insert key ty) := by
  rw [← @bind_eq_self_iff table graph subject ty hchains, ← bindLogged_fst]
  obtain ⟨error, hcall⟩ | hcall | ⟨key, hwalk, hkey, -, hcall⟩ :=
    bindLogged_cases hchains graph subject ty
  · rw [hcall]
    simp
  · rw [hcall]
    refine ⟨by simp, by simp, fun key bound => ?_⟩
    constructor
    · intro hentries
      cases hentries
    · rintro ⟨-, hwalk, heq⟩
      have hnew : table.insert key ty ≠ table := insert_ne_self (get?_of_walk hchains hwalk)
      exact absurd (Except.ok.inj heq).symm hnew
  · rw [hcall]
    have hnew : table.insert key ty ≠ table := insert_ne_self hkey
    refine ⟨by simp [hnew], by simp, fun other bound => ?_⟩
    constructor
    · intro hentries
      cases hentries
      exact ⟨rfl, hwalk, rfl⟩
    · rintro ⟨rfl, hother, -⟩
      rw [hwalk] at hother
      cases hother
      rfl

end Table

/-! ## Lines -/

namespace Entry

theorem line_recorded (key : Variable) (ty : Ty) :
    (recorded key ty).line = "TRACE binding " ++ key.describe ++ " to " ++ ty.describe := rfl

theorem line_inconsistent (subject : Variable) (bound requested : Ty) :
    (refused (.inconsistent subject bound requested)).line =
      "DEBUG rejected binding " ++ subject.describe ++ " to " ++ requested.describe ++ ": " ++
        ("already bound to " ++ bound.describe) := rfl

theorem line_cyclic (subject : Variable) (replacement : Ty) :
    (refused (.cyclic subject replacement)).line =
      "DEBUG rejected binding " ++ subject.describe ++ " to " ++ replacement.describe ++
        ": occurs check" := rfl

theorem line_reified (bindings tuples : Nat) :
    (reified bindings tuples).line =
      "TRACE reified " ++ toString bindings ++ " bindings through " ++ toString tuples ++
        " tuples" := rfl

/-- The line of a refusal names the variable and the requested type before the reason. -/
theorem line_refused (error : BindError) : ∃ subject requested reason,
    (refused error).line = "DEBUG rejected binding " ++ Variable.describe subject ++ " to " ++
      Ty.describe requested ++ reason := by
  cases error with
  | inconsistent subject bound requested =>
      exact ⟨subject, requested, _, (line_inconsistent subject bound requested).trans
        String.append_assoc⟩
  | cyclic subject replacement =>
      exact ⟨subject, replacement, _, line_cyclic subject replacement⟩

/-- The line of a recorded binding tells which one it is. -/
theorem line_eq_recorded_iff {entry : Entry} {key : Variable} {ty : Ty} :
    entry.line = (recorded key ty).line ↔ entry = recorded key ty := by
  refine ⟨fun h => ?_, congrArg line⟩
  rw [← String.toList_inj, line_recorded] at h
  simp only [String.toList_append, List.append_assoc] at h
  cases entry with
  | recorded other bound =>
      simp only [line_recorded, String.toList_append, List.append_assoc] at h
      obtain ⟨rfl, hrest⟩ := Variable.describe_append_inj (List.append_cancel_left h)
      have htypes := String.toList_inj.mp (List.append_cancel_left hrest)
      rw [Ty.describe_injective htypes]
  | refused error =>
      cases error with
      | inconsistent subject bound requested => simp [line_inconsistent] at h
      | cyclic subject replacement => simp [line_cyclic] at h
  | reified bindings tuples => simp [line_reified] at h

end Entry

/-! ## Runs -/

/-- A call to bind. The graph need not be the one of any other call. -/
structure Call where
  graph : Graph
  subject : Variable
  ty : Ty

/-- A table with the entries of all calls so far, the first one first. -/
structure LoggedTable where
  table : Table
  journal : List Entry

/-- The binding that an entry tells of, if it tells of one. -/
def Entry.binding? : Entry → Option (Variable × Ty)
  | recorded key ty => some (key, ty)
  | _ => none

theorem Entry.binding?_eq_some_iff {entry : Entry} {key : Variable} {ty : Ty} :
    entry.binding? = some (key, ty) ↔ entry = recorded key ty := by
  cases entry <;> simp [binding?]

namespace LoggedTable

/-- The bindings that the journal tells of, in order. -/
def told (logged : LoggedTable) : List (Variable × Ty) := logged.journal.filterMap Entry.binding?

/-- The table after a call, and the journal with the entries of the call. A refusal comes without a
table, and the one before it stays. -/
def after (logged : LoggedTable) (call : Call) : LoggedTable :=
  let (result, entries) := logged.table.bindLogged call.graph call.subject call.ty
  { table := result.toOption.getD logged.table
    journal := logged.journal ++ entries }

/-- A table that starts without bindings, after these calls. -/
def run (policy : OccursCheck) (calls : List Call) : LoggedTable :=
  calls.foldl after ⟨.withPolicy policy, []⟩

/-- The journal of a table is right: its chains have no cycle, every entry is a recorded binding or
a refusal, and the recorded bindings are for distinct variables and those of the table. -/
structure Faithful (logged : LoggedTable) : Prop where
  chains : Acyclic logged.table.Link
  entry : ∀ entry ∈ logged.journal,
    (∃ key ty, entry = .recorded key ty) ∨ ∃ error, entry = .refused error
  distinct : (logged.told.map Prod.fst).Nodup
  get?_iff : ∀ subject ty,
    logged.table.get? subject = some ty ↔ (subject, ty) ∈ logged.told

variable {logged : LoggedTable} {call : Call}

theorem faithful_withPolicy (policy : OccursCheck) : Faithful ⟨.withPolicy policy, []⟩ := by
  refine ⟨Table.acyclic_link_withPolicy policy, ?_, List.nodup_nil, ?_⟩
  · exact fun entry hentry => absurd hentry List.not_mem_nil
  · intro subject ty
    exact iff_of_false (fun hget => by cases hget) List.not_mem_nil

/-- A recorded binding for an unbound variable is told once. -/
theorem Faithful.record (hlogged : logged.Faithful) {key : Variable} {ty : Ty}
    (hkey : logged.table.get? key = none) (hne : logged.table.walk ty ≠ .var key) :
    Faithful ⟨logged.table.insert key ty, logged.journal ++ [.recorded key ty]⟩ := by
  have htold : told ⟨logged.table.insert key ty, logged.journal ++ [.recorded key ty]⟩ =
      logged.told ++ [(key, ty)] := List.filterMap_append
  have hnew : key ∉ logged.told.map Prod.fst := by
    intro hmem
    obtain ⟨⟨other, bound⟩, hin, rfl⟩ := List.mem_map.mp hmem
    rw [(hlogged.get?_iff other bound).mpr hin] at hkey
    cases hkey
  refine ⟨Table.acyclic_link_insert hlogged.chains hkey hne, ?_, ?_, ?_⟩
  · refine List.forall_mem_append.mpr ⟨hlogged.entry, ?_⟩
    exact List.forall_mem_singleton.mpr (.inl ⟨key, ty, rfl⟩)
  · rw [htold, List.map_append, List.nodup_append_comm]
    exact List.nodup_cons.mpr ⟨hnew, hlogged.distinct⟩
  · intro subject bound
    rw [htold, Table.get?_insert, List.mem_append, List.mem_singleton, Prod.mk.injEq,
      ← hlogged.get?_iff]
    split
    · rename_i heq
      simp [heq, hkey, eq_comm]
    · rename_i hother
      simp [hother]

/-- One call keeps the journal right. -/
theorem Faithful.after (hlogged : logged.Faithful) (call : Call) :
    (logged.after call).Faithful := by
  obtain ⟨error, hcall⟩ | hcall | ⟨key, -, hkey, hne, hcall⟩ :=
    Table.bindLogged_cases hlogged.chains call.graph call.subject call.ty
  · have hafter : logged.after call = ⟨logged.table, logged.journal ++ [.refused error]⟩ := by
      simp only [LoggedTable.after, hcall]
      rfl
    have htold : told ⟨logged.table, logged.journal ++ [.refused error]⟩ = logged.told := by
      simp [told, Entry.binding?]
    rw [hafter]
    refine ⟨hlogged.chains, ?_, htold ▸ hlogged.distinct, htold ▸ hlogged.get?_iff⟩
    refine List.forall_mem_append.mpr ⟨hlogged.entry, ?_⟩
    exact List.forall_mem_singleton.mpr (.inr ⟨error, rfl⟩)
  · have hafter : logged.after call = logged := by
      simp only [LoggedTable.after, hcall, List.append_nil]
      rfl
    rw [hafter]
    exact hlogged
  · have hafter : logged.after call =
        ⟨logged.table.insert key call.ty, logged.journal ++ [.recorded key call.ty]⟩ := by
      simp only [LoggedTable.after, hcall]
      rfl
    rw [hafter]
    exact hlogged.record hkey hne

theorem faithful_run (policy : OccursCheck) (calls : List Call) : (run policy calls).Faithful := by
  induction calls using List.reverseRecOn with
  | nil => exact faithful_withPolicy policy
  | append_singleton calls call ih =>
      rw [run, List.foldl_append]
      exact ih.after call

/-- The lines of the journal tell what the table binds. Every other line is that of a refusal. -/
theorem lines_tell_bindings (policy : OccursCheck) (calls : List Call) :
    (∀ subject ty, (run policy calls).table.get? subject = some ty ↔
      "TRACE binding " ++ subject.describe ++ " to " ++ ty.describe ∈
        (run policy calls).journal.map Entry.line) ∧
    ∀ line ∈ (run policy calls).journal.map Entry.line,
      (∃ subject ty, line =
        "TRACE binding " ++ Variable.describe subject ++ " to " ++ Ty.describe ty) ∨
      ∃ subject requested reason, line = "DEBUG rejected binding " ++
        Variable.describe subject ++ " to " ++ Ty.describe requested ++ reason := by
  have hrun := faithful_run policy calls
  refine ⟨?_, ?_⟩
  · intro subject ty
    rw [hrun.get?_iff, ← Entry.line_recorded, List.mem_map, told, List.mem_filterMap]
    simp only [Entry.binding?_eq_some_iff, Entry.line_eq_recorded_iff]
  · intro line hline
    obtain ⟨entry, hentry, rfl⟩ := List.mem_map.mp hline
    obtain ⟨key, ty, rfl⟩ | ⟨error, rfl⟩ := hrun.entry entry hentry
    · exact .inl ⟨key, ty, rfl⟩
    · exact .inr (Entry.line_refused error)

-- The second request binds the end of the chain that the first one made.
example : (run .eager [⟨∅, ⟨0⟩, .var ⟨1⟩⟩, ⟨∅, ⟨0⟩, .primitive .int⟩]).journal =
    [.recorded ⟨0⟩ (.var ⟨1⟩), .recorded ⟨1⟩ (.primitive .int)] := by cbv

end LoggedTable

end Inference
