import Inference.Proofs.Requests

/-!
# What the eager policy refuses

An eager and a shallow table with the same bindings judge a request alike, unless
the variable at the end of the chain is found inside of the requested type. There
the shallow table records the binding and the eager one refuses the request
(`judge_policies`).

If the bindings have no cycle, then those are exactly the requests whose binding
closes one (`eager_refuses_cycles`). So the eager policy lets no cycle in, and it
refuses nothing that is free of cycles and that the shallow one accepts.
-/

namespace Inference

open Relation

namespace Table

/-- The table with the same bindings and another policy. -/
def under (table : Table) (policy : OccursCheck) : Table := { table with policy }

variable {table after : Table} {graph : Graph} {policy other : OccursCheck}
  {subject key : Variable} {ty next bound replacement : Ty} {verdict : Verdict} {error : BindError}

/-! ## What does not depend on the policy -/

theorem follow_under (table : Table) (policy : OccursCheck) (steps : Nat) (ty : Ty) :
    (table.under policy).follow steps ty = table.follow steps ty := by
  induction steps generalizing ty with
  | zero => rfl
  | succ steps ih =>
      cases ty with
      | var subject =>
          simp only [follow, ih]
          rfl
      | _ => rfl

theorem walk_under (table : Table) (policy : OccursCheck) (ty : Ty) :
    (table.under policy).walk ty = table.walk ty :=
  follow_under table policy table.size ty

/-- A judgement is accepted by tables with the same bindings in the same way. -/
theorem accept_under (haccept : (table.under policy).accept verdict = .ok after) :
    (table.under other).accept verdict = .ok (after.under other) := by
  cases verdict with
  | records | holds =>
      cases haccept
      rfl
  | refuses => cases haccept

/-! ## What depends on the policy -/

/-- The eager policy sees an unbound variable exactly if bindings and branches lead to it. -/
theorem seesIn_under_eager (hchains : Acyclic table.Link) (hkey : table.get? key = none) :
    (table.under .eager).seesIn graph key (table.walk ty) = true ↔
      ReflTransGen (table.Next graph) ty (.var key) := by
  have hsame : Acyclic (table.under .eager).Link := hchains
  have hunbound : (table.under .eager).get? key = none := hkey
  refine (seesIn_iff hsame hunbound).trans ⟨fun hpath => ?_, ?_⟩
  · exact (path_of_links graph (path_walk table ty)).trans hpath
  · exact next_path_from_walk hchains (not_link_of_get?_eq_none hkey)

/-- The shallow policy sees an unbound variable exactly if the chain ends at it. -/
theorem seesIn_under_shallow (hchains : Acyclic table.Link) :
    (table.under .shallow).seesIn graph key (table.walk ty) = true ↔ table.walk ty = .var key := by
  show decide ((table.under .shallow).walk (table.walk ty) = .var key) = true ↔ _
  rw [decide_eq_true_eq, walk_under, walk_walk hchains]

theorem judge_under_of_walk_var (hwalk : table.walk (.var subject) = .var key)
    (policy : OccursCheck) :
    (table.under policy).judge graph subject ty =
      if table.walk ty = .var key ∧ key ≠ subject then .holds
      else if (table.under policy).seesIn graph key (table.walk ty) then .refuses (.cyclic key ty)
      else .records key ty := by
  rw [← walk_under table policy] at hwalk
  rw [judge_of_walk_var hwalk, walk_under]

theorem judge_under_of_walk_ne_var (hwalk : ∀ key, table.walk (.var subject) ≠ .var key)
    (policy : OccursCheck) :
    (table.under policy).judge graph subject ty =
      if table.walk (.var subject) = table.walk ty then .holds
      else .refuses (.inconsistent subject (table.walk (.var subject)) ty) := by
  rw [← walk_under table policy] at hwalk
  rw [judge_of_walk_ne_var hwalk, walk_under, walk_under]

/-- Both policies judge a request alike, or the eager one refuses it because of a path to the
variable that the shallow one binds. -/
theorem judge_policies (hchains : Acyclic table.Link) (graph : Graph) (subject : Variable)
    (ty : Ty) :
    (table.under .eager).judge graph subject ty =
        (table.under .shallow).judge graph subject ty ∨
      ∃ key, table.get? key = none ∧ ReflTransGen (table.Next graph) ty (.var key) ∧
        (table.under .eager).judge graph subject ty = .refuses (.cyclic key ty) ∧
        (table.under .shallow).judge graph subject ty = .records key ty := by
  by_cases hvar : ∃ key, table.walk (.var subject) = .var key
  · obtain ⟨key, hwalk⟩ := hvar
    have hkey := get?_of_walk hchains hwalk
    simp only [judge_under_of_walk_var hwalk]
    by_cases hholds : table.walk ty = .var key ∧ key ≠ subject
    · simp only [if_pos hholds, true_or]
    simp only [if_neg hholds]
    by_cases heager : (table.under .eager).seesIn graph key (table.walk ty)
    · by_cases hshallow : (table.under .shallow).seesIn graph key (table.walk ty)
      · simp only [if_pos heager, if_pos hshallow, true_or]
      · have hpath := (seesIn_under_eager hchains hkey).mp heager
        exact .inr ⟨key, hkey, hpath, if_pos heager, if_neg hshallow⟩
    -- The end of the chain is the first thing that the eager policy looks at.
    · have hshallow : ¬ (table.under .shallow).seesIn graph key (table.walk ty) := by
        rw [seesIn_under_shallow hchains]
        intro hend
        have hpath := path_of_links graph (path_walk table ty)
        exact heager ((seesIn_under_eager hchains hkey).mpr (hend ▸ hpath))
      simp only [if_neg heager, if_neg hshallow, true_or]
  · have hwalk := not_exists.mp hvar
    simp only [judge_under_of_walk_ne_var hwalk, true_or]

/-! ## Accepted and refused requests -/

/-- What the eager policy accepts, the shallow one accepts with the same bindings, and they have no
cycle. -/
theorem accepted_of_eager (hgraph : Acyclic graph.Child)
    (hacyclic : Acyclic (table.DependsOn graph))
    (hbind : (table.under .eager).bind graph subject ty = .ok after) :
    (table.under .shallow).bind graph subject ty = .ok (after.under .shallow) ∧
      Acyclic (after.DependsOn graph) := by
  have hnext := (acyclic_next_iff hgraph).mpr hacyclic
  have hbefore : (table.under .eager).Consistent graph := hacyclic
  have hafter := hbefore.bind hgraph hbind
  simp only [Consistent, policy_of_bind hbind, under] at hafter
  refine ⟨?_, hafter⟩
  obtain heq | ⟨key, -, -, hrefuses, -⟩ := judge_policies (acyclic_link hnext) graph subject ty
  · rw [bind, heq] at hbind
    exact accept_under hbind
  · rw [bind, hrefuses] at hbind
    cases hbind

/-- A binding for an unbound variable to which a path leads from the type makes the variable depend
on itself. -/
theorem dependsOn_self_of_path (hkey : table.get? key = none)
    (hpath : ReflTransGen (table.Next graph) ty (.var key)) :
    TransGen ((table.insert key ty).DependsOn graph) key key := by
  have hget : (table.insert key ty).get? key = some ty := by rw [get?_insert, if_pos rfl]
  have hkept : ReflTransGen ((table.insert key ty).Next graph) ty (.var key) :=
    ReflTransGen.mono (fun _ _ hstep => hstep.imp_left (link_insert hkey)) _ _ hpath
  exact dependsOn_of_path hget .refl hkept

/-- What binds an unbound variable is a binding for that variable. -/
theorem eq_of_insert_eq_insert (hkey : table.get? key = none)
    (heq : table.insert subject next = table.insert key ty) : subject = key ∧ next = ty := by
  have hget := congrArg (·.get? key) heq
  simp only [get?_insert, if_true, hkey] at hget
  split at hget
  · rename_i hsame
    exact ⟨hsame.symm, Option.some.inj hget⟩
  · cases hget

/-- What the shallow policy refuses, the eager one refuses with the same error. -/
theorem refused_of_shallow (hchains : Acyclic table.Link)
    (hbind : (table.under .shallow).bind graph subject ty = .error error) :
    (table.under .eager).bind graph subject ty = .error error := by
  rw [bind_eq_error_iff] at hbind ⊢
  obtain heq | ⟨key, -, -, -, hrecords⟩ := judge_policies hchains graph subject ty
  · exact heq.trans hbind
  · rw [hrecords] at hbind
    cases hbind

/-- A request that is inconsistent for the eager policy is so for the shallow one. -/
theorem inconsistent_of_eager (hchains : Acyclic table.Link)
    (hbind : (table.under .eager).bind graph subject ty =
      .error (.inconsistent key bound replacement)) :
    (table.under .shallow).bind graph subject ty =
      .error (.inconsistent key bound replacement) := by
  rw [bind_eq_error_iff] at hbind ⊢
  obtain heq | ⟨found, -, -, hrefuses, -⟩ := judge_policies hchains graph subject ty
  · exact heq.symm.trans hbind
  · rw [hrefuses] at hbind
    cases hbind

/-- A request that the eager policy refuses as cyclic is refused by the shallow one as well, or the
shallow one records a binding by which a variable depends on itself. -/
theorem cycle_of_refused (hchains : Acyclic table.Link)
    (hbind : (table.under .eager).bind graph subject ty = .error (.cyclic key replacement)) :
    (table.under .shallow).bind graph subject ty = .error (.cyclic key replacement) ∨
      table.get? key = none ∧
      (table.under .shallow).bind graph subject ty =
        .ok ((table.under .shallow).insert key replacement) ∧
      TransGen (((table.under .shallow).insert key replacement).DependsOn graph) key key := by
  rw [bind_eq_error_iff] at hbind
  obtain heq | ⟨found, hkey, hpath, hrefuses, hrecords⟩ := judge_policies hchains graph subject ty
  · exact .inl (bind_eq_error_iff.mpr (heq ▸ hbind))
  · rw [hrefuses] at hbind
    cases hbind
    refine .inr ⟨hkey, ?_, dependsOn_self_of_path hkey hpath⟩
    rw [bind, hrecords]
    rfl

/-- A binding that the shallow policy records and by which a variable depends on itself is refused by
the eager policy. -/
theorem refused_of_cycle (hgraph : Acyclic graph.Child) (hacyclic : Acyclic (table.DependsOn graph))
    (hkey : table.get? key = none)
    (hbind : (table.under .shallow).bind graph subject ty =
      .ok ((table.under .shallow).insert key replacement))
    (hcycle : TransGen (((table.under .shallow).insert key replacement).DependsOn graph) key key) :
    (table.under .eager).bind graph subject ty = .error (.cyclic key replacement) := by
  have hchains := acyclic_link ((acyclic_next_iff hgraph).mpr hacyclic)
  obtain heq | ⟨found, -, -, hrefuses, hrecords⟩ := judge_policies hchains graph subject ty
  -- What both policies record closes no cycle.
  · have heager : (table.under .eager).bind graph subject ty =
        .ok (((table.under .shallow).insert key replacement).under .eager) := by
      rw [bind, heq]
      exact accept_under hbind
    exact absurd hcycle ((accepted_of_eager hgraph hacyclic heager).2 key)
  · rw [bind, hrecords] at hbind
    have hunbound : (table.under .shallow).get? key = none := hkey
    obtain ⟨rfl, rfl⟩ := eq_of_insert_eq_insert hunbound (Except.ok.inj hbind)
    exact bind_eq_error_iff.mpr hrefuses

/-- Let the bindings of a table have no cycle. What the eager policy accepts, the shallow one accepts
with the same bindings, and they have no cycle. The policies refuse the same requests as inconsistent.
The eager policy refuses a request as cyclic exactly if the shallow one does so too, or records a
binding by which a variable depends on itself. -/
theorem eager_refuses_cycles (hreached : graph.Reached) (hacyclic : Acyclic (table.DependsOn graph))
    (subject : Variable) (ty : Ty) :
    (∀ after, (table.under .eager).bind graph subject ty = .ok after →
      (table.under .shallow).bind graph subject ty = .ok (after.under .shallow) ∧
      Acyclic (after.DependsOn graph)) ∧
    (∀ found bound requested,
      (table.under .eager).bind graph subject ty = .error (.inconsistent found bound requested) ↔
      (table.under .shallow).bind graph subject ty =
        .error (.inconsistent found bound requested)) ∧
    ∀ key replacement,
      (table.under .eager).bind graph subject ty = .error (.cyclic key replacement) ↔
      (table.under .shallow).bind graph subject ty = .error (.cyclic key replacement) ∨
      table.get? key = none ∧
      (table.under .shallow).bind graph subject ty =
        .ok ((table.under .shallow).insert key replacement) ∧
      TransGen (((table.under .shallow).insert key replacement).DependsOn graph) key key := by
  have hgraph := hreached.wellFormed.acyclic
  have hchains := acyclic_link ((acyclic_next_iff hgraph).mpr hacyclic)
  refine ⟨fun _ => accepted_of_eager hgraph hacyclic, ?_, ?_⟩
  · intro found bound requested
    exact ⟨inconsistent_of_eager hchains, refused_of_shallow hchains⟩
  · intro key replacement
    refine ⟨cycle_of_refused hchains, ?_⟩
    rintro (hrefused | ⟨hkey, hrecorded, hcycle⟩)
    · exact refused_of_shallow hchains hrefused
    · exact refused_of_cycle hgraph hacyclic hkey hrecorded hcycle

/-- The variable occurs in a function that the union has as a case. -/
theorem eager_refuses_cycles_looped :
    (chained.under .eager).bind .looped ⟨1⟩ (.union 0) = .error (.cyclic ⟨1⟩ (.union 0)) ∧
    (chained.under .shallow).bind .looped ⟨1⟩ (.union 0) =
      .ok ((chained.under .shallow).insert ⟨1⟩ (.union 0)) ∧
    TransGen (((chained.under .shallow).insert ⟨1⟩ (.union 0)).DependsOn .looped) ⟨1⟩ ⟨1⟩ := by
  have hacyclic : Acyclic (chained.DependsOn .looped) :=
    (Session.reached_chained.sound.tables chained List.mem_cons_self).acyclic
  have hrefused : (chained.under .eager).bind .looped ⟨1⟩ (.union 0) =
      .error (.cyclic ⟨1⟩ (.union 0)) := by cbv
  have hrecorded : (chained.under .shallow).bind .looped ⟨1⟩ (.union 0) =
      .ok ((chained.under .shallow).insert ⟨1⟩ (.union 0)) := by cbv
  have hpolicies := (eager_refuses_cycles Graph.reached_looped hacyclic ⟨1⟩ (.union 0)).2.2
  obtain hshallow | ⟨-, -, hcycle⟩ := (hpolicies ⟨1⟩ (.union 0)).mp hrefused
  · rw [hrecorded] at hshallow
    cases hshallow
  · exact ⟨hrefused, hrecorded, hcycle⟩

end Table

end Inference
