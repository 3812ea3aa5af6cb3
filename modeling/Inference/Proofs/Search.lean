import Inference.Occurrence
import Inference.Proofs.Dependence

/-!
# The search for a variable

The search opens every branch at most once for all pending types. It finds an
unbound variable exactly if a path of bindings and branches leads to it
(`occursIn_iff`), on every graph, as long as no chain of bindings is a cycle: a
shortest way to the variable from an opened branch does not come back to it.
-/

namespace Inference

open Relation

namespace Table

/-- The step along a binding, or from one of the listed branches to a child. -/
def NextWithin (table : Table) (graph : Graph) (unopened : List Ty) (ty next : Ty) : Prop :=
  table.Link ty next ∨ ty ∈ unopened ∧ graph.Child ty next

variable {table : Table} {graph : Graph} {subject : Variable} {unopened wider : List Ty}
  {ty child : Ty}

theorem NextWithin.mono (hwider : ∀ ty ∈ unopened, ty ∈ wider) {next : Ty}
    (hstep : table.NextWithin graph unopened ty next) : table.NextWithin graph wider ty next :=
  hstep.imp_right fun h => ⟨hwider ty h.1, h.2⟩

theorem path_of_links_within (unopened : List Ty) {next : Ty}
    (hpath : ReflTransGen table.Link ty next) :
    ReflTransGen (table.NextWithin graph unopened) ty next :=
  ReflTransGen.mono (fun _ _ => Or.inl) _ _ hpath

/-- A path to an unbound variable first follows the chain of bindings to its end. Then it is there,
or it opens a branch. -/
theorem path_within_cases (hchains : Acyclic table.Link) (hunbound : table.get? subject = none)
    (hpath : ReflTransGen (table.NextWithin graph unopened) ty (.var subject)) :
    table.walk ty = .var subject ∨ table.walk ty ∈ unopened ∧
      ∃ child ∈ graph.children (table.walk ty),
        ReflTransGen (table.NextWithin graph unopened) child (.var subject) := by
  have hfrom := path_from_walk hchains
    (fun hstep => hstep.imp_right fun hchild => not_link_of_child hchild.2)
    (not_link_of_get?_eq_none hunbound) hpath
  obtain heq | ⟨child, hlink | ⟨hin, hchild⟩, hrest⟩ := hfrom.cases_head
  · exact .inl heq
  · exact absurd hlink ((ends_walk hchains ty).2 child)
  · exact .inr ⟨hin, child, hchild, hrest⟩

/-- A path either does without opening a branch, or it does so from some child of the branch on:
after its last visit it does not come back. -/
theorem path_erase {opened start last : Ty} (hend : ∀ next, ¬ table.Link opened next)
    (hpath : ReflTransGen (table.NextWithin graph unopened) start last) :
    ReflTransGen (table.NextWithin graph (unopened.erase opened)) start last ∨
      ∃ next ∈ graph.children opened,
        ReflTransGen (table.NextWithin graph (unopened.erase opened)) next last := by
  have herase : ∀ left right, table.NextWithin graph unopened left right ∧ left ≠ opened →
      table.NextWithin graph (unopened.erase opened) left right := by
    intro left right h
    exact h.1.imp_right fun hopen => ⟨(List.mem_erase_of_ne h.2).mpr hopen.1, hopen.2⟩
  obtain havoiding | ⟨next, hlink | ⟨-, hchild⟩, hnext⟩ := path_avoiding opened hpath
  · exact .inl (ReflTransGen.mono herase _ _ havoiding)
  · exact absurd hlink (hend next)
  · exact .inr ⟨next, hchild, ReflTransGen.mono herase _ _ hnext⟩

/-- The search finds an unbound variable exactly if a path that opens unopened branches only leads
to it from a pending type. -/
theorem occursFrom_iff (hchains : Acyclic table.Link) (hunbound : table.get? subject = none)
    (unopened pending : List Ty) :
    table.occursFrom graph subject unopened pending = true ↔
      ∃ ty ∈ pending, ReflTransGen (table.NextWithin graph unopened) ty (.var subject) := by
  fun_induction table.occursFrom graph subject unopened pending with
  | case1 => simp
  | case2 unopened ty pending reached hreached =>
      simp only [List.mem_cons, true_iff]
      refine ⟨ty, .inl rfl, path_of_links_within unopened ?_⟩
      rw [← hreached]
      exact path_walk table ty
  | case3 unopened ty pending reached hreached hin ih =>
      rw [ih]
      have hend := (ends_walk hchains ty).2
      constructor
      · intro h
        obtain ⟨start, hstart, hpath⟩ := h
        have hpath := ReflTransGen.mono
          (fun _ _ => NextWithin.mono fun _ => List.mem_of_mem_erase) _ _ hpath
        rcases List.mem_append.mp hstart with hchild | hpending
        · refine ⟨ty, List.mem_cons_self, ?_⟩
          exact (path_of_links_within unopened (path_walk table ty)).trans
            (.head (.inr ⟨hin, hchild⟩) hpath)
        · exact ⟨start, List.mem_cons_of_mem ty hpending, hpath⟩
      · intro h
        obtain ⟨start, hstart, hpath⟩ := h
        have hfrom : ∃ start ∈ graph.children reached ++ pending,
            ReflTransGen (table.NextWithin graph unopened) start (.var subject) := by
          rcases List.mem_cons.mp hstart with rfl | hpending
          · obtain heq | ⟨-, child, hchild, hrest⟩ := path_within_cases hchains hunbound hpath
            · exact absurd heq hreached
            · exact ⟨child, List.mem_append_left _ hchild, hrest⟩
          · exact ⟨start, List.mem_append_right _ hpending, hpath⟩
        -- A path that comes back to the opened branch is replaced by its end after the last visit.
        obtain ⟨start, hstart, hpath⟩ := hfrom
        rcases path_erase hend hpath with havoiding | ⟨next, hchild, hnext⟩
        · exact ⟨start, hstart, havoiding⟩
        · exact ⟨next, List.mem_append_left _ hchild, hnext⟩
  | case4 unopened ty pending reached hreached hnotin ih =>
      rw [ih]
      constructor
      · intro h
        obtain ⟨start, hpending, hpath⟩ := h
        exact ⟨start, List.mem_cons_of_mem ty hpending, hpath⟩
      · intro h
        obtain ⟨start, hstart, hpath⟩ := h
        rcases List.mem_cons.mp hstart with rfl | hpending
        · obtain heq | ⟨hin, -⟩ := path_within_cases hchains hunbound hpath
          · exact absurd heq hreached
          · exact absurd hin hnotin
        · exact ⟨start, hpending, hpath⟩

/-- The search for an unbound variable finds it exactly if a path of bindings and branches leads
to it. -/
theorem occursIn_iff (hchains : Acyclic table.Link) (hunbound : table.get? subject = none) :
    table.occursIn graph subject ty = true ↔ ReflTransGen (table.Next graph) ty (.var subject) := by
  have hall : table.NextWithin graph graph.branches = table.Next graph := by
    funext left right
    refine propext (or_congr_right ⟨fun h => h.2, fun hchild => ⟨?_, hchild⟩⟩)
    obtain ⟨branch, hbranch, -⟩ := Graph.mem_children_iff.mp hchild
    exact Graph.mem_branches_iff.mpr (Option.isSome_of_eq_some hbranch)
  simp [occursIn, occursFrom_iff hchains hunbound, hall]

/-! ## Both policies -/

/-- The step along which the policy of the table looks for a variable. The shallow policy follows
bindings alone. -/
def Sees (table : Table) (graph : Graph) : Ty → Ty → Prop :=
  match table.policy with
  | .eager => table.Next graph
  | .shallow => table.Link

theorem sees_eq_next (heager : table.policy = .eager) : table.Sees graph = table.Next graph := by
  simp only [Sees, heager]

theorem sees_eq_link (hshallow : table.policy = .shallow) : table.Sees graph = table.Link := by
  simp only [Sees, hshallow]

/-- Both policies follow bindings. -/
theorem sees_of_link {next : Ty} (hlink : table.Link ty next) : table.Sees graph ty next := by
  cases hpolicy : table.policy with
  | eager => exact sees_eq_next hpolicy ▸ .inl hlink
  | shallow => exact sees_eq_link hpolicy ▸ hlink

/-- A step that is seen is a link, or it starts where there is none. -/
theorem link_of_sees {next : Ty} (hsees : table.Sees graph ty next) :
    table.Link ty next ∨ ∀ other, ¬ table.Link ty other := by
  cases hpolicy : table.policy with
  | eager =>
      rw [sees_eq_next hpolicy] at hsees
      exact hsees.imp_right not_link_of_child
  | shallow =>
      rw [sees_eq_link hpolicy] at hsees
      exact .inl hsees

theorem next_of_sees {next : Ty} (hsees : table.Sees graph ty next) : table.Next graph ty next := by
  cases hpolicy : table.policy with
  | eager => exact sees_eq_next hpolicy ▸ hsees
  | shallow => exact .inl (sees_eq_link hpolicy ▸ hsees)

/-- The search of either policy for an unbound variable finds it exactly if a path that the policy
sees leads to it. -/
theorem seesIn_iff (hchains : Acyclic table.Link) (hunbound : table.get? subject = none) :
    table.seesIn graph subject ty = true ↔ ReflTransGen (table.Sees graph) ty (.var subject) := by
  cases hpolicy : table.policy with
  | eager => rw [sees_eq_next hpolicy, seesIn, hpolicy, occursIn_iff hchains hunbound]
  | shallow =>
      simp only [sees_eq_link hpolicy, seesIn, hpolicy, decide_eq_true_eq,
        walk_eq_iff_ends hchains]
      exact and_iff_left (not_link_of_get?_eq_none hunbound)

/-- From handles of the smaller graph, the paths that the policy sees are the same in the larger
one. -/
theorem sees_path_iff {before after : Graph} {last : Ty} (hfits : table.Fits before)
    (hbefore : before.WellFormed) (hgrows : before.Grows after) (hholds : before.Holds ty) :
    ReflTransGen (table.Sees after) ty last ↔ ReflTransGen (table.Sees before) ty last := by
  refine path_iff_of_step_iff ?_ ?_ hholds
  · intro left right hleft
    cases hpolicy : table.policy with
    | eager => rw [sees_eq_next hpolicy, sees_eq_next hpolicy, Next, Next, hgrows.child_iff hleft]
    | shallow => rw [sees_eq_link hpolicy, sees_eq_link hpolicy]
  · intro left right hleft hsees
    exact holds_of_path hfits hbefore hleft (.single (next_of_sees hsees))

/-- The search for an unbound variable in a handle of the smaller graph finds the same in the larger
one. -/
theorem seesIn_of_grows {before after : Graph} (hfits : table.Fits before)
    (hbefore : before.WellFormed) (hgrows : before.Grows after) (hchains : Acyclic table.Link)
    (hunbound : table.get? subject = none) (hholds : before.Holds ty) :
    table.seesIn after subject ty = table.seesIn before subject ty := by
  rw [Bool.eq_iff_iff, seesIn_iff hchains hunbound, seesIn_iff hchains hunbound,
    sees_path_iff hfits hbefore hgrows hholds]

/-- A new binding for an unbound variable adds one step to those that are seen. -/
theorem sees_insert_iff {key : Variable} {bound next : Ty} (hkey : table.get? key = none) :
    (table.insert key bound).Sees graph ty next ↔
      table.Sees graph ty next ∨ ty = .var key ∧ next = bound := by
  have hlink : (table.insert key bound).Link ty next ↔
      table.Link ty next ∨ ty = .var key ∧ next = bound := by
    refine ⟨link_insert_cases, ?_⟩
    rintro (hlink | ⟨rfl, rfl⟩)
    · exact link_insert hkey hlink
    · rw [link_var_iff, get?_insert, if_pos rfl]
  have hsame : (table.insert key bound).policy = table.policy := rfl
  cases hpolicy : table.policy with
  | eager =>
      rw [sees_eq_next (hsame.trans hpolicy), sees_eq_next hpolicy, Next, Next, hlink, or_right_comm]
  | shallow => rw [sees_eq_link (hsame.trans hpolicy), sees_eq_link hpolicy, hlink]

end Table

end Inference
