import Inference.Proofs.Histories

/-!
# Decisions on requests

What becomes of a request is decided by the ends of two chains, the one of the
variable and the one of the requested type. If the variable stands for something
else than a variable, the ends are compared (`bind_of_walk_ne_var`). If both chains
end at one unbound variable, there is nothing to record (`bind_of_meet`). Otherwise
the policy has to look for the variable in the requested type (`bind_of_apart`).

`requests_are_decided` is the whole table. It needs chains that end and nothing
else: bindings and branches may run in circles, and handles may name no node. The
search opens a branch once and is still right, because what it would find on a
later visit it finds from the first one.
-/

namespace Inference

open Relation

namespace Table

variable {table : Table} {graph : Graph} {subject key : Variable} {ty : Ty}

/-- The ends of the chains are compared if the variable stands for no variable. -/
theorem bind_of_walk_ne_var (hwalk : ∀ key, table.walk (.var subject) ≠ .var key) :
    table.bind graph subject ty =
      if table.walk (.var subject) = table.walk ty then .ok table
      else .error (.inconsistent subject (table.walk (.var subject)) ty) := by
  rw [bind, judge_of_walk_ne_var hwalk]
  split
  · rfl
  · rfl

/-- A request that one unbound variable stand for itself is refused if that variable is the one
requested, and holds if it is only where both chains end. -/
theorem bind_of_meet (hchains : Acyclic table.Link)
    (hwalk : table.walk (.var subject) = .var key) (hmeet : table.walk ty = .var key) :
    table.bind graph subject ty =
      if key = subject then .error (.cyclic key ty) else .ok table := by
  have hkey := get?_of_walk hchains hwalk
  have hseen : table.seesIn graph key (table.walk ty) = true :=
    (seesIn_iff hchains hkey).mpr (hmeet ▸ .refl)
  rw [bind, judge_of_walk_var hwalk, if_pos hseen]
  by_cases heq : key = subject
  · rw [if_neg fun h => h.2 heq, if_pos heq]
    rfl
  · rw [if_pos ⟨hmeet, heq⟩, if_neg heq]
    rfl

/-- The search decides if the chain of the type does not end at the unbound variable. -/
theorem bind_of_apart (hwalk : table.walk (.var subject) = .var key)
    (hapart : table.walk ty ≠ .var key) :
    table.bind graph subject ty =
      if table.seesIn graph key (table.walk ty) then .error (.cyclic key ty)
      else .ok (table.insert key ty) := by
  rw [bind, judge_of_walk_var hwalk, if_neg fun h => hapart h.1]
  split
  · rfl
  · rfl

/-- The shallow policy records whatever does not end at the variable itself. -/
theorem bind_shallow (hchains : Acyclic table.Link) (hshallow : table.policy = .shallow)
    (hwalk : table.walk (.var subject) = .var key) (hapart : table.walk ty ≠ .var key) :
    table.bind graph subject ty = .ok (table.insert key ty) := by
  have hunseen : ¬ table.seesIn graph key (table.walk ty) := by
    simp only [seesIn, hshallow, walk_walk hchains, decide_eq_true_eq]
    exact hapart
  rw [bind_of_apart hwalk hapart, if_neg hunseen]

/-- The eager policy records what no path of bindings and branches leads from to the variable. -/
theorem bind_eager (hchains : Acyclic table.Link) (heager : table.policy = .eager)
    (hwalk : table.walk (.var subject) = .var key) (hapart : table.walk ty ≠ .var key) :
    (table.bind graph subject ty = .error (.cyclic key ty) ↔
      ReflTransGen (table.Next graph) (table.walk ty) (.var key)) ∧
    (table.bind graph subject ty = .ok (table.insert key ty) ↔
      ¬ ReflTransGen (table.Next graph) (table.walk ty) (.var key)) := by
  have hkey := get?_of_walk hchains hwalk
  have hseen : table.seesIn graph key (table.walk ty) = true ↔
      ReflTransGen (table.Sees graph) (table.walk ty) (.var key) := seesIn_iff hchains hkey
  rw [sees_eq_next heager] at hseen
  rw [bind_of_apart hwalk hapart, ← hseen]
  cases table.seesIn graph key (table.walk ty) <;> simp

/-- Let no chain of bindings return to its start. Then all chains end where walking ends, and a
request is decided by the ends of the chain of the variable and of the chain of the type. If the
first one is no variable, the request is accepted if the ends are equal, and inconsistent otherwise.
If both are one unbound variable, it is refused if that is the requested variable, and accepted
otherwise. If the first one is a variable and the second one is something else, the shallow policy
records the type as requested, and so does the eager one, unless bindings and branches lead from the
second end to the variable; then it refuses the request. Only a recorded binding changes what the
table binds, and it changes nothing else. -/
theorem requests_are_decided (hchains : Acyclic table.Link) (graph : Graph) (subject : Variable)
    (ty : Ty) :
    (∀ start, table.Ends start (table.walk start)) ∧
    ((∀ key, table.walk (.var subject) ≠ .var key) →
      (table.bind graph subject ty = .ok table ↔ table.walk (.var subject) = table.walk ty) ∧
      (table.bind graph subject ty =
          .error (.inconsistent subject (table.walk (.var subject)) ty) ↔
        table.walk (.var subject) ≠ table.walk ty)) ∧
    (∀ key, table.walk (.var subject) = .var key → table.walk ty = .var key →
      (table.bind graph subject ty = .ok table ↔ key ≠ subject) ∧
      (table.bind graph subject ty = .error (.cyclic key ty) ↔ key = subject)) ∧
    (∀ key, table.walk (.var subject) = .var key → table.walk ty ≠ .var key →
      (table.policy = .shallow → table.bind graph subject ty = .ok (table.insert key ty)) ∧
      (table.policy = .eager →
        (table.bind graph subject ty = .error (.cyclic key ty) ↔
          ReflTransGen (table.Next graph) (table.walk ty) (.var key)) ∧
        (table.bind graph subject ty = .ok (table.insert key ty) ↔
          ¬ ReflTransGen (table.Next graph) (table.walk ty) (.var key)))) ∧
    (table.afterRequest graph (subject, ty) = table ∨
      ∃ key, table.walk (.var subject) = .var key ∧ table.get? key = none ∧
        table.bind graph subject ty = .ok (table.afterRequest graph (subject, ty)) ∧
        ∀ other, (table.afterRequest graph (subject, ty)).get? other =
          if other = key then some ty else table.get? other) := by
  refine ⟨ends_walk hchains, ?_, ?_, ?_, ?_⟩
  · intro hwalk
    rw [bind_of_walk_ne_var hwalk]
    split
    · rename_i heq
      simp [heq]
    · rename_i hne
      simp [hne]
  · intro key hwalk hmeet
    rw [bind_of_meet hchains hwalk hmeet]
    split
    · rename_i heq
      simp [heq]
    · rename_i hne
      simp [hne]
  · intro key hwalk hapart
    exact ⟨fun hshallow => bind_shallow hchains hshallow hwalk hapart,
      fun heager => bind_eager hchains heager hwalk hapart⟩
  · unfold afterRequest
    split
    · rename_i after hbind
      obtain rfl | ⟨key, hwalk, -, rfl⟩ := bind_cases hbind
      · exact .inl rfl
      · exact .inr ⟨key, hwalk, get?_of_walk hchains hwalk, hbind,
          fun other => get?_insert table key other ty⟩
    · exact .inl rfl

end Table

/-- A function that contains itself and a union that is not there, a function from that one to a
variable, and a union of the second function with the metatype of another variable. -/
def Graph.tangled : Graph where
  functions := ⟨#[⟨.function 0, .union 9⟩, ⟨.function 0, .var ⟨2⟩⟩]⟩
  unions := ⟨#[⟨.ofList [.function 1, .metatype 0]⟩]⟩
  metatypes := ⟨#[⟨.var ⟨0⟩⟩]⟩
  tuples := ∅
  nameds := ∅

namespace Table

/-- The bindings by which variable 2 is in the function that it stands for, and variable 0 stands
for variable 1. -/
def tangled : Table := ofList [(⟨0⟩, .var ⟨1⟩), (⟨2⟩, .function 1)]

/-- The variable is found behind two circles, and it is not in them. -/
theorem requests_are_decided_tangled :
    TransGen (tangled.DependsOn .tangled) ⟨2⟩ ⟨2⟩ ∧
    tangled.bind .tangled ⟨0⟩ (.union 0) = .error (.cyclic ⟨1⟩ (.union 0)) ∧
    ¬ ReflTransGen (tangled.Next .tangled) (.function 1) (.var ⟨1⟩) := by
  have hlinked : Acyclic (ofList [(⟨0⟩, .var ⟨1⟩)]).Link :=
    acyclic_link_insert (acyclic_link_withPolicy .eager) rfl (by decide)
  have hchains : Acyclic tangled.Link := acyclic_link_insert hlinked rfl (by decide)
  have hwalk : tangled.walk (.var ⟨0⟩) = .var ⟨1⟩ := by decide
  have hdecided := fun ty => (requests_are_decided hchains .tangled ⟨0⟩ ty).2.2.2.1 ⟨1⟩ hwalk
  have hcircle : tangled.DependsOn .tangled ⟨2⟩ ⟨2⟩ :=
    ⟨.function 1, rfl, .single (show Ty.var ⟨2⟩ ∈ Graph.tangled.children (.function 1) by decide)⟩
  have hpath : ReflTransGen (tangled.Next .tangled) (.union 0) (.var ⟨1⟩) :=
    .head (.inr (show Ty.metatype 0 ∈ Graph.tangled.children (.union 0) by decide))
      (.head (.inr (show Ty.var ⟨0⟩ ∈ Graph.tangled.children (.metatype 0) by decide))
        (.single (.inl (link_var_iff.mpr rfl))))
  have hrecorded : tangled.bind .tangled ⟨0⟩ (.function 1) =
      .ok (tangled.insert ⟨1⟩ (.function 1)) := by cbv
  exact ⟨.single hcircle, (((hdecided (.union 0)) (by decide)).2 rfl).1.mpr hpath,
    (((hdecided (.function 1)) (by decide)).2 rfl).2.mp hrecorded⟩

end Table

end Inference
