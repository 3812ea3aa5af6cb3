import Inference.Proofs.Session

/-!
# Requests one after the other

Requests for distinct unbound variables are all accepted exactly if the table with
all of the requested bindings has no cycle (`bindAll_eq_ok_iff`). Each search runs
in another table, but what they find together does not mention the order in which
they ran, so the order of the requests does not matter (`bindAll_in_any_order`).
-/

namespace Inference

open Relation

namespace Table

/-- Make requests one after the other, up to the first one that is refused. -/
def bindAll (table : Table) (graph : Graph) (requests : List (Variable × Ty)) :
    Except BindError Table :=
  requests.foldlM (fun table request => table.bind graph request.1 request.2) table

/-- The table after a request. A refusal comes without a table, and the one before it stays. -/
def afterRequest (table : Table) (graph : Graph) (request : Variable × Ty) : Table :=
  match table.bind graph request.1 request.2 with
  | .ok after => after
  | .error _ => table

/-- The table after requests one after the other, of which any may be refused. -/
def bindEach (table : Table) (graph : Graph) (requests : List (Variable × Ty)) : Table :=
  requests.foldl (fun table request => table.afterRequest graph request) table

/-- Record bindings one after the other. -/
def insertAll (table : Table) (listed : List (Variable × Ty)) : Table :=
  listed.foldl (fun table entry => table.insert entry.1 entry.2) table

/-- No variable depends on itself as far as the policy looks, which is along chains of bindings
alone for the shallow policy. -/
def Consistent (table : Table) (graph : Graph) : Prop :=
  match table.policy with
  | .eager => Acyclic (table.DependsOn graph)
  | .shallow => Acyclic table.Link

/-- The listed variables are distinct, and the table binds none of them. -/
structure Unbound (table : Table) (listed : List (Variable × Ty)) : Prop where
  distinct : (listed.map (·.1)).Nodup
  get?_eq : ∀ entry ∈ listed, table.get? entry.1 = none

variable {table after : Table} {graph : Graph} {subject other : Variable} {ty bound next : Ty}
  {entry : Variable × Ty} {listed order requests : List (Variable × Ty)}

theorem consistent_iff (hgraph : Acyclic graph.Child) :
    table.Consistent graph ↔ Acyclic (table.Sees graph) := by
  unfold Consistent
  cases hpolicy : table.policy with
  | eager => rw [sees_eq_next hpolicy, acyclic_next_iff hgraph]
  | shallow => rw [sees_eq_link hpolicy]

/-! ## Recording bindings -/

/-- The bindings for two variables are recorded in either order. -/
theorem insert_comm (hne : subject ≠ other) :
    (table.insert subject ty).insert other bound =
      (table.insert other bound).insert subject ty := by
  refine congrArg (fun bindings => { table with bindings }) (Bindings.ext ?_)
  intro key
  simp only [insert, Bindings.get?_insert]
  split
  · rename_i heq
    rw [heq, if_neg (Ne.symm hne)]
  · rfl

/-- Bindings for distinct variables are recorded in any order. -/
theorem insertAll_of_perm (hdistinct : (listed.map (·.1)).Nodup) (horder : order.Perm listed) :
    table.insertAll order = table.insertAll listed := by
  refine (horder.symm.foldl_eq' ?_ table).symm
  intro first hfirst second hsecond reached
  by_cases heq : first.1 = second.1
  · rw [List.inj_on_of_nodup_map hdistinct hfirst hsecond heq]
  · exact insert_comm heq

/-- Once the first of them is bound, the other variables are still unbound. -/
theorem Unbound.tail (hunbound : table.Unbound (entry :: listed)) :
    (table.insert entry.1 entry.2).Unbound listed := by
  obtain ⟨hfresh, hdistinct⟩ := List.nodup_cons.mp hunbound.distinct
  refine ⟨hdistinct, ?_⟩
  intro later hlater
  rw [get?_insert, if_neg]
  · exact hunbound.get?_eq later (List.mem_cons_of_mem entry hlater)
  · intro heq
    exact hfresh (List.mem_map.mpr ⟨later, hlater, heq⟩)

theorem Unbound.of_perm (hunbound : table.Unbound listed) (horder : order.Perm listed) :
    table.Unbound order where
  distinct := ((horder.map (·.1)).nodup_iff).mpr hunbound.distinct
  get?_eq later hlater := hunbound.get?_eq later (horder.mem_iff.mp hlater)

/-- Bindings for unbound variables leave what is seen as it is. -/
theorem Unbound.sees (hunbound : table.Unbound listed) (hsees : table.Sees graph ty next) :
    (table.insertAll listed).Sees graph ty next := by
  induction listed generalizing table with
  | nil => exact hsees
  | cons entry listed ih =>
      have hkey := hunbound.get?_eq entry List.mem_cons_self
      exact ih hunbound.tail ((sees_insert_iff hkey).mpr (.inl hsees))

/-! ## Making requests -/

/-- A request for an unbound variable records a binding, unless the variable is seen in the
requested type. -/
theorem bind_of_unbound (hunbound : table.get? subject = none) :
    table.bind graph subject ty =
      if table.seesIn graph subject (table.walk ty) then .error (.cyclic subject ty)
      else .ok (table.insert subject ty) := by
  have hwalk : table.walk (.var subject) = .var subject :=
    walk_of_not_link (not_link_of_get?_eq_none hunbound)
  rw [bind, judge_of_walk_var hwalk, if_neg fun h => h.2 rfl]
  split
  · rfl
  · rfl

/-- A request that is accepted closes no cycle that the policy sees. -/
theorem Consistent.bind (hconsistent : table.Consistent graph) (hgraph : Acyclic graph.Child)
    (hbind : table.bind graph subject ty = .ok after) : after.Consistent graph := by
  rw [consistent_iff hgraph] at hconsistent ⊢
  obtain rfl | ⟨key, hwalk, hseen, rfl⟩ := bind_cases hbind
  · exact hconsistent
  · have hkey := get?_of_walk (hconsistent.mono sees_of_link) hwalk
    exact (acyclic_insert_iff hconsistent hkey).mpr hseen

/-- What requests that are accepted keep holds after requests of which any may be refused. -/
theorem bindEach_induction {motive : Table → Prop}
    (hbind : ∀ {table after request}, request ∈ requests → motive table →
      table.bind graph request.1 request.2 = .ok after → motive after)
    (hstart : motive table) : motive (table.bindEach graph requests) := by
  induction requests generalizing table with
  | nil => exact hstart
  | cons request requests ih =>
      have hnext : motive (table.afterRequest graph request) := by
        unfold afterRequest
        split
        · rename_i after haccepted
          exact hbind List.mem_cons_self hstart haccepted
        · exact hstart
      exact ih (fun hlater => hbind (List.mem_cons_of_mem request hlater)) hnext

theorem Sound.bindEach (hsound : table.Sound graph) (hgraph : graph.WellFormed)
    (hrequests : ∀ request ∈ requests, graph.Holds request.2) :
    (table.bindEach graph requests).Sound graph :=
  bindEach_induction (motive := fun later => later.Sound graph)
    (fun hrequest hsound hbind => hsound.bind hgraph (hrequests _ hrequest) hbind) hsound

/-- Requests for unbound variables are accepted exactly if the table with all of the requested
bindings has no cycle that the policy sees. That is the table they lead to. -/
theorem bindAll_eq_ok_iff (hsees : Acyclic (table.Sees graph)) (hunbound : table.Unbound requests) :
    table.bindAll graph requests = .ok after ↔
      table.insertAll requests = after ∧ Acyclic (after.Sees graph) := by
  induction requests generalizing table with
  | nil =>
      simp only [bindAll, insertAll, List.foldlM_nil, List.foldl_nil, pure, Except.pure,
        Except.ok.injEq]
      exact ⟨fun heq => ⟨heq, heq ▸ hsees⟩, And.left⟩
  | cons request requests ih =>
      have hkey := hunbound.get?_eq request List.mem_cons_self
      have hinsert : Acyclic ((table.insert request.1 request.2).Sees graph) ↔
          table.seesIn graph request.1 (table.walk request.2) = false :=
        acyclic_insert_iff hsees hkey
      simp only [bindAll, insertAll, List.foldlM_cons, List.foldl_cons, bind_of_unbound hkey]
      cases hseen : table.seesIn graph request.1 (table.walk request.2) with
      | false => exact ih (hinsert.mpr hseen) hunbound.tail
      | true =>
          constructor
          · intro h
            cases h
          · rintro ⟨rfl, hacyclic⟩
            -- A cycle is not broken by the bindings that are recorded after it.
            have hearlier : Acyclic ((table.insert request.1 request.2).Sees graph) :=
              hacyclic.mono hunbound.tail.sees
            rw [hinsert, hseen] at hearlier
            cases hearlier

/-- If requests for distinct unbound variables are all accepted in one order, then they are accepted
in any other order, and they lead to the same table. -/
theorem bindAll_in_any_order (hreached : graph.Reached) (hconsistent : table.Consistent graph)
    (hdistinct : (requests.map (·.1)).Nodup)
    (hunbound : ∀ request ∈ requests, table.get? request.1 = none)
    (horder : order.Perm requests) (after : Table) :
    table.bindAll graph order = .ok after ↔ table.bindAll graph requests = .ok after := by
  have hsees := (consistent_iff hreached.wellFormed.acyclic).mp hconsistent
  have hrequests : table.Unbound requests := ⟨hdistinct, hunbound⟩
  rw [bindAll_eq_ok_iff hsees hrequests, bindAll_eq_ok_iff hsees (hrequests.of_perm horder),
    insertAll_of_perm hdistinct horder]

theorem bindAll_in_any_order_looped :
    chained.bindAll .looped [(⟨0⟩, .tuple 0), (⟨3⟩, .function 0), (⟨1⟩, .primitive .int)] =
      .ok looped ∧
    chained.bindAll .looped [(⟨1⟩, .primitive .int), (⟨3⟩, .function 0), (⟨0⟩, .tuple 0)] =
      .ok looped := by
  have hconsistent : chained.Consistent .looped :=
    (Session.reached_chained.sound.tables chained List.mem_cons_self).acyclic
  have haccepted : chained.bindAll .looped
      [(⟨0⟩, .tuple 0), (⟨3⟩, .function 0), (⟨1⟩, .primitive .int)] = .ok looped := by cbv
  exact ⟨haccepted, (bindAll_in_any_order Graph.reached_looped hconsistent (by decide)
    (by decide) (List.reverse_perm _) looped).mpr haccepted⟩

-- Two variables that are to stand for each other are refused at the second request.
example : [[(⟨0⟩, .var ⟨1⟩), (⟨1⟩, .var ⟨0⟩)], [(⟨1⟩, .var ⟨0⟩), (⟨0⟩, .var ⟨1⟩)]].map
    ((withPolicy .shallow).bindAll ∅) =
      [.error (.cyclic ⟨1⟩ (.var ⟨0⟩)), .error (.cyclic ⟨0⟩ (.var ⟨1⟩))] := by cbv

end Table

end Inference
