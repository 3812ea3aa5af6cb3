import Inference.Proofs.Requests

/-!
# Histories of tables

A history of tables is made of requests, which may be refused, and of copies. Every
request comes with a graph of its own, and nothing is asked of the graph or of the
requested type: its handles may name no node.

Even so, a table loses no binding (`grows_of_requests`), and no chain of bindings
ever returns to its start (`chains_end`). What keeps chains apart is that a variable
is bound only if it is unbound and not the end of the requested type's chain
(`acyclic_link_insert`). The structure of types plays no part in it, so it holds for
both policies.
-/

namespace Inference

open Relation

namespace Table

/-- Every binding of a table is a binding of the later one. -/
def Grows (before after : Table) : Prop :=
  ∀ subject bound, before.get? subject = some bound → after.get? subject = some bound

/-- The later table is what some request leaves, made with some graph and accepted or refused. -/
def Requested (before after : Table) : Prop :=
  ∃ graph request, after = before.afterRequest graph request

variable {table before middle after : Table} {graph : Graph} {subject key : Variable}
  {ty next bound : Ty}

/-! ## Growing tables -/

theorem Grows.refl (table : Table) : table.Grows table := fun _ _ => id

theorem Grows.trans (hfirst : before.Grows middle) (hsecond : middle.Grows after) :
    before.Grows after :=
  fun subject bound hget => hsecond subject bound (hfirst subject bound hget)

theorem grows_insert (hkey : table.get? key = none) : table.Grows (table.insert key bound) :=
  fun _ _ hget => link_var_iff.mp (link_insert hkey (link_var_iff.mpr hget))

theorem Grows.link (hgrows : before.Grows after) (hlink : before.Link ty next) :
    after.Link ty next := by
  obtain ⟨subject, rfl, hget⟩ := hlink
  exact link_var_iff.mpr (hgrows subject next hget)

/-- A chain of the larger table first follows the chain of the smaller one to its end. -/
theorem Grows.walk_walk (hgrows : before.Grows after) (hchains : Acyclic after.Link) (ty : Ty) :
    after.walk (before.walk ty) = after.walk ty := by
  have hpath := path_walk before ty
  generalize before.walk ty = reached at hpath ⊢
  induction hpath using ReflTransGen.head_induction_on with
  | refl => rfl
  | head hlink _ ih => exact ih.trans (walk_of_link hchains (hgrows.link hlink)).symm

/-! ## Requests -/

/-- A binding for an unbound variable closes no chain, unless the chain of the type that it is bound
to ends at the variable. -/
theorem acyclic_link_insert (hchains : Acyclic table.Link) (hkey : table.get? key = none)
    (hne : table.walk ty ≠ .var key) : Acyclic (table.insert key ty).Link := by
  refine hchains.add_edge (.var key) ty link_insert_cases ?_
  intro hback
  exact hne ((walk_eq_iff_ends hchains).mpr ⟨hback, not_link_of_get?_eq_none hkey⟩)

/-- Both policies see a variable that is the end of the chain. -/
theorem walk_ne_of_seesIn (hchains : Acyclic table.Link) (hkey : table.get? key = none)
    (hseen : table.seesIn graph key (table.walk ty) = false) : table.walk ty ≠ .var key := by
  intro heq
  have hfound : table.seesIn graph key (.var key) = true := (seesIn_iff hchains hkey).mpr .refl
  rw [heq, hfound] at hseen
  cases hseen

/-- A request that is accepted lets the table grow and closes no chain. -/
theorem grows_of_bind (hchains : Acyclic table.Link)
    (hbind : table.bind graph subject ty = .ok after) :
    table.Grows after ∧ Acyclic after.Link := by
  obtain rfl | ⟨key, hwalk, hseen, rfl⟩ := bind_cases hbind
  · exact ⟨.refl after, hchains⟩
  · have hkey := get?_of_walk hchains hwalk
    exact ⟨grows_insert hkey,
      acyclic_link_insert hchains hkey (walk_ne_of_seesIn hchains hkey hseen)⟩

theorem requested_of_bind (hbind : table.bind graph subject ty = .ok after) :
    table.Requested after :=
  ⟨graph, (subject, ty), by rw [afterRequest, hbind]⟩

theorem Requested.grows (hrequested : before.Requested after) (hchains : Acyclic before.Link) :
    before.Grows after ∧ Acyclic after.Link := by
  obtain ⟨graph, request, rfl⟩ := hrequested
  unfold afterRequest
  split
  · rename_i accepted hbind
    exact grows_of_bind hchains hbind
  · exact ⟨.refl before, hchains⟩

/-- Whatever is requested, a table loses no binding, and no chain is closed. -/
theorem grows_of_requests (hrequests : ReflTransGen Requested before after)
    (hchains : Acyclic before.Link) : before.Grows after ∧ Acyclic after.Link := by
  induction hrequests with
  | refl => exact ⟨.refl before, hchains⟩
  | tail _ hlast ih =>
      obtain ⟨hgrows, hmiddle⟩ := ih
      obtain ⟨hnext, hafter⟩ := hlast.grows hmiddle
      exact ⟨hgrows.trans hnext, hafter⟩

theorem acyclic_link_withPolicy (policy : OccursCheck) : Acyclic (withPolicy policy).Link := by
  intro ty hcycle
  obtain ⟨next, ⟨subject, -, hget⟩, -⟩ := TransGen.head'_iff.mp hcycle
  cases hget

end Table

/-! ## Histories -/

namespace History

/-- One step of a history: a table without bindings, a table of bindings whose chains have no cycle,
a request to one of the tables, or a copy of one. -/
inductive Step : List Table → List Table → Prop where
  | start {tables : List Table} (policy) : Step tables (.withPolicy policy :: tables)
  | create {tables : List Table} {table : Table} :
      Acyclic table.Link → Step tables (table :: tables)
  | request {tables : List Table} {position} {table after : Table} :
      tables[position]? = some table → table.Requested after →
      Step tables (tables.set position after)
  | clone {tables : List Table} {table : Table} :
      table ∈ tables → Step tables (table :: tables)

/-- The tables that there are after some history. -/
def Reached (tables : List Table) : Prop := ReflTransGen Step [] tables

variable {before after tables : List Table}

/-- Every step keeps all chains without cycles. -/
theorem Step.chains (hstep : Step before after)
    (hbefore : ∀ table ∈ before, Acyclic table.Link) : ∀ table ∈ after, Acyclic table.Link := by
  cases hstep with
  | start policy => exact List.forall_mem_cons.mpr ⟨Table.acyclic_link_withPolicy policy, hbefore⟩
  | create hchains => exact List.forall_mem_cons.mpr ⟨hchains, hbefore⟩
  | clone htable => exact List.forall_mem_cons.mpr ⟨hbefore _ htable, hbefore⟩
  | request hposition hrequested =>
      intro other hother
      obtain hold | rfl := List.mem_or_eq_of_mem_set hother
      · exact hbefore other hold
      · exact (hrequested.grows (hbefore _ (List.mem_of_getElem? hposition))).2

/-- Whatever the requests were, no chain of bindings returns to its start. So walking a type comes
to the end of the chain, where it finds a type that is no bound variable, and from where it does not
go on. -/
theorem chains_end (hreached : Reached tables) : ∀ table ∈ tables,
    Acyclic table.Link ∧ ∀ ty, table.Ends ty (table.walk ty) ∧
      (∀ subject, table.walk ty = .var subject → table.get? subject = none) ∧
      table.walk (table.walk ty) = table.walk ty := by
  have hchains : ∀ table ∈ tables, Acyclic table.Link := by
    unfold Reached at hreached
    induction hreached with
    | refl => exact fun table htable => absurd htable List.not_mem_nil
    | tail _ hstep ih => exact hstep.chains ih
  intro table htable
  refine ⟨hchains table htable, fun ty => ?_⟩
  exact ⟨Table.ends_walk (hchains table htable) ty,
    fun _ hwalk => Table.get?_of_walk (hchains table htable) hwalk,
    Table.walk_walk (hchains table htable) ty⟩

/-- A shallow table in which variable 0 stands for variable 1. -/
def linked : Table := ⟨.ofList [(⟨0⟩, .var ⟨1⟩)], .shallow⟩

/-- The same bindings and one more, by which the chain ends at a function that is not there. -/
def dangling : Table := ⟨.ofList [(⟨0⟩, .var ⟨1⟩), (⟨1⟩, .function 7)], .shallow⟩

theorem chains_end_dangling : Reached [dangling, linked] ∧ ∀ table ∈ [dangling, linked],
    Acyclic table.Link ∧ ∀ ty, table.Ends ty (table.walk ty) ∧
      (∀ subject, table.walk ty = .var subject → table.get? subject = none) ∧
      table.walk (table.walk ty) = table.walk ty := by
  have hstart : Reached [.withPolicy .shallow] := .single (.start .shallow)
  have hlinked : Reached [linked] :=
    hstart.tail (@Step.request _ 0 _ _ rfl ⟨∅, (⟨0⟩, .var ⟨1⟩), by cbv⟩)
  have hcopied : Reached [linked, linked] := hlinked.tail (.clone List.mem_cons_self)
  -- Variable 1 may not stand for variable 0, whose chain ends at variable 1.
  have hrefused : Reached [linked, linked] :=
    hcopied.tail (@Step.request _ 1 _ _ rfl ⟨∅, (⟨1⟩, .var ⟨0⟩), by cbv⟩)
  have hreached : Reached [dangling, linked] :=
    hrefused.tail (@Step.request _ 0 _ _ rfl ⟨.looped, (⟨0⟩, .function 7), by cbv⟩)
  exact ⟨hreached, chains_end hreached⟩

end History

end Inference
