import Inference.Proofs.Reification.Order
import Inference.Proofs.Rendering
import Mathlib.Data.Prod.Lex
import Mathlib.Order.WithBot

/-!
# What is shown of a reified table

Reifying a table in another order of its bindings gives new branches other numbers,
and the cases of a union are shown in the order of their handles. The handles that
were there before come first among those of their kind and are listed alike, so only
new cases of one kind can change places (`Renumbers.exists_listing`). Nothing else of
the text depends on the order of the bindings (`displayed_in_any_order`), but this much
does (`display_depends_on_order`).
-/

namespace Inference

open Relation

namespace Graph

variable {graph left right : Graph} {ty other : Ty} {renumber : Ty → Ty} {cases listed : List Ty}

/-! ## The places of cases -/

/-- Within a kind, handles of the graph come before all others. -/
theorem Holds.of_number_le (hother : graph.Holds other) (hrank : ty.rank = other.rank)
    (hnumber : ty.number ≤ other.number) : graph.Holds ty := by
  cases ty <;> cases other <;> simp_all [Ty.rank, Ty.number, Holds, branch?, tuple?, named?]
  all_goals exact Arena.isSome_get?_of_le hnumber hother

open Classical in
/-- The kind of a handle, and its number if it is a handle of the graph. All others of the kind
share one place, after the handles of the graph. -/
noncomputable def place (graph : Graph) (ty : Ty) : ℕ ×ₗ WithTop ℕ :=
  toLex (ty.rank, if graph.Holds ty then (ty.number : WithTop ℕ) else ⊤)

theorem place_eq_iff : graph.place ty = graph.place other ↔
    ty.rank = other.rank ∧ (graph.Holds ty ∨ graph.Holds other → ty = other) := by
  unfold place
  rw [toLex_inj, Prod.mk.injEq]
  refine and_congr_right fun hrank => ?_
  by_cases hty : graph.Holds ty <;> by_cases hother : graph.Holds other <;> simp [hty, hother]
  · constructor
    · intro hnumber
      exact Ty.eq_of_rank_of_number hrank hnumber
    · rintro rfl
      rfl
  · rintro rfl
    exact hother hty
  · rintro rfl
    exact hty hother

theorem place_le (hlt : ty < other) : graph.place ty ≤ graph.place other := by
  rw [place, place, Prod.Lex.toLex_le_toLex]
  obtain hrank | ⟨hrank, hnumber⟩ := Ty.lt_iff.mp hlt
  · exact .inl hrank
  · refine .inr ⟨hrank, ?_⟩
    by_cases hother : graph.Holds other
    · have hty := hother.of_number_le hrank (Nat.le_of_lt hnumber)
      simp only [if_pos hother, if_pos hty, Nat.cast_le]
      exact Nat.le_of_lt hnumber
    · simp only [if_neg hother, le_top]

/-- The cases in another order, in which handles of the graph stay at their places, and the others
take the places of others of the same kind. -/
structure Rearranges (graph : Graph) (cases listed : List Ty) : Prop where
  perm : listed.Perm cases
  places : List.Forall₂ (fun case other => case.rank = other.rank ∧
    (graph.Holds case ∨ graph.Holds other → case = other)) cases listed

theorem Rearranges.refl (graph : Graph) (cases : List Ty) : graph.Rearranges cases cases :=
  ⟨.refl cases, List.forall₂_same.mpr fun _ _ => ⟨rfl, fun _ => rfl⟩⟩

/-- Renumbering ascending cases and sorting them again rearranges them, if it keeps their places. -/
theorem rearranges_of_ascending (hcases : cases.Pairwise (· < ·))
    (hlisted : (listed.map renumber).Pairwise (· < ·)) (hperm : listed.Perm cases)
    (hplace : ∀ case ∈ cases, graph.place (renumber case) = graph.place case) :
    graph.Rearranges cases listed := by
  have hfirst : (cases.map graph.place).Pairwise (· ≤ ·) :=
    List.pairwise_map.mpr (hcases.imp place_le)
  have hsecond : (listed.map graph.place).Pairwise (· ≤ ·) := by
    have hsame : listed.map graph.place = (listed.map renumber).map graph.place := by
      rw [List.map_map]
      exact List.map_congr_left fun case hcase => (hplace case (hperm.mem_iff.mp hcase)).symm
    rw [hsame]
    exact List.pairwise_map.mpr (hlisted.imp place_le)
  have heq : cases.map graph.place = listed.map graph.place :=
    (hperm.map graph.place).symm.eq_of_pairwise (fun _ _ _ _ => le_antisymm) hfirst hsecond
  refine ⟨hperm, ?_⟩
  rw [← List.forall₂_eq_eq_eq, List.forall₂_map_left_iff, List.forall₂_map_right_iff] at heq
  exact heq.imp fun _ _ => place_eq_iff.mp

/-- No two of the cases are of the same kind without being handles of the graph. -/
def NewApart (graph : Graph) (cases : List Ty) : Prop :=
  ∀ first ∈ cases, ∀ second ∈ cases, first.rank = second.rank →
    ¬ graph.Holds first → ¬ graph.Holds second → first = second

/-- Such cases can be rearranged in one way only. -/
theorem Rearranges.eq_of_newApart (hrearranges : graph.Rearranges cases listed)
    (hnew : graph.NewApart cases) : listed = cases := by
  obtain ⟨hlength, hplaces⟩ := List.forall₂_iff_zip.mp hrearranges.places
  have heq : List.Forall₂ (· = ·) cases listed := by
    refine List.forall₂_iff_zip.mpr ⟨hlength, fun {case other} hzip => ?_⟩
    obtain ⟨hcase, hother⟩ := List.of_mem_zip hzip
    obtain ⟨hrank, hheld⟩ := hplaces hzip
    by_contra hne
    exact hne (hnew case hcase other (hrearranges.perm.mem_iff.mp hother) hrank
      (fun h => hne (hheld (.inl h))) fun h => hne (hheld (.inr h)))
  rw [List.forall₂_eq_eq_eq] at heq
  exact heq.symm

/-! ## The listing of a renumbering -/

/-- Branches at corresponding handles are of the same kind, and so are the handles. -/
theorem rank_eq_of_branch? {branch : Branch} (hbranch : left.branch? ty = some branch)
    (hother : right.branch? other = some (branch.map renumber)) : other.rank = ty.rank := by
  cases branch <;> cases ty <;> simp [branch?] at hbranch <;> cases other <;>
    simp [branch?, Branch.map, Branch.withChildren, Branch.children] at hother <;> rfl

theorem Renumbers.rank_eq (hrenumbers : left.Renumbers right renumber) (hholds : left.Holds ty) :
    (renumber ty).rank = ty.rank := by
  cases hbranch : left.branch? ty with
  | some branch => exact rank_eq_of_branch? hbranch (hrenumbers.branch hbranch)
  | none => rw [hrenumbers.other hholds hbranch]

/-- A renumbering that fixes the handles of a smaller graph keeps the places that cases have
there. -/
theorem Renumbers.place_eq (hrenumbers : left.Renumbers right renumber)
    (hgrows : graph.Grows left) (hfixed : ∀ ty, graph.Holds ty → renumber ty = ty)
    (hholds : left.Holds ty) : graph.place (renumber ty) = graph.place ty := by
  refine place_eq_iff.mpr ⟨hrenumbers.rank_eq hholds, ?_⟩
  rintro (hnew | hold)
  · exact hrenumbers.bijOn.injOn (hgrows.holds hnew) hholds (hfixed _ hnew)
  · exact hfixed ty hold

/-- The renumbered cases, sorted again, are renumbered cases in some order. -/
theorem exists_map_eq_ofList {cases : CaseSet} (hinjective : Set.InjOn renumber {ty | ty ∈ cases}) :
    ∃ listed : List Ty, listed.map renumber = (CaseSet.ofList (cases.toList.map renumber)).toList ∧
      listed.Perm cases.toList := by
  have hperm : (CaseSet.ofList (cases.toList.map renumber)).toList.Perm
      (cases.toList.map renumber) := by
    refine (List.perm_ext_iff_of_nodup ?_ ?_).mpr fun ty => ?_
    · exact (CaseSet.ofList _).nodup
    · exact cases.nodup.map_on fun first hfirst second hsecond => hinjective hfirst hsecond
    · rw [CaseSet.mem_toList, CaseSet.mem_ofList]
  let back := Function.invFunOn renumber {ty | ty ∈ cases}
  refine ⟨(CaseSet.ofList (cases.toList.map renumber)).toList.map back, ?_, ?_⟩
  · rw [List.map_map]
    refine (List.map_congr_left fun ty hty => ?_).trans (List.map_id _)
    obtain ⟨case, hcase, heq⟩ := List.mem_map.mp (hperm.mem_iff.mp hty)
    exact Function.invFunOn_eq ⟨case, hcase, heq⟩
  · have hback : (cases.toList.map renumber).map back = cases.toList := by
      rw [List.map_map]
      refine (List.map_congr_left fun case hcase => ?_).trans (List.map_id _)
      exact hinjective.leftInvOn_invFunOn hcase
    have hmapped := hperm.map back
    rwa [hback] at hmapped

/-- The cases in the order of their handles in the other graph. -/
theorem Renumbers.exists_listing (hrenumbers : left.Renumbers right renumber)
    (hgrows : graph.Grows left) (hfixed : ∀ ty, graph.Holds ty → renumber ty = ty) :
    ∃ listing : CaseSet → List Ty,
      (∀ cases, graph.Rearranges cases.toList (listing cases)) ∧
      ∀ cases : CaseSet, (∀ case ∈ cases, left.Holds case) →
        (CaseSet.ofList (cases.toList.map renumber)).toList = (listing cases).map renumber := by
  have hexists : ∀ cases : CaseSet, ∃ listed, graph.Rearranges cases.toList listed ∧
      ((∀ case ∈ cases, left.Holds case) →
        (CaseSet.ofList (cases.toList.map renumber)).toList = listed.map renumber) := by
    intro cases
    by_cases hholds : ∀ case ∈ cases, left.Holds case
    · obtain ⟨listed, hlisted, hperm⟩ :=
        exists_map_eq_ofList (hrenumbers.bijOn.injOn.mono hholds)
      refine ⟨listed, rearranges_of_ascending cases.ascending ?_ hperm fun case hcase =>
        hrenumbers.place_eq hgrows hfixed (hholds case hcase), fun _ => hlisted.symm⟩
      rw [hlisted]
      exact (CaseSet.ofList _).ascending
    · exact ⟨cases.toList, .refl graph _, fun h => absurd h hholds⟩
  obtain ⟨listing, hlisting⟩ := Classical.axiomOfChoice hexists
  exact ⟨listing, fun cases => (hlisting cases).1, fun cases => (hlisting cases).2⟩

/-! ## What is shown -/

/-- The step from a type to a part that its text shows: to a child of a branch, or to the type of an
element of a tuple without a name. -/
def Shown (graph : Graph) (ty part : Ty) : Prop :=
  graph.Child ty part ∨ ∃ id elements, ty = .tuple id ∧
    graph.tuple? id = some ⟨none, elements⟩ ∧ ∃ element ∈ elements, part = element.ty

theorem WellFormed.holds_shown (hgraph : graph.WellFormed) {part : Ty}
    (hshown : graph.Shown ty part) : graph.Holds part := by
  obtain hchild | ⟨id, elements, rfl, hnode, element, helement, rfl⟩ := hshown
  · exact hgraph.holds_child hchild
  · exact hgraph.holds_element ⟨id, _, rfl, hnode, List.mem_map_of_mem helement⟩

/-- A renumbering mirrors what is shown of some handles, if the unions among it list their cases in
the order of the other graph. -/
theorem Renumbers.mirrors (hrenumbers : left.Renumbers right renumber) {kind : Ty → Prop}
    {listing : CaseSet → List Ty} (hmem : ∀ cases, ∀ ty ∈ listing cases, ty ∈ cases)
    (hholds : ∀ ty, kind ty → left.Holds ty)
    (hclosed : ∀ ty part, kind ty → left.Shown ty part → kind part)
    (hlisting : ∀ ty cases, kind ty → left.branch? ty = some (.union ⟨cases⟩) →
      (CaseSet.ofList (cases.toList.map renumber)).toList = (listing cases).map renumber) :
    Mirrors left right kind renumber listing CaseSet.toList where
  branch {ty branch} hty hbranch := by
    refine ⟨_, hrenumbers.branch hbranch, branch.render_map renumber, ?_⟩
    cases branch with
    | union node => exact hlisting ty node.cases hty hbranch
    | _ => rfl
  child hty hbranch hchild := hclosed _ _ hty (.inl (mem_children_iff.mpr
    ⟨_, hbranch, Branch.mem_children_of_mem_shown hmem hchild⟩))
  leaf hty hnone :=
    ⟨hrenumbers.other (hholds _ hty) hnone, branch?_eq_none_of_holds (hholds _ hty) hnone⟩
  tuple {id} hty := by
    obtain ⟨node, hnode⟩ := Option.isSome_iff_exists.mp (hholds _ hty)
    rw [hrenumbers.tuple hnode, hnode, Option.map_some]
  element hty hnode helement :=
    hclosed _ _ hty (.inr ⟨_, _, rfl, hnode, _, helement, rfl⟩)
  nameds := hrenumbers.nameds

end Graph

namespace Table

variable {table other : Table} {graph left right : Graph} {renumber : Ty → Ty}
  {listing : CaseSet → List Ty}

/-- The type is shown in the text of the table. -/
def Shows (table : Table) (graph : Graph) (ty : Ty) : Prop :=
  ∃ subject bound, table.get? subject = some bound ∧ ReflTransGen graph.Shown bound ty

/-- In a well-formed graph every table has a text. -/
theorem renderTableListed?_returns (hgraph : graph.WellFormed)
    (hlisting : ∀ cases, ∀ ty ∈ listing cases, ty ∈ cases) (table : Table) :
    ∃ text, graph.renderTableListed? listing table = some text := by
  let line := fun (entry : Variable × Ty) =>
    (graph.renderListed? listing entry.2).map (Graph.renderEntry entry.1)
  have hentries : ∀ entry ∈ table.entries, ∃ text, ∀ limit : Nat, 0 ≤ limit →
      line entry = some text := by
    intro entry _
    obtain ⟨text, htext, -⟩ := Graph.renderListed?_returns hgraph hlisting entry.2
    exact ⟨Graph.renderEntry entry.1 text, fun _ _ => by simp only [line, htext, Option.map_some]⟩
  obtain ⟨lines, hlines⟩ := mapM_returns hentries
  exact ⟨String.join lines, congrArg _ (hlines 0 (Nat.le_refl _))⟩

/-- Tables that bind the same variables to types with the same texts have the same text. -/
theorem renderTableListed?_eq {second : CaseSet → List Ty}
    (hget : ∀ subject, other.get? subject = (table.get? subject).map renumber)
    (htypes : ∀ subject bound, table.get? subject = some bound →
      right.renderListed? second (renumber bound) = left.renderListed? listing bound) :
    right.renderTableListed? second other = left.renderTableListed? listing table := by
  have hentries : other.entries = _ := Bindings.entries_eq_map hget
  rw [Graph.renderTableListed?, hentries, List.mapM_map, Graph.renderTableListed?]
  refine congrArg _ (mapM_congr fun entry hentry => ?_)
  exact congrArg _ (htypes entry.1 entry.2 (Bindings.mem_entries_iff.mp hentry))

section

variable {first second : Reified} (hrenumbers : first.graph.Renumbers second.graph renumber)
  (hfirst : table.Renews graph first) (hsecond : table.Renews graph second)
  (hget : ∀ subject, second.table.get? subject = (first.table.get? subject).map renumber)

/-- What is shown of the result is a handle of its graph. -/
theorem Renews.holds_of_shows (hfirst : table.Renews graph first) {ty : Ty}
    (hshows : first.table.Shows first.graph ty) : first.graph.Holds ty := by
  obtain ⟨subject, bound, hget, hpath⟩ := hshows
  obtain ⟨old, -, hsettles⟩ := exists_eq_some_of_rel (hfirst.types subject) hget
  induction hpath with
  | refl => exact hsettles.holds
  | tail _ hstep _ => exact hfirst.wellFormed.holds_shown hstep

include hrenumbers hfirst hsecond hget in
/-- The text of the other result is the text of this one, with cases listed in the order of the
handles in the other graph. -/
theorem Renews.renderTable?_eq (hmem : ∀ cases, ∀ ty ∈ listing cases, ty ∈ cases)
    (hlisting : ∀ ty cases, first.table.Shows first.graph ty →
      first.graph.branch? ty = some (.union ⟨cases⟩) →
      (CaseSet.ofList (cases.toList.map renumber)).toList = (listing cases).map renumber) :
    second.graph.renderTable? second.table =
      first.graph.renderTableListed? listing first.table := by
  have hmirrors := hrenumbers.mirrors hmem (fun _ => hfirst.holds_of_shows)
    (fun ty part hty hshown => by
      obtain ⟨subject, bound, hbound, hpath⟩ := hty
      exact ⟨subject, bound, hbound, hpath.tail hshown⟩) hlisting
  refine renderTableListed?_eq hget fun subject bound hbound => ?_
  exact hmirrors.renderListed?_eq hfirst.wellFormed hsecond.wellFormed hmem (fun _ _ => id)
    ⟨subject, bound, hbound, .refl⟩

end

/-- The texts of the results: that of the other one lists the cases of unions in another order, and
it is the same if no union that is shown has two new cases of one kind. -/
theorem Renews.texts {first second : Reified} (hfirst : table.Renews graph first)
    (hsecond : table.Renews graph second) (hgrounded : table.Grounded graph) :
    ∃ text last listing, first.graph.renderTable? first.table = some text ∧
      second.graph.renderTable? second.table = some last ∧
      first.graph.renderTableListed? listing first.table = some last ∧
      (∀ cases : CaseSet, graph.Rearranges cases.toList (listing cases)) ∧
      ((∀ ty cases, first.table.Shows first.graph ty →
        first.graph.branch? ty = some (.union ⟨cases⟩) → graph.NewApart cases.toList) →
        last = text) := by
  obtain ⟨renumber, hrenumbers, hfixed, hget⟩ := (hfirst.alike hsecond hgrounded).renumbers
  obtain ⟨listing, hrearranges, hlisting⟩ := hrenumbers.exists_listing hfirst.grows hfixed
  have hmem : ∀ cases, ∀ ty ∈ listing cases, ty ∈ cases :=
    fun cases ty => (hrearranges cases).perm.mem_iff.mp
  have hlisted : ∀ ty cases, first.graph.branch? ty = some (.union ⟨cases⟩) →
      (CaseSet.ofList (cases.toList.map renumber)).toList = (listing cases).map renumber :=
    fun ty cases hbranch => hlisting cases fun _ hcase =>
      hfirst.wellFormed.holds_of_mem hbranch hcase
  obtain ⟨text, htext⟩ := renderTableListed?_returns hfirst.wellFormed (fun _ _ => id) first.table
  obtain ⟨last, hlast⟩ := renderTableListed?_returns hfirst.wellFormed hmem first.table
  have hsame := hfirst.renderTable?_eq hrenumbers hsecond hget hmem fun ty cases _ =>
    hlisted ty cases
  refine ⟨text, last, listing, htext, hsame.trans hlast, hlast, hrearranges, fun hnew => ?_⟩
  have hequal := hfirst.renderTable?_eq hrenumbers hsecond hget (fun _ _ => id)
    fun ty cases hshows hbranch => by
      have happart := hnew ty cases hshows hbranch
      rw [hlisted ty cases hbranch, (hrearranges cases).eq_of_newApart happart]
  rw [hsame, hlast, htext] at hequal
  exact Option.some.inj hequal

/-- Reifying the types of a table in two orders of its bindings gives tables whose texts differ at
most by the order in which unions list the new cases of a kind. The texts are equal if no union that
is shown has two new cases of one kind. -/
theorem displayed_in_any_order {first second : List (Variable × Ty)} (hgraph : graph.WellFormed)
    (hfits : table.Fits graph) (hacyclic : Acyclic (table.DependsOn graph))
    (hfirst : first.Perm table.entries) (hsecond : second.Perm table.entries) :
    ∃ left right text last listing, table.reifiedAlong? first graph = some left ∧
      table.reifiedAlong? second graph = some right ∧
      left.graph.renderTable? left.table = some text ∧
      right.graph.renderTable? right.table = some last ∧
      left.graph.renderTableListed? listing left.table = some last ∧
      (∀ cases : CaseSet, graph.Rearranges cases.toList (listing cases)) ∧
      ((∀ ty cases, left.table.Shows left.graph ty →
        left.graph.branch? ty = some (.union ⟨cases⟩) → graph.NewApart cases.toList) →
        last = text) := by
  have hgrounded : table.Grounded graph := .of_dependsOn hgraph hfits hacyclic
  obtain ⟨_, _, hleft, -⟩ := exists_reifiedAlong hgrounded hfirst
  obtain ⟨_, _, hright, -⟩ := exists_reifiedAlong hgrounded hsecond
  have hrenews := renews_of_perm hgrounded hfirst hleft
  obtain ⟨text, last, listing, htexts⟩ :=
    hrenews.texts (renews_of_perm hgrounded hsecond hright) hgrounded
  exact ⟨_, _, text, last, listing, hleft, hright, htexts⟩

end Table

/-! ## Two new cases of one kind -/

/-- A union of two functions that take what variable 0 stands for. -/
def Graph.crossed : Graph where
  functions := ⟨#[⟨.var ⟨0⟩, .primitive .bool⟩, ⟨.var ⟨0⟩, .primitive .float⟩]⟩
  unions := ⟨#[⟨.ofList [.function 0, .function 1]⟩]⟩
  metatypes := ∅
  tuples := ∅
  nameds := ∅

/-- Bindings for variable 0, for the second function, and for the union. -/
def Table.crossed : Table :=
  .ofList [(⟨0⟩, .primitive .int), (⟨1⟩, .function 1), (⟨2⟩, .union 0)]

theorem Graph.reached_crossed : Graph.crossed.Reached := by
  have hfirst : Reached (function ∅ (.var ⟨0⟩) (.primitive .bool)).2 :=
    .single (.function trivial trivial)
  have hsecond : Reached ((function ∅ (.var ⟨0⟩) (.primitive .bool)).2.function
      (.var ⟨0⟩) (.primitive .float)).2 := hfirst.tail (.function trivial trivial)
  have hcases : ∀ case ∈ (CaseSet.ofList [.function 0, .function 1]).toList,
      Holds ((function ∅ (.var ⟨0⟩) (.primitive .bool)).2.function
        (.var ⟨0⟩) (.primitive .float)).2 case := by decide
  exact hsecond.tail (.union hcases)

namespace Table

theorem sound_crossed : crossed.Sound .crossed := by
  have hgraph := Graph.reached_crossed.wellFormed
  have hfirst : ({} : Table).bind .crossed ⟨0⟩ (.primitive .int) =
      .ok (.ofList [(⟨0⟩, .primitive .int)]) := by cbv
  have hsecond : (ofList [(⟨0⟩, .primitive .int)]).bind .crossed ⟨1⟩ (.function 1) =
      .ok (.ofList [(⟨0⟩, .primitive .int), (⟨1⟩, .function 1)]) := by cbv
  have hthird : (ofList [(⟨0⟩, .primitive .int), (⟨1⟩, .function 1)]).bind .crossed ⟨2⟩ (.union 0) =
      .ok crossed := by cbv
  have hint : Sound _ .crossed := (sound_empty .crossed).bind hgraph (by trivial) hfirst
  have hfunction : Sound _ .crossed := hint.bind hgraph (by decide) hsecond
  exact hfunction.bind hgraph (by decide) hthird

theorem displayed_in_any_order_crossed : ∃ left right text last listing,
    crossed.reifiedAlong? crossed.entries .crossed = some left ∧
      crossed.reifiedAlong? crossed.entries.reverse .crossed = some right ∧
      left.graph.renderTable? left.table = some text ∧
      right.graph.renderTable? right.table = some last ∧
      left.graph.renderTableListed? listing left.table = some last ∧
      (∀ cases : CaseSet, Graph.crossed.Rearranges cases.toList (listing cases)) ∧
      ((∀ ty cases, left.table.Shows left.graph ty →
        left.graph.branch? ty = some (.union ⟨cases⟩) → Graph.crossed.NewApart cases.toList) →
        last = text) :=
  displayed_in_any_order Graph.reached_crossed.wellFormed sound_crossed.fits sound_crossed.acyclic
    (.refl _) (List.reverse_perm _)

/-- The new functions are listed in the order in which they are made. If the function of variable 1
is reified first, it comes first in the union of variable 2, and otherwise last. -/
theorem display_depends_on_order : Graph.crossed.Reached ∧ crossed.Fits .crossed ∧
    Acyclic (crossed.DependsOn .crossed) ∧
    (crossed.reifiedAlong? crossed.entries .crossed).bind
      (fun reified => reified.graph.renderTable? reified.table) =
      some "$T0 => Int\n$T1 => (Int) -> Float\n$T2 => (Int) -> Float | (Int) -> Bool\n" ∧
    (crossed.reifiedAlong? crossed.entries.reverse .crossed).bind
      (fun reified => reified.graph.renderTable? reified.table) =
      some "$T0 => Int\n$T1 => (Int) -> Float\n$T2 => (Int) -> Bool | (Int) -> Float\n" := by
  refine ⟨Graph.reached_crossed, sound_crossed.fits, sound_crossed.acyclic, ?_, ?_⟩
  · decide
  · decide

end Table

end Inference
