import Inference.Proofs.Lists
import Inference.Table
import Mathlib.Data.List.Induction

/-!
# Enumerations of bindings

Any order in which the entries of a map are listed has every variable once, so the
map that is made from the list binds exactly what is listed
(`get?_ofList_eq_some_iff`). Rebuilding a map from its entries in any order gives
the map again, and with other types it binds the same variables
(`rel_get?_ofList`).
-/

namespace Inference

theorem eq_none_iff_of_rel {α β : Type} {relation : α → β → Prop} {left : Option α}
    {right : Option β} (hrelated : Option.Rel relation left right) :
    right = none ↔ left = none := by
  cases hrelated with
  | some => simp
  | none => simp

theorem exists_eq_some_of_rel {α β : Type} {relation : α → β → Prop} {left : Option α}
    {right : Option β} (hrelated : Option.Rel relation left right) {item : β}
    (hright : right = some item) : ∃ other, left = some other ∧ relation other item := by
  cases hrelated with
  | some hitems =>
      cases hright
      exact ⟨_, rfl, hitems⟩
  | none => cases hright

theorem rel_of_common {α β γ : Type} {relation : α → β → Prop} {second : α → γ → Prop}
    {third : β → γ → Prop}
    (hcommon : ∀ item left right, relation item left → second item right → third left right)
    {item : Option α} {left : Option β} {right : Option γ} (hleft : Option.Rel relation item left)
    (hright : Option.Rel second item right) : Option.Rel third left right := by
  cases hleft with
  | some hleft =>
      cases hright with
      | some hright => exact .some (hcommon _ _ _ hleft hright)
  | none =>
      cases hright
      exact .none

namespace Bindings

variable {bindings : Bindings} {listed order : List (Variable × Ty)} {subject : Variable} {ty : Ty}

theorem ofList_concat (listed : List (Variable × Ty)) (last : Variable × Ty) :
    ofList (listed ++ [last]) = (ofList listed).insert last.1 last.2 := by
  unfold ofList
  rw [List.foldl_append, List.foldl_cons, List.foldl_nil]

/-- A list that has every variable at most once is looked up as it is. -/
theorem get?_ofList_eq_some_iff (hnodup : (listed.map (·.1)).Nodup) :
    (ofList listed).get? subject = some ty ↔ (subject, ty) ∈ listed := by
  induction listed using List.reverseRecOn with
  | nil =>
      constructor
      · intro hget
        cases hget
      · intro hin
        cases hin
  | append_singleton listed last ih =>
      rw [List.map_append, List.nodup_append] at hnodup
      obtain ⟨hlisted, -, hdistinct⟩ := hnodup
      have hlast : ∀ bound, (last.1, bound) ∉ listed := by
        intro bound hin
        have hkey : last.1 ∈ listed.map (·.1) := List.mem_map.mpr ⟨_, hin, rfl⟩
        exact hdistinct last.1 hkey last.1 (List.mem_singleton.mpr rfl) rfl
      rw [ofList_concat, get?_insert]
      by_cases heq : subject = last.1
      · subst heq
        simp [hlast, Prod.ext_iff, eq_comm]
      · simp [heq, ih hlisted, Prod.ext_iff]

/-- Ascending entries have every variable once. -/
theorem nodup_of_ascending (hascending : order.Pairwise fun left right => left.1 < right.1) :
    (order.map (·.1)).Nodup := by
  rw [List.Nodup, List.pairwise_map]
  refine hascending.imp ?_
  intro left right hlt heq
  rw [heq] at hlt
  exact Nat.lt_irrefl _ hlt

/-- The entries of a map, in any order, have every variable once. -/
theorem nodup_of_perm (horder : order.Perm bindings.entries) : (order.map (·.1)).Nodup :=
  (horder.map (·.1)).nodup_iff.mpr (nodup_of_ascending bindings.ascending)

/-- A map is made again from its entries in any order. -/
theorem ofList_of_perm (horder : order.Perm bindings.entries) : ofList order = bindings := by
  ext subject ty
  rw [get?_ofList_eq_some_iff (nodup_of_perm horder), horder.mem_iff, mem_entries_iff]

/-- A map that is made of ascending entries has these entries. -/
theorem entries_ofList_of_ascending
    (hascending : order.Pairwise fun left right => left.1 < right.1) :
    (ofList order).entries = order := by
  refine eq_of_mem_entries_iff (ofList order).ascending hascending fun entry => ?_
  exact mem_entries_iff.trans (get?_ofList_eq_some_iff (nodup_of_ascending hascending))

/-! ## Other types for the same variables -/

/-- A map with the same variables has its entries in the same order. -/
theorem entries_eq_map {renewed : Bindings} {renew : Ty → Ty}
    (hget : ∀ subject, renewed.get? subject = (bindings.get? subject).map renew) :
    renewed.entries = bindings.entries.map fun entry => (entry.1, renew entry.2) := by
  refine eq_of_mem_entries_iff renewed.ascending (List.pairwise_map.mpr bindings.ascending) ?_
  rintro ⟨subject, ty⟩
  rw [mem_entries_iff, hget, Option.map_eq_some_iff]
  simp only [List.mem_map, Prod.mk.injEq, Prod.exists, mem_entries_iff]
  constructor
  · rintro ⟨bound, hbound, rfl⟩
    exact ⟨subject, bound, hbound, rfl, rfl⟩
  · rintro ⟨key, bound, hbound, rfl, rfl⟩
    exact ⟨bound, hbound, rfl⟩

/-- The entries with other types, in the same order. -/
theorem forall₂_zip_entries {relation : Ty → Ty → Prop} {results : List Ty}
    (hrelated : List.Forall₂ relation (order.map (·.2)) results) :
    List.Forall₂ (fun old new => new.1 = old.1 ∧ relation old.2 new.2) order
      ((order.map (·.1)).zip results) := by
  induction order generalizing results with
  | nil =>
      cases hrelated
      exact .nil
  | cons entry order ih =>
      cases hrelated with
      | cons hfirst hrest => exact .cons ⟨rfl, hfirst⟩ (ih hrest)

theorem map_fst_zip_entries {results : List Ty} (hlength : results.length = order.length) :
    ((order.map (·.1)).zip results).map (·.1) = order.map (·.1) :=
  List.map_fst_zip (by simp [hlength])

/-- If the types in some order of the entries are related to other types, then so is what a variable
is bound to before and afterwards. -/
theorem rel_get?_ofList {relation : Ty → Ty → Prop} {results : List Ty}
    (horder : order.Perm bindings.entries)
    (hrelated : List.Forall₂ relation (order.map (·.2)) results) (subject : Variable) :
    Option.Rel relation (bindings.get? subject)
      ((ofList ((order.map (·.1)).zip results)).get? subject) := by
  have hentries := forall₂_zip_entries hrelated
  have hlength : results.length = order.length := by
    rw [← hrelated.length_eq, List.length_map]
  have hmem : ∀ {ty}, (ofList ((order.map (·.1)).zip results)).get? subject = some ty ↔
      (subject, ty) ∈ (order.map (·.1)).zip results := by
    intro ty
    rw [get?_ofList_eq_some_iff]
    rw [map_fst_zip_entries hlength]
    exact nodup_of_perm horder
  cases hget : bindings.get? subject with
  | some old =>
      have hold := horder.mem_iff.mpr (mem_entries_iff.mpr hget)
      have hback : List.Forall₂ (fun (new old : Variable × Ty) =>
          new.1 = old.1 ∧ relation old.2 new.2) ((order.map (·.1)).zip results) order :=
        .flip hentries
      obtain ⟨⟨key, new⟩, hnew, rfl, hrelated⟩ := exists_mem_of_forall₂ hback hold
      rw [hmem.mpr hnew]
      exact .some hrelated
  | none =>
      have hnone : (ofList ((order.map (·.1)).zip results)).get? subject = none := by
        refine Option.eq_none_iff_forall_ne_some.mpr ?_
        intro new hnew
        obtain ⟨⟨key, old⟩, hold, rfl, -⟩ := exists_mem_of_forall₂ hentries (hmem.mp hnew)
        rw [mem_entries_iff.mp (horder.mem_iff.mp hold)] at hget
        cases hget
      rw [hnone]
      exact .none

end Bindings

end Inference
