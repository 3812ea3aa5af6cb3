import Mathlib.Data.List.Forall2
import Mathlib.Data.List.Nodup

/-!
# Lists

Facts on lists that are taken apart at an item, on lists that are related item by item,
on steps that are taken for every item of a list, and on lists that are looked up by a
key.
-/

namespace Inference

/-! ## Parts of a list -/

/-- Either the item is the last one, or it stands before the last one. -/
theorem append_singleton_eq_iff {α : Type} {items before after : List α} {last item : α} :
    items ++ [last] = before ++ item :: after ↔
      (items = before ∧ last = item ∧ after = []) ∨
        ∃ rest, after = rest ++ [last] ∧ items = before ++ item :: rest := by
  constructor
  · intro heq
    obtain rfl | ⟨rest, final, rfl⟩ := List.eq_nil_or_concat after
    · obtain ⟨hitems, hlast⟩ := List.append_inj' heq rfl
      exact .inl ⟨hitems, List.singleton_inj.mp hlast, rfl⟩
    · rw [List.concat_eq_append, ← List.cons_append, ← List.append_assoc] at heq
      obtain ⟨hitems, hlast⟩ := List.append_inj' heq rfl
      obtain rfl := List.singleton_inj.mp hlast
      exact .inr ⟨rest, List.concat_eq_append, hitems⟩
  · rintro (⟨rfl, rfl, rfl⟩ | ⟨rest, rfl, rfl⟩)
    · rfl
    · rw [List.append_assoc, List.cons_append]

/-- The start of a list ends before one of its items, or behind it. -/
theorem prefix_or_passes {α : Type} {part before after : List α} {item : α}
    (hpart : part <+: before ++ item :: after) : part <+: before ∨ before ++ [item] <+: part := by
  obtain hlong | hshort := Nat.lt_or_ge before.length part.length
  · have hpassed : before ++ [item] <+: before ++ item :: after :=
      (List.prefix_append_right_inj before).mpr (List.prefix_append [item] after)
    refine .inr (List.prefix_of_prefix_length_le hpassed hpart ?_)
    rw [List.length_append, List.length_singleton]
    exact hlong
  · exact .inl (List.prefix_of_prefix_length_le hpart (List.prefix_append _ _) hshort)

theorem concat_prefix_iff {α : Type} {part items : List α} {item : α} :
    part ++ [item] <+: items ↔ part <+: items ∧ items[part.length]? = some item := by
  constructor
  · rintro ⟨after, rfl⟩
    rw [List.append_assoc, List.getElem?_append_right (Nat.le_refl _), Nat.sub_self]
    exact ⟨List.prefix_append _ _, rfl⟩
  · rintro ⟨⟨after, rfl⟩, hitem⟩
    rw [List.getElem?_append_right (Nat.le_refl _), Nat.sub_self] at hitem
    cases after with
    | nil => cases hitem
    | cons first after =>
        obtain rfl := Option.some.inj hitem
        exact (List.prefix_append_right_inj part).mpr (List.prefix_append [first] after)

/-- Lists are equal if an injective map makes them equal. -/
theorem eq_of_map_eq {α β : Type} {map : α → β} {left right : List α}
    (hmap : left.map map = right.map map)
    (hinjective : ∀ first ∈ left, ∀ second ∈ right, map first = map second → first = second) :
    left = right := by
  induction left generalizing right with
  | nil => exact (List.map_eq_nil_iff.mp hmap.symm).symm
  | cons first left ih =>
      cases right with
      | nil => cases hmap
      | cons second right =>
          obtain ⟨hfirst, hrest⟩ := List.cons.inj hmap
          have hheads : first = second :=
            hinjective first List.mem_cons_self second List.mem_cons_self hfirst
          rw [hheads, ih hrest fun item hitem other hother =>
            hinjective item (List.mem_cons_of_mem first hitem) other
              (List.mem_cons_of_mem second hother)]

/-! ## Related items -/

/-- What is related to an item of the second list is an item of the first one. -/
theorem exists_mem_of_forall₂ {α β : Type} {relation : α → β → Prop} {left : List α}
    {right : List β} (hrelated : List.Forall₂ relation left right) {item : β}
    (hitem : item ∈ right) : ∃ other ∈ left, relation other item := by
  induction hrelated with
  | nil => cases hitem
  | @cons other first left right hfirst _ ih =>
      obtain rfl | hrest := List.mem_cons.mp hitem
      · exact ⟨other, List.mem_cons_self, hfirst⟩
      · obtain ⟨found, hfound, hrelated⟩ := ih hrest
        exact ⟨found, List.mem_cons_of_mem other hfound, hrelated⟩

/-- Items that are related to the same items are related to each other. -/
theorem forall₂_of_common {α β γ : Type} {relation : α → β → Prop} {second : α → γ → Prop}
    {third : β → γ → Prop}
    (hcommon : ∀ item left right, relation item left → second item right → third left right)
    {items : List α} {lefts : List β} {rights : List γ} (hlefts : List.Forall₂ relation items lefts)
    (hrights : List.Forall₂ second items rights) : List.Forall₂ third lefts rights := by
  induction hlefts generalizing rights with
  | nil =>
      cases hrights
      exact .nil
  | cons hleft _ ih =>
      cases hrights with
      | cons hright hrest => exact .cons (hcommon _ _ _ hleft hright) (ih hrest)

/-- What relates items of two lists one by one makes up a list between them. -/
theorem exists_forall₂_between {α β γ : Type} {relation : α → β → Prop} {second : β → γ → Prop}
    {lefts : List α} {rights : List γ}
    (hrelated : List.Forall₂ (fun left right => ∃ middle, relation left middle ∧ second middle right)
      lefts rights) :
    ∃ middles, List.Forall₂ relation lefts middles ∧ List.Forall₂ second middles rights := by
  induction hrelated with
  | nil => exact ⟨[], .nil, .nil⟩
  | cons hfirst _ ih =>
      obtain ⟨middle, hleft, hright⟩ := hfirst
      obtain ⟨middles, hlefts, hrights⟩ := ih
      exact ⟨middle :: middles, .cons hleft hlefts, .cons hright hrights⟩

/-! ## Steps for every item -/

theorem mapM_eq_some_iff {α β : Type} {step : α → Option β} {items : List α} {results : List β} :
    items.mapM step = some results ↔ items.map step = results.map some := by
  induction items generalizing results with
  | nil => cases results <;> simp
  | cons item items ih =>
      cases results with
      | nil => simp [Option.bind_eq_some_iff]
      | cons result results =>
          simp only [List.mapM_cons, bind, Option.bind_eq_some_iff, pure, Option.some.injEq,
            List.cons.injEq, List.map_cons, ih]
          constructor
          · intro h
            obtain ⟨_, hfirst, _, hrest, rfl, rfl⟩ := h
            exact ⟨hfirst, hrest⟩
          · intro h
            exact ⟨result, h.1, results, h.2, rfl, rfl⟩

/-- The results of the items are those of the list. -/
theorem mapM_eq_some_iff_forall₂ {α β : Type} {step : α → Option β} {items : List α}
    {results : List β} :
    items.mapM step = some results ↔
      List.Forall₂ (fun item result => step item = some result) items results := by
  rw [mapM_eq_some_iff, ← List.forall₂_eq_eq_eq, List.forall₂_map_left_iff,
    List.forall₂_map_right_iff]

/-- If every item has one result from some bound on, then so has the list of them. -/
theorem mapM_returns {α β : Type} {step : Nat → α → Option β} {bound : Nat} {items : List α}
    (hitems : ∀ item ∈ items, ∃ result, ∀ limit, bound ≤ limit → step limit item = some result) :
    ∃ results, ∀ limit, bound ≤ limit → items.mapM (step limit) = some results := by
  induction items with
  | nil => exact ⟨[], fun _ _ => rfl⟩
  | cons item items ih =>
      obtain ⟨result, hresult⟩ := hitems item List.mem_cons_self
      obtain ⟨results, hresults⟩ := ih fun other hother =>
        hitems other (List.mem_cons_of_mem item hother)
      refine ⟨result :: results, fun limit hlimit => ?_⟩
      simp [List.mapM_cons, hresult limit hlimit, hresults limit hlimit]

/-- Steps that agree on the items agree on the list of them. -/
theorem mapM_congr {α β : Type} {step other : α → Option β} {items : List α}
    (hitems : ∀ item ∈ items, step item = other item) : items.mapM step = items.mapM other := by
  induction items with
  | nil => rfl
  | cons item items ih =>
      rw [List.mapM_cons, List.mapM_cons, hitems item List.mem_cons_self,
        ih fun last hlast => hitems last (List.mem_cons_of_mem item hlast)]

/-- A step that depends on a part of each item can be taken for these parts first. -/
theorem mapM_zipWith {α β γ δ : Type} (part : α → β) (step : β → Option γ) (finish : α → γ → δ)
    (items : List α) :
    (items.mapM fun item => (step (part item)).map (finish item)) =
      ((items.map part).mapM step).map (List.zipWith finish items) := by
  induction items with
  | nil => rfl
  | cons item items ih =>
      rw [List.mapM_cons, ih, List.map_cons, List.mapM_cons]
      cases step (part item) with
      | none => rfl
      | some result =>
          cases (items.map part).mapM step with
          | none => rfl
          | some results => rfl

/-! ## Keys -/

/-- In a list without repeated keys, looking up a key finds its entry. -/
theorem lookup_eq_some_iff_mem {κ β : Type} [DecidableEq κ] {listed : List (κ × β)} {key : κ}
    {value : β} (hnodup : (listed.map Prod.fst).Nodup) :
    listed.lookup key = some value ↔ (key, value) ∈ listed := by
  induction listed with
  | nil => simp
  | cons first rest ih =>
      obtain ⟨other, found⟩ := first
      obtain ⟨hother, hrest⟩ := List.nodup_cons.mp hnodup
      rw [List.lookup_cons, List.mem_cons, Prod.mk.injEq]
      split
      · rename_i heq
        obtain rfl := beq_iff_eq.mp heq
        have hnot : (key, value) ∉ rest := fun hin => hother (List.mem_map.mpr ⟨_, hin, rfl⟩)
        simp [hnot, eq_comm]
      · rename_i hne
        simp [beq_eq_false_iff_ne.mp hne, ih hrest]

/-- In what order entries with distinct keys are listed does not matter to looking up a key. -/
theorem lookup_eq_of_perm {κ β : Type} [DecidableEq κ] {left right : List (κ × β)}
    (hnodup : (left.map Prod.fst).Nodup) (hperm : left.Perm right) (key : κ) :
    left.lookup key = right.lookup key := by
  have hright : (right.map Prod.fst).Nodup := (hperm.map Prod.fst).nodup_iff.mp hnodup
  refine Option.ext fun value => ?_
  rw [lookup_eq_some_iff_mem hnodup, lookup_eq_some_iff_mem hright, hperm.mem_iff]

end Inference
