/-!
# Ascending lists

A finite set has exactly one strictly ascending list of its members. Inserting
into an ascending list keeps it ascending, so `ofList` computes that list from
any enumeration of the set, whatever its order and repetitions.
-/

namespace Inference

namespace Ascending

/-- Lists that ascend by a strict order are equal if the same items occur in them. -/
theorem eq_of_mem_iff {α : Type} {order : α → α → Prop} (hirrefl : ∀ item, ¬ order item item)
    (htrans : ∀ {first second third}, order first second → order second third →
      order first third) :
    ∀ {left right : List α}, left.Pairwise order → right.Pairwise order →
      (∀ item, item ∈ left ↔ item ∈ right) → left = right
  | [], [], _, _, _ => rfl
  | [], item :: _, _, _, hmem => by simpa using (hmem item).mpr
  | item :: _, [], _, _, hmem => by simpa using (hmem item).mp
  | first :: left, second :: right, hleft, hright, hmem => by
      obtain ⟨hfirst, hrest⟩ := List.pairwise_cons.mp hleft
      obtain ⟨hsecond, hothers⟩ := List.pairwise_cons.mp hright
      have hheads : first = second := by
        rcases List.mem_cons.mp ((hmem first).mp List.mem_cons_self) with heq | hin
        · exact heq
        · rcases List.mem_cons.mp ((hmem second).mpr List.mem_cons_self) with heq | hin'
          · exact heq.symm
          · exact absurd (htrans (hfirst _ hin') (hsecond _ hin)) (hirrefl first)
      subst hheads
      congr 1
      refine eq_of_mem_iff hirrefl htrans hrest hothers fun item => ?_
      by_cases h : item = first
      · subst h
        exact ⟨fun hin => absurd (hfirst _ hin) (hirrefl _),
          fun hin => absurd (hsecond _ hin) (hirrefl _)⟩
      · simpa [h] using hmem item

variable {α : Type} [LT α] [DecidableLT α] [DecidableEq α]

/-- Put an item before the first greater one, unless it is already there. -/
def insert (item : α) : List α → List α
  | [] => [item]
  | first :: rest =>
      if item < first then item :: first :: rest
      else if item = first then first :: rest
      else first :: insert item rest

/-- The ascending list of the members of a list. -/
def ofList (items : List α) : List α := items.foldr insert []

@[simp]
theorem mem_insert {item other : α} {items : List α} :
    other ∈ insert item items ↔ other = item ∨ other ∈ items := by
  induction items with
  | nil => simp [insert]
  | cons first rest ih => grind [insert]

@[simp]
theorem mem_ofList {item : α} {items : List α} : item ∈ ofList items ↔ item ∈ items := by
  induction items with
  | nil => simp [ofList]
  | cons first rest ih => simp [ofList] at ih ⊢; rw [ih]

/-- Inserting keeps a list strictly ascending. -/
theorem pairwise_insert [Trans (α := α) (· < ·) (· < ·) (· < ·)]
    [Std.Trichotomous (α := α) (· < ·)] {item : α} {items : List α}
    (hitems : items.Pairwise (· < ·)) : (insert item items).Pairwise (· < ·) := by
  induction items with
  | nil => simp [insert]
  | cons first rest ih =>
      obtain ⟨hfirst, hrest⟩ := List.pairwise_cons.mp hitems
      simp only [insert]
      split
      · rename_i hlt
        refine List.pairwise_cons.mpr ⟨fun other hother => ?_, hitems⟩
        rcases List.mem_cons.mp hother with rfl | hin
        · exact hlt
        · exact Trans.trans hlt (hfirst _ hin)
      · split
        · exact hitems
        · rename_i hnot hne
          refine List.pairwise_cons.mpr ⟨fun other hother => ?_, ih hrest⟩
          rcases mem_insert.mp hother with rfl | hin
          · exact Classical.byContradiction fun h =>
              hne ((inferInstance : Std.Trichotomous (α := α) (· < ·)).trichotomous _ _ hnot h)
          · exact hfirst _ hin

theorem pairwise_ofList [Trans (α := α) (· < ·) (· < ·) (· < ·)]
    [Std.Trichotomous (α := α) (· < ·)] (items : List α) :
    (ofList items).Pairwise (· < ·) := by
  induction items with
  | nil => simp [ofList]
  | cons first rest ih => exact pairwise_insert ih

/-- Listings of the same set, in whatever order and with whatever repetitions, have the same
ascending list. -/
theorem ofList_eq_ofList_iff [Std.Irrefl (α := α) (· < ·)]
    [Trans (α := α) (· < ·) (· < ·) (· < ·)] [Std.Trichotomous (α := α) (· < ·)]
    {left right : List α} :
    ofList left = ofList right ↔ ∀ item, item ∈ left ↔ item ∈ right := by
  refine ⟨fun h item => ?_, fun h => ?_⟩
  · rw [← mem_ofList, h, mem_ofList]
  · exact eq_of_mem_iff (inferInstance : Std.Irrefl (α := α) (· < ·)).irrefl Trans.trans
      (pairwise_ofList _) (pairwise_ofList _) fun item => by simpa using h item

end Ascending

end Inference
