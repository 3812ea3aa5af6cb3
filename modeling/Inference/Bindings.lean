import Inference.Ascending
import Inference.Ty

/-!
# Bindings

Bindings are a finite map from variables to types, kept as its entries in
increasing order of the variables. Maps that give every variable the same type
are therefore equal as values, and enumerating the entries shows nothing of the
order in which they were inserted.

A variable is looked up by bisection of the few positions that its number leaves
(`window`), because chains of variables are followed one lookup after the other.
`get?_eq_lookup` says that this finds what going through the entries finds, and
`entries_insert` that an entry put at the end is in its place, so nothing else
depends on how entries are searched.
-/

namespace Inference

namespace Variable

theorem lt_iff {left right : Variable} : left < right ↔ left.id < right.id := Iff.rfl

theorem eq_of_not_lt {left right : Variable} (hleft : ¬ left < right) (hright : ¬ right < left) :
    left = right := by
  cases left
  cases right
  simp only [lt_iff, mk.injEq] at *
  omega

end Variable

/-- A finite map from variables to types, as its entries in increasing order. -/
structure Bindings where
  items : Array (Variable × Ty)
  ascending : items.toList.Pairwise fun left right => left.1 < right.1
  deriving DecidableEq

namespace Bindings

/-- The map without entries. -/
def empty : Bindings := ⟨#[], .nil⟩

instance : EmptyCollection Bindings := ⟨empty⟩

instance : Inhabited Bindings := ⟨empty⟩

/-- The entries in increasing order. -/
def entries (bindings : Bindings) : List (Variable × Ty) := bindings.items.toList

/-- The number of bound variables. -/
def size (bindings : Bindings) : Nat := bindings.items.size

/-- Whether no variable is bound. -/
def isEmpty (bindings : Bindings) : Bool := bindings.items.isEmpty

/-- The bound variables, in increasing order. -/
def keys (bindings : Bindings) : List Variable := bindings.entries.map Prod.fst

/-! ## Lookup -/

/-- The type in the first entry for a variable. -/
def lookup (subject : Variable) : List (Variable × Ty) → Option Ty
  | [] => none
  | (other, ty) :: rest => if subject = other then some ty else lookup subject rest

/-- Search the entries from position `low` up to position `high` by bisection, in at most this
many steps. -/
def search (items : Array (Variable × Ty)) (subject : Variable) : Nat → Nat → Nat → Option Ty
  | 0, _, _ => none
  | steps + 1, low, high =>
      if low < high then
        let middle := (low + high) / 2
        match items[middle]? with
        | none => none
        | some (other, ty) =>
            if other = subject then some ty
            else if other < subject then search items subject steps (middle + 1) high
            else search items subject steps low middle
      else none

/-- The positions that a variable can have in ascending items, from the first one to before the
second. The numbers of the variables grow by one at least from each position to the next, so a
position is no further from either end than the numbers are apart. Variables are numbered one
after the other, so few positions are left to search. -/
def window (items : Array (Variable × Ty)) (subject : Variable) : Nat × Nat :=
  match items[0]?, items[items.size - 1]? with
  | some first, some last =>
      (items.size - 1 - (last.1.id - subject.id), min items.size (subject.id - first.1.id + 1))
  | _, _ => (0, 0)

/-- The type that a variable is bound to. -/
def get? (bindings : Bindings) (subject : Variable) : Option Ty :=
  let (low, high) := window bindings.items subject
  search bindings.items subject bindings.size low high

/-- Ascending entries have an entry exactly where the lookup finds one. -/
theorem mem_iff_lookup {entries : List (Variable × Ty)}
    (hentries : entries.Pairwise fun left right => left.1 < right.1)
    {subject : Variable} {ty : Ty} :
    (subject, ty) ∈ entries ↔ lookup subject entries = some ty := by
  induction entries with
  | nil => simp [lookup]
  | cons first rest ih =>
      obtain ⟨other, bound⟩ := first
      obtain ⟨hfirst, hrest⟩ := List.pairwise_cons.mp hentries
      simp only [lookup, List.mem_cons, Prod.mk.injEq]
      split
      · rename_i heq
        subst heq
        have hnot : (subject, ty) ∉ rest := fun hin =>
          Nat.lt_irrefl _ (hfirst (subject, ty) hin)
        simp [hnot, eq_comm]
      · rename_i hne
        simp [hne, ih hrest]

/-- In ascending items, an earlier position has a smaller variable. -/
theorem lt_of_getElem? {items : Array (Variable × Ty)}
    (hitems : items.toList.Pairwise fun left right => left.1 < right.1)
    {first second : Nat} {left right : Variable × Ty} (hfirst : items[first]? = some left)
    (hsecond : items[second]? = some right) (hlt : first < second) : left.1 < right.1 := by
  rw [← Array.getElem?_toList, List.getElem?_eq_some_iff] at hfirst hsecond
  obtain ⟨hfirst, rfl⟩ := hfirst
  obtain ⟨hsecond, rfl⟩ := hsecond
  exact List.pairwise_iff_getElem.mp hitems first second hfirst hsecond hlt

/-- With enough steps, bisection finds the type of a variable exactly if one of the positions
searched has an entry with both. -/
theorem search_eq_some_iff {items : Array (Variable × Ty)}
    (hitems : items.toList.Pairwise fun left right => left.1 < right.1)
    {subject : Variable} {ty : Ty} {steps low high : Nat} (hhigh : high ≤ items.size)
    (hsteps : high - low ≤ steps) :
    search items subject steps low high = some ty ↔
      ∃ position, low ≤ position ∧ position < high ∧ items[position]? = some (subject, ty) := by
  induction steps generalizing low high with
  | zero =>
      simp only [search, reduceCtorEq, false_iff]
      rintro ⟨position, hlow, hless, -⟩
      omega
  | succ steps ih =>
      simp only [search]
      split
      · rename_i hlt
        have hmiddle : (low + high) / 2 < items.size := by omega
        obtain ⟨⟨other, bound⟩, hother⟩ : ∃ entry, items[(low + high) / 2]? = some entry :=
          ⟨_, Array.getElem?_eq_getElem hmiddle⟩
        rw [hother]
        simp only
        split
        · rename_i heq
          subst heq
          constructor
          · rintro h
            cases h
            exact ⟨(low + high) / 2, by omega, by omega, hother⟩
          · rintro ⟨position, hlow, hless, hposition⟩
            rcases Nat.lt_trichotomy position ((low + high) / 2) with h | h | h
            · exact absurd (lt_of_getElem? hitems hposition hother h) (Nat.lt_irrefl _)
            · subst h
              rw [hother] at hposition
              cases hposition
              rfl
            · exact absurd (lt_of_getElem? hitems hother hposition h) (Nat.lt_irrefl _)
        · rename_i hne
          split
          · rename_i hbefore
            rw [ih hhigh (by omega)]
            constructor
            · rintro ⟨position, hlow, hless, hposition⟩
              exact ⟨position, by omega, hless, hposition⟩
            · rintro ⟨position, hlow, hless, hposition⟩
              refine ⟨position, ?_, hless, hposition⟩
              rcases Nat.lt_trichotomy position ((low + high) / 2) with h | h | h
              · exact absurd (Nat.lt_trans (lt_of_getElem? hitems hposition hother h) hbefore)
                  (Nat.lt_irrefl _)
              · subst h
                rw [hother] at hposition
                cases hposition
                exact absurd rfl hne
              · exact h
          · rename_i hnot
            rw [ih (by omega) (by omega)]
            constructor
            · rintro ⟨position, hlow, hless, hposition⟩
              exact ⟨position, hlow, by omega, hposition⟩
            · rintro ⟨position, hlow, hless, hposition⟩
              refine ⟨position, hlow, ?_, hposition⟩
              rcases Nat.lt_trichotomy position ((low + high) / 2) with h | h | h
              · exact h
              · subst h
                rw [hother] at hposition
                cases hposition
                exact absurd rfl hne
              · exact absurd (lt_of_getElem? hitems hother hposition h) hnot
      · rename_i hnot
        simp only [reduceCtorEq, false_iff]
        rintro ⟨position, hlow, hless, -⟩
        omega

/-- In ascending items, the numbers of two variables are at least as far apart as their
positions. -/
theorem id_add_le_of_getElem? {items : Array (Variable × Ty)}
    (hitems : items.toList.Pairwise fun left right => left.1 < right.1)
    {first : Nat} (distance : Nat) {left right : Variable × Ty}
    (hfirst : items[first]? = some left) (hsecond : items[first + distance]? = some right) :
    left.1.id + distance ≤ right.1.id := by
  induction distance generalizing right with
  | zero =>
      rw [Nat.add_zero, hfirst] at hsecond
      cases hsecond
      exact Nat.le_refl _
  | succ distance ih =>
      obtain ⟨hbound, -⟩ := Array.getElem?_eq_some_iff.mp hsecond
      have hmiddle := Array.getElem?_eq_getElem (Nat.lt_of_succ_lt hbound)
      have hlt := lt_of_getElem? hitems hmiddle hsecond (Nat.lt_succ_self _)
      exact Nat.lt_of_le_of_lt (ih hmiddle) hlt

theorem window_snd_le_size (items : Array (Variable × Ty)) (subject : Variable) :
    (window items subject).2 ≤ items.size := by
  unfold window
  split
  · exact Nat.min_le_left _ _
  · exact Nat.zero_le _

/-- Every position of a variable is in its window. -/
theorem mem_window {items : Array (Variable × Ty)}
    (hitems : items.toList.Pairwise fun left right => left.1 < right.1)
    {subject : Variable} {ty : Ty} {position : Nat}
    (hposition : items[position]? = some (subject, ty)) :
    (window items subject).1 ≤ position ∧ position < (window items subject).2 := by
  obtain ⟨hbound, -⟩ := Array.getElem?_eq_some_iff.mp hposition
  have hfirst := Array.getElem?_eq_getElem (Nat.zero_lt_of_lt hbound)
  have hlast := Array.getElem?_eq_getElem (Nat.sub_one_lt (Nat.ne_zero_of_lt hbound))
  have hbefore := id_add_le_of_getElem? hitems position hfirst
    (by rw [Nat.zero_add]; exact hposition)
  have hafter := id_add_le_of_getElem? hitems (items.size - 1 - position) hposition
    (by rw [Nat.add_sub_cancel' (Nat.le_sub_one_of_lt hbound)]; exact hlast)
  simp only [window, hfirst, hlast] at hbefore hafter ⊢
  omega

theorem mem_entries_iff {bindings : Bindings} {subject : Variable} {ty : Ty} :
    (subject, ty) ∈ bindings.entries ↔ bindings.get? subject = some ty := by
  have hhigh := window_snd_le_size bindings.items subject
  rw [get?, size, search_eq_some_iff bindings.ascending hhigh
    (Nat.le_trans (Nat.sub_le _ _) hhigh), entries, List.mem_iff_getElem?]
  constructor
  · rintro ⟨position, hposition⟩
    rw [Array.getElem?_toList] at hposition
    obtain ⟨hlow, hless⟩ := mem_window bindings.ascending hposition
    exact ⟨position, hlow, hless, hposition⟩
  · rintro ⟨position, -, -, hposition⟩
    exact ⟨position, by rw [Array.getElem?_toList]; exact hposition⟩

/-- Bisection finds what going through the entries finds. -/
theorem get?_eq_lookup (bindings : Bindings) (subject : Variable) :
    bindings.get? subject = lookup subject bindings.entries :=
  Option.ext fun _ => mem_entries_iff.symm.trans (mem_iff_lookup bindings.ascending)

/-! ## Insertion -/

/-- Put an entry in its place among ascending entries, where it replaces one for the same
variable. -/
def insertEntry (subject : Variable) (ty : Ty) :
    List (Variable × Ty) → List (Variable × Ty)
  | [] => [(subject, ty)]
  | (other, bound) :: rest =>
      if subject < other then (subject, ty) :: (other, bound) :: rest
      else if subject = other then (subject, ty) :: rest
      else (other, bound) :: insertEntry subject ty rest

theorem mem_insertEntry {subject : Variable} {ty : Ty} {entry : Variable × Ty}
    {entries : List (Variable × Ty)} (hentry : entry ∈ insertEntry subject ty entries) :
    entry = (subject, ty) ∨ entry ∈ entries := by
  induction entries with
  | nil => simpa [insertEntry] using hentry
  | cons first rest ih => grind [insertEntry]

theorem pairwise_insertEntry {subject : Variable} {ty : Ty} {entries : List (Variable × Ty)}
    (hentries : entries.Pairwise fun left right => left.1 < right.1) :
    (insertEntry subject ty entries).Pairwise fun left right => left.1 < right.1 := by
  induction entries with
  | nil => simp [insertEntry]
  | cons first rest ih =>
      obtain ⟨other, bound⟩ := first
      obtain ⟨hfirst, hrest⟩ := List.pairwise_cons.mp hentries
      simp only [insertEntry]
      split
      · rename_i hlt
        refine List.pairwise_cons.mpr ⟨fun entry hentry => ?_, hentries⟩
        rcases List.mem_cons.mp hentry with rfl | hin
        · exact hlt
        · exact Nat.lt_trans hlt (hfirst _ hin)
      · split
        · rename_i heq
          subst heq
          exact List.pairwise_cons.mpr ⟨hfirst, hrest⟩
        · rename_i hnot hne
          refine List.pairwise_cons.mpr ⟨fun entry hentry => ?_, ih hrest⟩
          rcases mem_insertEntry hentry with rfl | hin
          · exact Classical.byContradiction fun h => hne (Variable.eq_of_not_lt hnot h)
          · exact hfirst _ hin

/-- An entry for a variable above all others is put at the end. -/
theorem insertEntry_eq_append {subject : Variable} {ty : Ty} {entries : List (Variable × Ty)}
    (hentries : ∀ entry ∈ entries, entry.1 < subject) :
    insertEntry subject ty entries = entries ++ [(subject, ty)] := by
  induction entries with
  | nil => rfl
  | cons first rest ih =>
      have hfirst : first.1.id < subject.id := hentries first List.mem_cons_self
      have hnot : ¬ subject < first.1 := Nat.lt_asymm hfirst
      have hne : subject ≠ first.1 := fun h => Nat.lt_irrefl _ (h ▸ hfirst)
      simp only [insertEntry, if_neg hnot, if_neg hne, List.cons_append,
        ih fun entry hin => hentries entry (List.mem_cons_of_mem _ hin)]

/-- Whether all variables of ascending items are below a variable, which is so if the last one
is. -/
def isAbove (items : Array (Variable × Ty)) (subject : Variable) : Bool :=
  match items[items.size - 1]? with
  | some last => last.1 < subject
  | none => true

theorem lt_of_isAbove {items : Array (Variable × Ty)}
    (hitems : items.toList.Pairwise fun left right => left.1 < right.1)
    {subject : Variable} (habove : isAbove items subject) :
    ∀ entry ∈ items.toList, entry.1 < subject := by
  intro entry hentry
  obtain ⟨position, hposition⟩ := List.mem_iff_getElem?.mp hentry
  rw [Array.getElem?_toList] at hposition
  obtain ⟨hbound, -⟩ := Array.getElem?_eq_some_iff.mp hposition
  have hlast := Array.getElem?_eq_getElem (Nat.sub_one_lt (Nat.ne_zero_of_lt hbound))
  have hafter := id_add_le_of_getElem? hitems (items.size - 1 - position) hposition
    (by rw [Nat.add_sub_cancel' (Nat.le_sub_one_of_lt hbound)]; exact hlast)
  simp only [isAbove, hlast, decide_eq_true_eq] at habove
  exact Nat.lt_of_le_of_lt (Nat.le_trans (Nat.le_add_right _ _) hafter) habove

/-- The items with one more entry, or with another one for the same variable. An entry for a
variable above all others needs no search for its place. -/
def insertItem (items : Array (Variable × Ty)) (subject : Variable) (ty : Ty) :
    Array (Variable × Ty) :=
  if isAbove items subject then items.push (subject, ty)
  else (insertEntry subject ty items.toList).toArray

theorem toList_insertItem {items : Array (Variable × Ty)}
    (hitems : items.toList.Pairwise fun left right => left.1 < right.1)
    (subject : Variable) (ty : Ty) :
    (insertItem items subject ty).toList = insertEntry subject ty items.toList := by
  unfold insertItem
  split
  · rename_i habove
    rw [Array.toList_push, insertEntry_eq_append (lt_of_isAbove hitems habove)]
  · rfl

/-- Bind a variable to a type, whatever it was bound to before. -/
def insert (bindings : Bindings) (subject : Variable) (ty : Ty) : Bindings :=
  ⟨insertItem bindings.items subject ty, by
    rw [toList_insertItem bindings.ascending]
    exact pairwise_insertEntry bindings.ascending⟩

theorem entries_insert (bindings : Bindings) (subject : Variable) (ty : Ty) :
    (bindings.insert subject ty).entries = insertEntry subject ty bindings.entries :=
  toList_insertItem bindings.ascending subject ty

theorem lookup_insertEntry (subject other : Variable) (ty : Ty)
    (entries : List (Variable × Ty)) :
    lookup other (insertEntry subject ty entries) =
      if other = subject then some ty else lookup other entries := by
  induction entries with
  | nil => rfl
  | cons first rest ih => grind [insertEntry, lookup]

theorem get?_insert (bindings : Bindings) (subject other : Variable) (ty : Ty) :
    (bindings.insert subject ty).get? other =
      if other = subject then some ty else bindings.get? other := by
  rw [get?_eq_lookup, get?_eq_lookup, entries_insert, lookup_insertEntry]

/-! ## Extensionality -/

/-- Ascending entries are determined by their members. -/
theorem eq_of_mem_entries_iff {left right : List (Variable × Ty)}
    (hleft : left.Pairwise (·.1 < ·.1)) (hright : right.Pairwise (·.1 < ·.1))
    (hmem : ∀ entry, entry ∈ left ↔ entry ∈ right) : left = right :=
  Ascending.eq_of_mem_iff (fun entry => Nat.lt_irrefl entry.1.id)
    (fun {first second third} (h : first.1.id < second.1.id) (h' : second.1.id < third.1.id) =>
      Nat.lt_trans h h') hleft hright hmem

/-- Maps that bind every variable alike are equal. -/
@[ext]
theorem ext {left right : Bindings} (hget : ∀ subject, left.get? subject = right.get? subject) :
    left = right := by
  have hmem : ∀ entry, entry ∈ left.entries ↔ entry ∈ right.entries := fun (subject, ty) => by
    rw [mem_entries_iff, mem_entries_iff, hget]
  obtain ⟨⟨left⟩, hleft⟩ := left
  obtain ⟨⟨right⟩, hright⟩ := right
  congr
  exact eq_of_mem_entries_iff hleft hright hmem

/-! ## Construction from lists -/

/-- The map of listed entries; of several entries for one variable the last one counts. -/
def ofList (listed : List (Variable × Ty)) : Bindings :=
  listed.foldl (fun bindings entry => bindings.insert entry.1 entry.2) ∅

/-- Add listed entries one after the other, unless one of them is for a variable that is bound by
then; that variable is the error. -/
def extendDistinct (bindings : Bindings) : List (Variable × Ty) → Except Variable Bindings
  | [] => .ok bindings
  | (subject, ty) :: rest =>
      if (bindings.get? subject).isSome then .error subject
      else (bindings.insert subject ty).extendDistinct rest

/-- The map of listed entries for distinct variables. The error is the first variable whose
second entry is reached. -/
def ofDistinct (listed : List (Variable × Ty)) : Except Variable Bindings :=
  empty.extendDistinct listed

end Bindings

end Inference
