import Inference.Proofs.Enumeration
import Mathlib.Data.Nat.Find

/-!
# Tables that are written out

A table that is written out has one binding for each variable. Its construction goes
through the bindings in order and stops at the first one that repeats a variable, so
it names the variable whose repetition comes first (`ofDistinct_of_firstRepeat`). If
no variable is repeated, it makes the same table as the construction that lets the
last binding for a variable count (`ofDistinct_of_nodup`).
-/

namespace Inference

/-! ## Repetitions -/

/-- The variable stands at the position, and it stands at an earlier one too. -/
def RepeatsAt (subjects : List Variable) (position : Nat) (subject : Variable) : Prop :=
  subjects[position]? = some subject ∧ ∃ earlier < position, subjects[earlier]? = some subject

/-- The variable is repeated at the position, and no variable is at an earlier one. -/
structure FirstRepeat (subjects : List Variable) (position : Nat) (subject : Variable) : Prop where
  repeats : RepeatsAt subjects position subject
  first : ∀ earlier other, RepeatsAt subjects earlier other → position ≤ earlier

variable {subjects : List Variable} {position count : Nat} {subject other : Variable}

/-- A repetition within the first variables is one of the whole list. -/
theorem RepeatsAt.of_take (hrepeats : RepeatsAt (subjects.take count) position subject) :
    position < count ∧ RepeatsAt subjects position subject := by
  obtain ⟨hposition, earlier, hlt, hearlier⟩ := hrepeats
  have hcount : position < count := by
    have hbound := (List.getElem?_eq_some_iff.mp hposition).1
    rw [List.length_take] at hbound
    omega
  rw [List.getElem?_take_of_lt hcount] at hposition
  rw [List.getElem?_take_of_lt (Nat.lt_trans hlt hcount)] at hearlier
  exact ⟨hcount, hposition, earlier, hlt, hearlier⟩

/-- Variables are distinct exactly if none is repeated. -/
theorem nodup_iff_not_repeatsAt :
    subjects.Nodup ↔ ∀ position subject, ¬ RepeatsAt subjects position subject := by
  rw [List.nodup_iff_getElem?_ne_getElem?]
  constructor
  · intro hdistinct position subject hrepeats
    obtain ⟨hposition, earlier, hlt, hearlier⟩ := hrepeats
    have hbound : position < subjects.length := (List.getElem?_eq_some_iff.mp hposition).1
    exact hdistinct earlier position hlt hbound (hearlier.trans hposition.symm)
  · intro hnone earlier position hlt hbound heq
    have hposition := List.getElem?_eq_getElem hbound
    exact hnone position subjects[position] ⟨hposition, earlier, hlt, heq.trans hposition⟩

/-- If the variables are not distinct, then one of the repetitions comes first. -/
theorem exists_firstRepeat (hrepeated : ¬ subjects.Nodup) :
    ∃ position subject, FirstRepeat subjects position subject := by
  classical
  have hexists : ∃ position subject, RepeatsAt subjects position subject := by
    by_contra hnone
    refine hrepeated (nodup_iff_not_repeatsAt.mpr ?_)
    intro position subject hrepeats
    exact hnone ⟨position, subject, hrepeats⟩
  obtain ⟨subject, hrepeats⟩ := Nat.find_spec hexists
  exact ⟨_, subject, hrepeats, fun earlier other h => Nat.find_min' hexists ⟨other, h⟩⟩

namespace FirstRepeat

theorem not_nodup (hfirst : FirstRepeat subjects position subject) : ¬ subjects.Nodup :=
  fun hdistinct => nodup_iff_not_repeatsAt.mp hdistinct position subject hfirst.repeats

/-- Up to the first repetition the variables are distinct. -/
theorem nodup_take (hfirst : FirstRepeat subjects position subject) :
    (subjects.take position).Nodup := by
  rw [nodup_iff_not_repeatsAt]
  intro earlier other hrepeats
  obtain ⟨hlt, hearlier⟩ := hrepeats.of_take
  exact Nat.not_lt_of_le (hfirst.first earlier other hearlier) hlt

/-- The first repetition is one of a variable that stands before it. -/
theorem mem_take (hfirst : FirstRepeat subjects position subject) :
    subject ∈ subjects.take position := by
  obtain ⟨-, earlier, hlt, hearlier⟩ := hfirst.repeats
  rw [List.mem_iff_getElem?]
  exact ⟨earlier, (List.getElem?_take_of_lt hlt).trans hearlier⟩

end FirstRepeat

namespace Bindings

variable {bindings grown : Bindings} {listed later : List (Variable × Ty)} {ty : Ty}

/-! ## Construction -/

/-- Exactly the listed variables are bound. -/
theorem isSome_get?_ofList :
    ((ofList listed).get? subject).isSome ↔ subject ∈ listed.map Prod.fst := by
  induction listed using List.reverseRecOn with
  | nil =>
      show false = true ↔ subject ∈ []
      simp
  | append_singleton listed last ih =>
      rw [ofList_concat, get?_insert, List.map_append, List.mem_append, ← ih, List.map_singleton,
        List.mem_singleton]
      by_cases heq : subject = last.1
      · simp [heq]
      · simp [heq]

/-- The construction of a list goes on with what it made of the first part. -/
theorem extendDistinct_append (hlisted : bindings.extendDistinct listed = .ok grown) :
    bindings.extendDistinct (listed ++ later) = grown.extendDistinct later := by
  induction listed generalizing bindings with
  | nil =>
      cases hlisted
      rfl
  | cons entry listed ih =>
      simp only [List.cons_append, extendDistinct] at hlisted ⊢
      split at hlisted
      · cases hlisted
      · rename_i hnew
        rw [if_neg hnew]
        exact ih hlisted

/-- Bindings for distinct variables are all accepted. -/
theorem ofDistinct_of_nodup (hdistinct : (listed.map Prod.fst).Nodup) :
    ofDistinct listed = .ok (ofList listed) := by
  induction listed using List.reverseRecOn with
  | nil => rfl
  | append_singleton listed last ih =>
      rw [List.map_append, List.nodup_append] at hdistinct
      obtain ⟨hlisted, -, hnew⟩ := hdistinct
      have hfree : ¬ ((ofList listed).get? last.1).isSome := by
        rw [isSome_get?_ofList]
        intro hin
        exact hnew last.1 hin last.1 List.mem_cons_self rfl
      unfold ofDistinct at ih ⊢
      rw [extendDistinct_append (ih hlisted), extendDistinct, if_neg hfree, ofList_concat]
      rfl

/-- The first repetition of a variable is refused. -/
theorem ofDistinct_of_firstRepeat
    (hfirst : FirstRepeat (listed.map Prod.fst) position subject) :
    ofDistinct listed = .error subject := by
  have hbefore : ofDistinct (listed.take position) = .ok (ofList (listed.take position)) := by
    refine ofDistinct_of_nodup ?_
    rw [List.map_take]
    exact hfirst.nodup_take
  have hbound : ((ofList (listed.take position)).get? subject).isSome := by
    rw [isSome_get?_ofList, List.map_take]
    exact hfirst.mem_take
  have hposition := hfirst.repeats.1
  rw [List.getElem?_map, Option.map_eq_some_iff] at hposition
  obtain ⟨entry, hentry, rfl⟩ := hposition
  have hsplit : listed = listed.take position ++ entry :: listed.drop (position + 1) := by
    obtain ⟨hlt, rfl⟩ := List.getElem?_eq_some_iff.mp hentry
    rw [← List.drop_eq_getElem_cons hlt, List.take_append_drop]
  unfold ofDistinct at hbefore ⊢
  rw [hsplit, extendDistinct_append hbefore, extendDistinct, if_pos hbound]

/-- A variable is refused exactly if its repetition comes first. -/
theorem ofDistinct_eq_error_iff : ofDistinct listed = .error subject ↔
    ∃ position, FirstRepeat (listed.map Prod.fst) position subject := by
  constructor
  · intro herror
    have hrepeated : ¬ (listed.map Prod.fst).Nodup := by
      intro hdistinct
      rw [ofDistinct_of_nodup hdistinct] at herror
      cases herror
    obtain ⟨position, other, hfirst⟩ := exists_firstRepeat hrepeated
    rw [ofDistinct_of_firstRepeat hfirst] at herror
    cases herror
    exact ⟨position, hfirst⟩
  · rintro ⟨position, hfirst⟩
    exact ofDistinct_of_firstRepeat hfirst

/-- Bindings are all accepted exactly if they are for distinct variables. -/
theorem ofDistinct_eq_ok_iff : ofDistinct listed = .ok bindings ↔
    (listed.map Prod.fst).Nodup ∧ bindings = ofList listed := by
  constructor
  · intro hok
    have hdistinct : (listed.map Prod.fst).Nodup := by
      by_contra hrepeated
      obtain ⟨position, subject, hfirst⟩ := exists_firstRepeat hrepeated
      rw [ofDistinct_of_firstRepeat hfirst] at hok
      cases hok
    rw [ofDistinct_of_nodup hdistinct] at hok
    cases hok
    exact ⟨hdistinct, rfl⟩
  · rintro ⟨hdistinct, rfl⟩
    exact ofDistinct_of_nodup hdistinct

/-! ## Maps with the listed entries -/

/-- A map has the listed entries, in whatever order, exactly if it is the map that is made from the
list. -/
theorem perm_entries_iff (hdistinct : (listed.map Prod.fst).Nodup) :
    bindings.entries.Perm listed ↔ bindings = ofList listed := by
  constructor
  · intro hperm
    exact (ofList_of_perm hperm.symm).symm
  · rintro rfl
    have hentries : ((ofList listed).entries.map Prod.fst).Nodup := nodup_of_perm (.refl _)
    refine (List.perm_ext_iff_of_nodup hentries.of_map hdistinct.of_map).mpr ?_
    rintro ⟨subject, ty⟩
    rw [mem_entries_iff, get?_ofList_eq_some_iff hdistinct]

/-- A variable is bound to what its last entry says. -/
theorem get?_ofList_iff_last : (ofList listed).get? subject = some ty ↔
    ∃ before after, listed = before ++ (subject, ty) :: after ∧
      subject ∉ after.map Prod.fst := by
  induction listed using List.reverseRecOn with
  | nil =>
      show (none : Option Ty) = some ty ↔ _
      simp
  | append_singleton listed last ih =>
      obtain ⟨other, bound⟩ := last
      simp only [ofList_concat, get?_insert, append_singleton_eq_iff]
      -- The new entry is the last one for its own variable only.
      by_cases heq : subject = other
      · subst heq
        rw [if_pos rfl, Option.some.injEq]
        constructor
        · intro hbound
          exact ⟨listed, [], .inl ⟨rfl, congrArg (subject, ·) hbound, rfl⟩, List.not_mem_nil⟩
        · rintro ⟨before, after, ⟨-, hentry, -⟩ | ⟨rest, rfl, -⟩, hnew⟩
          · exact congrArg Prod.snd hentry
          · simp at hnew
      · rw [if_neg heq, ih]
        constructor
        · rintro ⟨before, after, hlisted, hnew⟩
          exact ⟨before, after ++ [(other, bound)], .inr ⟨after, rfl, hlisted⟩, by
            simpa [heq] using hnew⟩
        · rintro ⟨before, after, ⟨-, hentry, -⟩ | ⟨rest, rfl, hlisted⟩, hnew⟩
          · exact absurd (congrArg Prod.fst hentry).symm heq
          · refine ⟨before, rest, hlisted, fun hin => hnew ?_⟩
            rw [List.map_append, List.mem_append]
            exact .inl hin

end Bindings

namespace Table

variable {listed : List (Variable × Ty)} {table : Table} {subject : Variable}

theorem ofLiteral_eq_error_iff : ofLiteral listed = .error (.boundTwice subject) ↔
    ∃ position, FirstRepeat (listed.map Prod.fst) position subject := by
  rw [← Bindings.ofDistinct_eq_error_iff, ofLiteral]
  cases Bindings.ofDistinct listed <;> simp

theorem exists_error_iff :
    (∃ error, ofLiteral listed = .error error) ↔ ¬ (listed.map Prod.fst).Nodup := by
  constructor
  · rintro ⟨⟨subject⟩, herror⟩
    obtain ⟨position, hfirst⟩ := ofLiteral_eq_error_iff.mp herror
    exact hfirst.not_nodup
  · intro hrepeated
    obtain ⟨position, subject, hfirst⟩ := exists_firstRepeat hrepeated
    exact ⟨.boundTwice subject, ofLiteral_eq_error_iff.mpr ⟨position, hfirst⟩⟩

theorem ofLiteral_eq_ok_iff : ofLiteral listed = .ok table ↔
    (listed.map Prod.fst).Nodup ∧ table = ofList listed := by
  have hdistinct : ofLiteral listed = .ok table ↔
      ∃ bindings, Bindings.ofDistinct listed = .ok bindings ∧ table = ofBindings bindings := by
    rw [ofLiteral]
    cases Bindings.ofDistinct listed <;> simp [eq_comm]
  simp only [hdistinct, Bindings.ofDistinct_eq_ok_iff]
  constructor
  · rintro ⟨_, ⟨hnodup, rfl⟩, rfl⟩
    exact ⟨hnodup, rfl⟩
  · rintro ⟨hnodup, rfl⟩
    exact ⟨_, ⟨hnodup, rfl⟩, rfl⟩

-- Two variables are repeated. The one that comes first is not the one whose repetition comes first.
example : ofLiteral [(⟨0⟩, .tuple 0), (⟨1⟩, .tuple 1), (⟨1⟩, .tuple 1), (⟨0⟩, .tuple 2)] =
    .error (.boundTwice ⟨1⟩) := rfl

end Table

end Inference
