import Inference.Proofs.Lists
import Inference.Stored

/-!
# Formats of stored data

A value is stored as one datum, but many data stand for it. A structure is a list of
its fields in order, or a record with the fields in any order, with fields of other
names and without the texts that are absent (`Datum.Structured`). A set of cases is
listed in any order and with any repetitions. `StandsFor` says for every kind of
value which data these are, at every depth, and it does so without reading them.

Reading a structure takes its fields apart as the relation does
(`Datum.fields?_eq_some_iff`).
-/

namespace Inference

namespace Datum

/-- The fields that hold these contents. A name without content is left out. -/
def named (names : List String) (contents : List (Option Datum)) : List (String × Datum) :=
  (names.zip contents).filterMap fun (name, content) => content.map (name, ·)

/-- The datum is a structure with these contents of its fields. Fields without content are left
out, which only a record can do. -/
inductive Structured (names : List String) : List (Option Datum) → Datum → Prop where
  | list {items : List Datum} :
      items.length = names.length → Structured names (items.map some) (.list items)
  | record {contents : List (Option Datum)} {others fields : List (String × Datum)} :
      contents.length = names.length → (∀ field ∈ others, field.1 ∉ names) →
      fields.Perm (named names contents ++ others) → Structured names contents (.record fields)

/-- The datum is the alternative with this name, and what it holds is as demanded. -/
def Alternative (name : String) (demand : Datum → Prop) (datum : Datum) : Prop :=
  ∃ content, datum = .record [(name, content)] ∧ demand content

/-- The field holds a text, or it says or leaves open that there is none. -/
inductive OptionalText : Option Datum → Option String → Prop where
  | missing : OptionalText none none
  | null : OptionalText (some .null) none
  | text (value) : OptionalText (some (.text value)) (some value)

variable {names : List String} {contents : List (Option Datum)} {datum : Datum} {name : String}

/-! ## Fields of a structure -/

theorem named_cons (name : String) (content : Option Datum) :
    named (name :: names) (content :: contents) =
      (content.map (name, ·)).toList ++ named names contents := by
  cases content <;> rfl

theorem sublist_keys_named (names : List String) (contents : List (Option Datum)) :
    ((named names contents).map Prod.fst).Sublist names := by
  induction names generalizing contents with
  | nil => exact List.Sublist.refl []
  | cons name names ih =>
      cases contents with
      | nil => exact List.nil_sublist _
      | cons content contents =>
          cases content with
          | none => exact (ih contents).cons name
          | some datum => exact (ih contents).cons_cons name

theorem mem_named_map {fields : String → Option Datum} {content : Datum} :
    (name, content) ∈ named names (names.map fields) ↔
      name ∈ names ∧ fields name = some content := by
  induction names with
  | nil => simp [named]
  | cons first names ih =>
      rw [List.map_cons, named_cons, List.mem_append, ih, List.mem_cons]
      cases hfirst : fields first <;> grind

/-- What is found under the names are the contents. -/
theorem map_lookup_named (hnames : names.Nodup) (hlength : contents.length = names.length) :
    names.map (fun name => (named names contents).lookup name) = contents := by
  induction names generalizing contents with
  | nil => exact (List.length_eq_zero_iff.mp hlength).symm
  | cons name names ih =>
      obtain ⟨hname, hnames⟩ := List.nodup_cons.mp hnames
      cases contents with
      | nil => cases hlength
      | cons content contents =>
          have hrest := ih hnames (Nat.succ.inj hlength)
          have habsent : (named names contents).lookup name = none := by
            refine List.lookup_eq_none_iff.mpr fun field hfield => ?_
            have hkey := (sublist_keys_named names contents).subset (List.mem_map_of_mem hfield)
            exact bne_iff_ne.mpr fun heq => hname (heq ▸ hkey)
          cases content with
          | none => exact congrArg₂ List.cons habsent hrest
          | some datum =>
              refine congrArg₂ List.cons List.lookup_cons_self ?_
              rw [← hrest]
              refine List.map_congr_left fun other hother => ?_
              have hne : (other == name) = false :=
                beq_eq_false_iff_ne.mpr fun heq => hname (heq ▸ hother)
              rw [named_cons, Option.map_some, Option.toList_some, List.singleton_append,
                List.lookup_cons, hne, hrest]

/-- The fields that belong to the structure are those of its names, with what is found there. -/
theorem ownFields_perm_named (hnames : names.Nodup) {fields : List (String × Datum)}
    (hnodup : ((ownFields names fields).map Prod.fst).Nodup) :
    (ownFields names fields).Perm
      (named names (names.map fun name => (ownFields names fields).lookup name)) := by
  have hnamed : (named names
      (names.map fun name => (ownFields names fields).lookup name)).Nodup :=
    ((sublist_keys_named _ _).nodup hnames).of_map
  refine (List.perm_ext_iff_of_nodup hnodup.of_map hnamed).mpr ?_
  rintro ⟨name, content⟩
  rw [mem_named_map, lookup_eq_some_iff_mem hnodup]
  simp +contextual [ownFields]

/-- Fields with other names do not belong to the structure. -/
theorem ownFields_of_perm {others fields : List (String × Datum)}
    (hothers : ∀ field ∈ others, field.1 ∉ names)
    (hperm : fields.Perm (named names contents ++ others)) :
    (ownFields names fields).Perm (named names contents) := by
  have hknown : ownFields names (named names contents) = named names contents := by
    refine List.filter_eq_self.mpr fun field hfield => decide_eq_true ?_
    exact (sublist_keys_named names contents).subset (List.mem_map_of_mem hfield)
  have hunknown : ownFields names others = [] :=
    List.filter_eq_nil_iff.mpr fun field hfield => by simpa using hothers field hfield
  have happend : ownFields names (named names contents ++ others) =
      ownFields names (named names contents) ++ ownFields names others := List.filter_append ..
  have hown : (ownFields names fields).Perm (ownFields names (named names contents ++ others)) :=
    hperm.filter _
  rwa [happend, hknown, hunknown, List.append_nil] at hown

/-- Reading the fields of a structure finds their contents. -/
theorem fields?_eq_some_iff (hnames : names.Nodup) :
    datum.fields? names = some contents ↔ Structured names contents datum := by
  constructor
  · intro hfields
    cases datum with
    | list items =>
        simp only [fields?] at hfields
        split at hfields
        · rename_i hlength
          cases hfields
          exact .list hlength
        · cases hfields
    | record fields =>
        simp only [fields?] at hfields
        split at hfields
        · rename_i hnodup
          cases hfields
          have hothers : ∀ field ∈ fields.filter fun field => !decide (field.1 ∈ names),
              field.1 ∉ names := by simp
          have hsplit := (List.filter_append_perm (fun field => field.1 ∈ names) fields).symm
          exact .record (List.length_map _) hothers
            (hsplit.trans ((ownFields_perm_named hnames hnodup).append_right _))
        · cases hfields
    | _ => cases hfields
  · intro hstructured
    cases hstructured with
    | list hlength => exact if_pos hlength
    | @record _ others fields hlength hothers hperm =>
        have hown := ownFields_of_perm hothers hperm
        have hnodup : ((ownFields names fields).map Prod.fst).Nodup :=
          (hown.map Prod.fst).nodup_iff.mpr ((sublist_keys_named names contents).nodup hnames)
        calc (Datum.record fields).fields? names
            = some (names.map fun name => (ownFields names fields).lookup name) := if_pos hnodup
          _ = some (names.map fun name => (named names contents).lookup name) := by
              simp only [lookup_eq_of_perm hnodup hown]
          _ = some contents := by rw [map_lookup_named hnames hlength]

/-- Fields that are written in order are a structure. -/
theorem structured_record {items : List Datum} (hlength : items.length = names.length) :
    Structured names (items.map some) (.record (names.zip items)) := by
  have hnamed : named names (items.map some) = names.zip items := by
    simp [named, List.zip_map_right, List.filterMap_map]
  refine .record (by simpa using hlength) (fun field hfield => absurd hfield List.not_mem_nil) ?_
  rw [hnamed, List.append_nil]

/-! ## Other data -/

theorem number?_eq_some_iff {value : Nat} :
    datum.number? = some value ↔ datum = .natural value ∧ value < numberBound := by
  cases datum with
  | natural number =>
      simp only [number?, natural.injEq]
      split
      · rename_i hlt
        rw [Option.some.injEq]
        exact ⟨fun heq => ⟨heq, heq ▸ hlt⟩, And.left⟩
      · rename_i hnot
        refine iff_of_false nofun ?_
        rintro ⟨rfl, hlt⟩
        exact hnot hlt
  | _ => exact iff_of_false nofun nofun

theorem text?_eq_some_iff {value : String} : datum.text? = some value ↔ datum = .text value := by
  cases datum with
  | text found => simp [text?]
  | _ => exact iff_of_false nofun nofun

theorem items?_eq_some_iff {items : List Datum} :
    datum.items? = some items ↔ datum = .list items := by
  cases datum with
  | list found => simp [items?]
  | _ => exact iff_of_false nofun nofun

theorem optionalText?_eq_some_iff {content : Option Datum} {value : Option String} :
    optionalText? content = some value ↔ OptionalText content value := by
  constructor
  · intro htext
    unfold optionalText? at htext
    split at htext
    · cases htext
      exact .missing
    · cases htext
      exact .null
    · cases htext
      exact .text _
    · cases htext
  · intro htext
    cases htext <;> rfl

theorem optionalText_ofOptionalText (value : Option String) :
    OptionalText (some (ofOptionalText value)) value := by
  cases value with
  | none => exact .null
  | some value => exact .text value

/-- An alternative that holds something is a record with one field. -/
theorem alternative?_eq_some_iff {content : Datum} :
    datum.alternative? = some (name, some content) ↔ datum = .record [(name, content)] := by
  constructor
  · intro halternative
    unfold alternative? at halternative
    split at halternative
    · cases halternative
    · cases halternative
      rfl
    · cases halternative
  · rintro rfl
    rfl

/-- An alternative that holds nothing is its name. -/
theorem alternative?_eq_name_iff : datum.alternative? = some (name, none) ↔ datum = .text name := by
  constructor
  · intro halternative
    unfold alternative? at halternative
    split at halternative
    · cases halternative
      rfl
    · cases halternative
    · cases halternative
  · rintro rfl
    rfl

end Datum

open Datum

/-! ## What stands for a value -/

/-- Which values can be stored, and which data stand for a value. -/
class Format (α : Type) where
  /-- Every number in the value can be stored. -/
  InRange : α → Prop
  StandsFor : Datum → α → Prop

export Format (InRange StandsFor)

instance : Format Position where
  InRange position := position.index < numberBound
  StandsFor datum position := datum = .natural position.index ∧ position.index < numberBound

instance : Format Variable where
  InRange subject := subject.id < numberBound
  StandsFor datum subject :=
    ∃ id, Structured ["id"] [some id] datum ∧ StandsFor id (Position.mk subject.id)

instance : Format Primitive where
  InRange _ := True
  StandsFor datum kind := datum = .text kind.name ∨ Alternative kind.name (· = .null) datum

instance : Format Ty where
  InRange ty := ty.number < numberBound
  StandsFor datum
    | .var subject => Alternative "Variable" (StandsFor · subject) datum
    | .function id => Alternative "Function" (StandsFor · (Position.mk id)) datum
    | .tuple id => Alternative "Tuple" (StandsFor · (Position.mk id)) datum
    | .union id => Alternative "Union" (StandsFor · (Position.mk id)) datum
    | .metatype id => Alternative "Metatype" (StandsFor · (Position.mk id)) datum
    | .primitive kind => Alternative "Primitive" (StandsFor · kind) datum
    | .named id => Alternative "Named" (StandsFor · (Position.mk id)) datum

instance {α : Type} [Format α] : Format (List α) where
  InRange values := ∀ value ∈ values, InRange value
  StandsFor datum values := ∃ items, datum = .list items ∧ List.Forall₂ StandsFor items values

/-- The members of a set are listed in any order and with any repetitions. -/
instance : Format CaseSet where
  InRange cases := ∀ case ∈ cases, InRange case
  StandsFor datum cases :=
    ∃ listed : List Ty, StandsFor datum listed ∧ ∀ ty, ty ∈ listed ↔ ty ∈ cases

instance : Format FunctionNode where
  InRange node := InRange node.domain ∧ InRange node.codomain
  StandsFor datum node :=
    ∃ domain codomain, Structured ["domain", "codomain"] [some domain, some codomain] datum ∧
      StandsFor domain node.domain ∧ StandsFor codomain node.codomain

instance : Format MetatypeNode where
  InRange node := InRange node.of
  StandsFor datum node := ∃ of, Structured ["of"] [some of] datum ∧ StandsFor of node.of

instance : Format UnionNode where
  InRange node := InRange node.cases
  StandsFor datum node :=
    ∃ cases, Structured ["cases"] [some cases] datum ∧ StandsFor cases node.cases

instance : Format Element where
  InRange element := InRange element.ty
  StandsFor datum element :=
    ∃ label ty, Structured ["label", "type"] [label, some ty] datum ∧
      OptionalText label element.label ∧ StandsFor ty element.ty

instance : Format TupleNode where
  InRange node := InRange node.elements
  StandsFor datum node :=
    ∃ name elements, Structured ["name", "elements"] [name, some elements] datum ∧
      OptionalText name node.name ∧ StandsFor elements node.elements

instance : Format NamedNode where
  InRange _ := True
  StandsFor datum node := ∃ name, Structured ["name"] [some name] datum ∧ name = .text node.name

end Inference
