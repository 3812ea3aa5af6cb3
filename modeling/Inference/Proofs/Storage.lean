import Inference.Proofs.Formats

/-!
# Storage

For every kind of value the reader accepts exactly the data that stand for a value,
and the written datum is one of them if the numbers of the value are in range
(`LawfulStorable`). So whatever is written is read back, and two data for the same
value are read alike, however they differ.

The instances follow the formats: a structure is read when its fields are
(`read_one_iff`, `read_two_iff`), an alternative when what it holds is. Sets of
cases are read from any list of their members because a case set is built from its
members alone.
-/

namespace Inference

open Datum

/-- Reading accepts exactly the data that stand for a value, and what is written is among them. -/
class LawfulStorable (α : Type) [Storable α] [Format α] : Prop where
  ofDatum?_eq_some_iff {datum : Datum} {value : α} :
    ofDatum? datum = some value ↔ StandsFor datum value
  standsFor_toDatum {value : α} : InRange value → StandsFor (toDatum value) value

export LawfulStorable (ofDatum?_eq_some_iff standsFor_toDatum)

variable {α β γ : Type} {datum : Datum} {value : α}

/-! ## Structures with one field and with two -/

theorem structured_one (name : String) (content : Datum) :
    Structured [name] [some content] (.record [(name, content)]) :=
  @structured_record [name] [content] rfl

theorem structured_two (first second : String) (content last : Datum) :
    Structured [first, second] [some content, some last]
      (.record [(first, content), (second, last)]) :=
  @structured_record [first, second] [content, last] rfl

/-- A structure with one field is read if the field is. -/
theorem read_one_iff {name : String} {read : Datum → Option β} {make : β → α} :
    (match datum.fields? [name] with
      | some [some content] => (read content).map make
      | _ => none) = some value ↔
      ∃ content, Structured [name] [some content] datum ∧
        ∃ item, read content = some item ∧ make item = value := by
  constructor
  · intro hread
    split at hread
    · rename_i content hfields
      exact ⟨content, (fields?_eq_some_iff (List.nodup_singleton _)).mp hfields,
        Option.map_eq_some_iff.mp hread⟩
    · cases hread
  · rintro ⟨content, hstructured, hitem⟩
    rw [(fields?_eq_some_iff (List.nodup_singleton _)).mpr hstructured]
    exact Option.map_eq_some_iff.mpr hitem

/-- A structure with two fields, of which the first may be left out, is read if both are. -/
theorem read_two_iff {first second : String} (hne : [first, second].Nodup)
    {read : Option Datum → Option β} {readLast : Datum → Option γ} {make : β → γ → α} :
    (match datum.fields? [first, second] with
      | some [content, some last] => do pure (make (← read content) (← readLast last))
      | _ => none) = some value ↔
      ∃ content last, Structured [first, second] [content, some last] datum ∧
        ∃ item, read content = some item ∧ ∃ lastItem, readLast last = some lastItem ∧
          make item lastItem = value := by
  constructor
  · intro hread
    split at hread
    · rename_i content last hfields
      simp only [bind, Option.bind_eq_some_iff, pure, Option.some.injEq] at hread
      exact ⟨content, last, (fields?_eq_some_iff hne).mp hfields, hread⟩
    · cases hread
  · rintro ⟨content, last, hstructured, hitems⟩
    rw [(fields?_eq_some_iff hne).mpr hstructured]
    simp only [bind, Option.bind_eq_some_iff, pure, Option.some.injEq]
    exact hitems

/-! ## Handles -/

theorem Primitive.ofName?_eq_some_iff {text : String} {kind : Primitive} :
    Primitive.ofName? text = some kind ↔ text = kind.name := by
  constructor
  · intro hname
    have hfound := List.find?_some hname
    exact (of_decide_eq_true hfound).symm
  · rintro rfl
    cases kind <;> rfl

instance : LawfulStorable Position where
  ofDatum?_eq_some_iff {datum position} := by
    show (datum.number?).map Position.mk = some position ↔ _
    rw [Option.map_eq_some_iff]
    simp only [number?_eq_some_iff]
    constructor
    · rintro ⟨index, hdatum, rfl⟩
      exact hdatum
    · intro hdatum
      exact ⟨position.index, hdatum, rfl⟩
  standsFor_toDatum hrange := ⟨rfl, hrange⟩

instance : LawfulStorable Variable where
  ofDatum?_eq_some_iff {datum subject} := by
    refine read_one_iff.trans (exists_congr fun content => and_congr_right fun _ => ?_)
    simp only [number?_eq_some_iff]
    constructor
    · rintro ⟨id, hid, rfl⟩
      exact hid
    · intro hid
      exact ⟨subject.id, hid, rfl⟩
  standsFor_toDatum hrange := ⟨_, structured_one .., rfl, hrange⟩

instance : LawfulStorable Primitive where
  ofDatum?_eq_some_iff {datum kind} := by
    constructor
    · intro hread
      simp only [ofDatum?] at hread
      split at hread
      · rename_i name halternative
        rw [Primitive.ofName?_eq_some_iff] at hread
        exact .inl (hread ▸ alternative?_eq_name_iff.mp halternative)
      · rename_i name halternative
        rw [Primitive.ofName?_eq_some_iff] at hread
        exact .inr ⟨_, hread ▸ alternative?_eq_some_iff.mp halternative, rfl⟩
      · cases hread
    · rintro (rfl | ⟨_, rfl, rfl⟩)
      · exact Primitive.ofName?_eq_some_iff.mpr rfl
      · exact Primitive.ofName?_eq_some_iff.mpr rfl
  standsFor_toDatum _ := .inl rfl

instance : LawfulStorable Ty where
  ofDatum?_eq_some_iff {datum ty} := by
    constructor
    · intro hread
      simp only [ofDatum?] at hread
      split at hread
      -- Seven names are known; variables and primitives hold a value, the others a number.
      case h_8 => cases hread
      all_goals
        obtain ⟨inner, hinner, rfl⟩ := Option.map_eq_some_iff.mp hread
        refine ⟨_, alternative?_eq_some_iff.mp ‹_›, ?_⟩
      case h_1 => exact ofDatum?_eq_some_iff.mp hinner
      case h_6 => exact ofDatum?_eq_some_iff.mp hinner
      all_goals exact number?_eq_some_iff.mp hinner
    · intro hstands
      cases ty with
      | var subject =>
          obtain ⟨content, rfl, hcontent⟩ := hstands
          exact Option.map_eq_some_iff.mpr ⟨subject, ofDatum?_eq_some_iff.mpr hcontent, rfl⟩
      | primitive kind =>
          obtain ⟨content, rfl, hcontent⟩ := hstands
          exact Option.map_eq_some_iff.mpr ⟨kind, ofDatum?_eq_some_iff.mpr hcontent, rfl⟩
      | _ id =>
          obtain ⟨content, rfl, hcontent⟩ := hstands
          exact Option.map_eq_some_iff.mpr ⟨id, number?_eq_some_iff.mpr hcontent, rfl⟩
  standsFor_toDatum := by
    intro ty hrange
    cases ty with
    | var subject => exact ⟨_, rfl, standsFor_toDatum hrange⟩
    | primitive kind => exact ⟨_, rfl, standsFor_toDatum trivial⟩
    | _ id => exact ⟨_, rfl, rfl, hrange⟩

/-! ## Lists and sets -/

instance [Storable α] [Format α] [LawfulStorable α] : LawfulStorable (List α) where
  ofDatum?_eq_some_iff {datum values} := by
    have hitems : ∀ items : List Datum, items.mapM ofDatum? = some values ↔
        List.Forall₂ StandsFor items values := by
      intro items
      rw [mapM_eq_some_iff_forall₂]
      simp only [ofDatum?_eq_some_iff]
    show (datum.items?).bind (fun items => items.mapM ofDatum?) = some values ↔ _
    rw [Option.bind_eq_some_iff]
    simp only [items?_eq_some_iff, hitems]
    exact Iff.rfl
  standsFor_toDatum {values} hrange := by
    refine ⟨_, rfl, ?_⟩
    rw [List.forall₂_map_left_iff, List.forall₂_same]
    exact fun value hvalue => standsFor_toDatum (hrange value hvalue)

instance : LawfulStorable CaseSet where
  ofDatum?_eq_some_iff {datum cases} := by
    show (ofDatum? datum).map CaseSet.ofList = some cases ↔ _
    rw [Option.map_eq_some_iff]
    refine exists_congr fun listed => and_congr ofDatum?_eq_some_iff ?_
    rw [← CaseSet.ofList_toList cases, CaseSet.ofList_eq_ofList_iff]
    simp
  standsFor_toDatum {cases} hrange := ⟨cases.toList, standsFor_toDatum hrange, fun _ => Iff.rfl⟩

/-! ## Nodes -/

instance : LawfulStorable FunctionNode where
  ofDatum?_eq_some_iff {datum node} := by
    have hnames : ["domain", "codomain"].Nodup := by decide
    show (match datum.fields? ["domain", "codomain"] with
      | some [some domain, some codomain] => do
          pure (FunctionNode.mk (← ofDatum? domain) (← ofDatum? codomain))
      | _ => none) = some node ↔ _
    constructor
    · intro hread
      split at hread
      · rename_i domain codomain hfields
        simp only [bind, Option.bind_eq_some_iff, pure, Option.some.injEq] at hread
        obtain ⟨_, hdomain, _, hcodomain, rfl⟩ := hread
        exact ⟨domain, codomain, (fields?_eq_some_iff hnames).mp hfields,
          ofDatum?_eq_some_iff.mp hdomain, ofDatum?_eq_some_iff.mp hcodomain⟩
      · cases hread
    · rintro ⟨domain, codomain, hstructured, hdomain, hcodomain⟩
      simp only [(fields?_eq_some_iff hnames).mpr hstructured,
        ofDatum?_eq_some_iff.mpr hdomain, ofDatum?_eq_some_iff.mpr hcodomain]
      rfl
  standsFor_toDatum hrange :=
    ⟨_, _, structured_two .., standsFor_toDatum hrange.1, standsFor_toDatum hrange.2⟩

instance : LawfulStorable MetatypeNode where
  ofDatum?_eq_some_iff {datum node} := by
    refine read_one_iff.trans (exists_congr fun content => and_congr_right fun _ => ?_)
    simp only [ofDatum?_eq_some_iff]
    constructor
    · rintro ⟨of, hof, rfl⟩
      exact hof
    · intro hof
      exact ⟨node.of, hof, rfl⟩
  standsFor_toDatum hrange := ⟨_, structured_one .., standsFor_toDatum hrange⟩

instance : LawfulStorable UnionNode where
  ofDatum?_eq_some_iff {datum node} := by
    refine read_one_iff.trans (exists_congr fun content => and_congr_right fun _ => ?_)
    simp only [ofDatum?_eq_some_iff]
    constructor
    · rintro ⟨cases, hcases, rfl⟩
      exact hcases
    · intro hcases
      exact ⟨node.cases, hcases, rfl⟩
  standsFor_toDatum hrange := ⟨_, structured_one .., standsFor_toDatum hrange⟩

instance : LawfulStorable Element where
  ofDatum?_eq_some_iff {datum element} := by
    refine (read_two_iff (by decide)).trans (exists_congr fun label => exists_congr fun ty =>
      and_congr_right fun _ => ?_)
    simp only [optionalText?_eq_some_iff, ofDatum?_eq_some_iff]
    constructor
    · rintro ⟨_, hlabel, _, hty, rfl⟩
      exact ⟨hlabel, hty⟩
    · rintro ⟨hlabel, hty⟩
      exact ⟨element.label, hlabel, element.ty, hty, rfl⟩
  standsFor_toDatum {element} hrange :=
    ⟨_, _, structured_two .., optionalText_ofOptionalText element.label, standsFor_toDatum hrange⟩

instance : LawfulStorable TupleNode where
  ofDatum?_eq_some_iff {datum node} := by
    refine (read_two_iff (by decide)).trans (exists_congr fun name => exists_congr fun elements =>
      and_congr_right fun _ => ?_)
    simp only [optionalText?_eq_some_iff, ofDatum?_eq_some_iff]
    constructor
    · rintro ⟨_, hname, _, helements, rfl⟩
      exact ⟨hname, helements⟩
    · rintro ⟨hname, helements⟩
      exact ⟨node.name, hname, node.elements, helements, rfl⟩
  standsFor_toDatum {node} hrange :=
    ⟨_, _, structured_two .., optionalText_ofOptionalText node.name, standsFor_toDatum hrange⟩

instance : LawfulStorable NamedNode where
  ofDatum?_eq_some_iff {datum node} := by
    refine read_one_iff.trans (exists_congr fun content => and_congr_right fun _ => ?_)
    simp only [text?_eq_some_iff]
    constructor
    · rintro ⟨name, hname, rfl⟩
      exact hname
    · intro hname
      exact ⟨node.name, hname, rfl⟩
  standsFor_toDatum _ := ⟨_, structured_one .., rfl⟩

/-! ## Kinds of values -/

/-- The kinds of values that are stored. -/
inductive Kind where
  | type
  | primitive
  | subject
  | position
  | function
  | metatype
  | named
  | element
  | tuple
  | union

namespace Kind

/-- The values of a kind. -/
def Value : Kind → Type
  | type => Ty
  | primitive => Primitive
  | subject => Variable
  | position => Position
  | function => FunctionNode
  | metatype => MetatypeNode
  | named => NamedNode
  | element => Element
  | tuple => TupleNode
  | union => UnionNode

instance : (kind : Kind) → Storable kind.Value
  | type => inferInstanceAs (Storable Ty)
  | primitive => inferInstanceAs (Storable Primitive)
  | subject => inferInstanceAs (Storable Variable)
  | position => inferInstanceAs (Storable Position)
  | function => inferInstanceAs (Storable FunctionNode)
  | metatype => inferInstanceAs (Storable MetatypeNode)
  | named => inferInstanceAs (Storable NamedNode)
  | element => inferInstanceAs (Storable Element)
  | tuple => inferInstanceAs (Storable TupleNode)
  | union => inferInstanceAs (Storable UnionNode)

instance : (kind : Kind) → Format kind.Value
  | type => inferInstanceAs (Format Ty)
  | primitive => inferInstanceAs (Format Primitive)
  | subject => inferInstanceAs (Format Variable)
  | position => inferInstanceAs (Format Position)
  | function => inferInstanceAs (Format FunctionNode)
  | metatype => inferInstanceAs (Format MetatypeNode)
  | named => inferInstanceAs (Format NamedNode)
  | element => inferInstanceAs (Format Element)
  | tuple => inferInstanceAs (Format TupleNode)
  | union => inferInstanceAs (Format UnionNode)

instance : (kind : Kind) → LawfulStorable kind.Value
  | type => inferInstanceAs (LawfulStorable Ty)
  | primitive => inferInstanceAs (LawfulStorable Primitive)
  | subject => inferInstanceAs (LawfulStorable Variable)
  | position => inferInstanceAs (LawfulStorable Position)
  | function => inferInstanceAs (LawfulStorable FunctionNode)
  | metatype => inferInstanceAs (LawfulStorable MetatypeNode)
  | named => inferInstanceAs (LawfulStorable NamedNode)
  | element => inferInstanceAs (LawfulStorable Element)
  | tuple => inferInstanceAs (LawfulStorable TupleNode)
  | union => inferInstanceAs (LawfulStorable UnionNode)

end Kind

/-! ## Reading back -/

/-- What is written is read back. -/
theorem ofDatum?_toDatum [Storable α] [Format α] [LawfulStorable α] (hrange : InRange value) :
    ofDatum? (toDatum value) = some value :=
  ofDatum?_eq_some_iff.mpr (standsFor_toDatum hrange)

/-- The written form of a union lists its cases in ascending order. -/
theorem toDatum_union (node : UnionNode) :
    toDatum node = .record [("cases", .list (node.cases.toList.map toDatum))] :=
  rfl

/-- Whatever is written is read back, for every kind of value. Reading accepts a datum for a value
if the datum stands for the value: structures in either form, at every depth, and cases in any order
with any repetitions. A union that was read is written with its cases strictly ascending. -/
theorem stored_forms_are_read :
    (∀ (kind : Kind) (value : kind.Value), InRange value →
      ofDatum? (toDatum value) = some value ∧ StandsFor (toDatum value) value) ∧
    (∀ (kind : Kind) (value : kind.Value) (datum : Datum),
      ofDatum? datum = some value ↔ StandsFor datum value) ∧
    ∀ (listed : List Ty) (items : List Datum) (datum : Datum),
      List.Forall₂ StandsFor items listed → Structured ["cases"] [some (.list items)] datum →
      ∃ node : UnionNode, ofDatum? datum = some node ∧
        (∀ (others : List Ty) (reordered : List Datum) (other : Datum),
          (∀ ty, ty ∈ others ↔ ty ∈ listed) → List.Forall₂ StandsFor reordered others →
          Structured ["cases"] [some (.list reordered)] other → ofDatum? other = some node) ∧
        ∃ ascending : List Ty,
          toDatum node = .record [("cases", .list (ascending.map toDatum))] ∧
          ascending.Pairwise (· < ·) ∧ ∀ ty, ty ∈ ascending ↔ ty ∈ listed := by
  refine ⟨fun kind value hrange => ⟨ofDatum?_toDatum hrange, standsFor_toDatum hrange⟩,
    fun kind value datum => ofDatum?_eq_some_iff, ?_⟩
  intro listed items datum hitems hstructured
  -- The union of the listed cases; every other list of them has the same members.
  have hread : ∀ (others : List Ty) (reordered : List Datum) (other : Datum),
      (∀ ty, ty ∈ others ↔ ty ∈ listed) → List.Forall₂ StandsFor reordered others →
      Structured ["cases"] [some (.list reordered)] other →
      ofDatum? other = some (UnionNode.mk (.ofList listed)) := by
    intro others reordered other hmem hreordered hother
    have hcases : ∀ ty, ty ∈ others ↔ ty ∈ CaseSet.ofList listed := fun ty => by
      rw [hmem, CaseSet.mem_ofList]
    have hstands : StandsFor other (UnionNode.mk (.ofList listed)) :=
      ⟨_, hother, others, ⟨_, rfl, hreordered⟩, hcases⟩
    exact ofDatum?_eq_some_iff.mpr hstands
  refine ⟨⟨.ofList listed⟩, hread listed items datum (fun _ => Iff.rfl) hitems hstructured, hread,
    (CaseSet.ofList listed).toList, toDatum_union _, (CaseSet.ofList listed).ascending, ?_⟩
  exact fun ty => CaseSet.mem_ofList

/-- A tuple that refers to the union with the greatest number. -/
def TupleNode.outermost : TupleNode :=
  ⟨none, [⟨some "x", .union 18446744073709551615⟩, ⟨none, .var ⟨0⟩⟩]⟩

/-- The tuple in another form than the written one. The first element is a list; the record of the
tuple and that of the second element leave out the text and have a field that belongs to neither. -/
def Datum.outermost : Datum :=
  .record [("note", .bool true), ("elements", .list [
    .list [.text "x", .record [("Union", .natural 18446744073709551615)]],
    .record [("type", .record [("Variable", .list [.natural 0])]), ("more", .null)]])]

/-- The tuple is read back in both forms, and a union is read from a list that holds a list of
repeated cases. -/
theorem stored_forms_are_read_outermost :
    ofDatum? (toDatum TupleNode.outermost) = some TupleNode.outermost ∧
    ofDatum? Datum.outermost = some TupleNode.outermost ∧
    ∃ node : UnionNode,
      ofDatum? (.list [.list [.record [("Named", .natural 0)], .record [("Tuple", .natural 7)],
        .record [("Named", .natural 0)]]]) = some node ∧
      ofDatum? (.record [("cases", .list [.record [("Tuple", .natural 7)],
        .record [("Named", .natural 0)]])]) = some node := by
  obtain ⟨hwritten, hread, hunion⟩ := stored_forms_are_read
  have hrange : InRange TupleNode.outermost :=
    show ∀ element ∈ TupleNode.outermost.elements, element.ty.number < numberBound by decide
  have hfirst : StandsFor (.list [.text "x", .record [("Union", .natural 18446744073709551615)]])
      (Element.mk (some "x") (.union 18446744073709551615)) :=
    ⟨_, _, @Structured.list ["label", "type"] [_, _] rfl, .text "x", _, rfl, rfl, by decide⟩
  have hvariable : StandsFor (.record [("Variable", .list [.natural 0])]) (Ty.var ⟨0⟩) :=
    ⟨_, rfl, .natural 0, @Structured.list ["id"] [_] rfl, rfl, by decide⟩
  have hsecond : StandsFor
      (.record [("type", .record [("Variable", .list [.natural 0])]), ("more", .null)])
      (Element.mk none (.var ⟨0⟩)) :=
    ⟨none, _, @Structured.record ["label", "type"] [none, some _] [("more", .null)] _ rfl
      (by decide) (.refl _), .missing, hvariable⟩
  have houtermost : StandsFor Datum.outermost TupleNode.outermost :=
    ⟨none, _, @Structured.record ["name", "elements"] [none, some _] [("note", .bool true)] _ rfl
      (by decide) (.swap ..), .missing, _, rfl, .cons hfirst (.cons hsecond .nil)⟩
  have htuple : StandsFor (.record [("Tuple", .natural 7)]) (Ty.tuple 7) :=
    ⟨_, rfl, rfl, by decide⟩
  have hnamed : StandsFor (.record [("Named", .natural 0)]) (Ty.named 0) :=
    ⟨_, rfl, rfl, by decide⟩
  obtain ⟨node, hnode, hothers, -⟩ := hunion [.named 0, .tuple 7, .named 0] _ _
    (.cons hnamed (.cons htuple (.cons hnamed .nil))) (@Structured.list ["cases"] [_] rfl)
  refine ⟨(hwritten .tuple _ hrange).1, (hread .tuple _ _).mpr houtermost, node, hnode, ?_⟩
  exact hothers [.tuple 7, .named 0] _ _ (by simp) (.cons htuple (.cons hnamed .nil))
    (structured_one ..)

end Inference
