import Inference.Proofs.Construction
import Inference.Proofs.Rendering
import Mathlib.Data.Set.Insert

/-!
# Drawings of types

A drawing is the tree of what is shown of a type: each part is shown with its own parts,
or closed. A drawing shows a type if it opens whatever has parts, except a tuple inside
of itself (`ShowsWithin`). This is said of the whole tree, without the order in which it
is drawn, and it leaves one drawing (`ShowsWithin.unique`): what a part looks like
depends on the part and on the set of the tuples around it.

The text of a drawing is put together from the texts of its parts (`Drawing.text`), and
each kind of part is spelled in its own way (`Spells`). The text of a type is the text of
its drawing (`rendered_as_drawn`).
-/

namespace Inference

/-- What is shown of a type: nothing but itself, or its parts. -/
inductive Drawing where
  | closed (ty : Ty)
  | opened (ty : Ty) (parts : List Drawing)

namespace Drawing

/-- The type that is shown. -/
def subject : Drawing → Ty
  | closed ty => ty
  | opened ty _ => ty

/-- The tuples that are opened from here to the part in the drawing are these. -/
inductive Contains : Drawing → Set Nat → Drawing → Prop where
  | self (drawing) : Contains drawing ∅ drawing
  | part {ty parts part inner found} : part ∈ parts → Contains part inner found →
      Contains (opened ty parts) ({id | ty = .tuple id} ∪ inner) found

variable {drawing part found : Drawing} {inner further : Set Nat}

theorem Contains.trans (hpart : drawing.Contains inner part)
    (hfound : part.Contains further found) : drawing.Contains (inner ∪ further) found := by
  induction hpart with
  | self =>
      rw [Set.empty_union]
      exact hfound
  | part hin _ ih =>
      rw [Set.union_assoc]
      exact .part hin (ih hfound)

/-- What holds of a drawing if it holds of its parts holds of every drawing. -/
theorem induction_on_parts {motive : Drawing → Prop} (closed : ∀ ty, motive (closed ty))
    (opened : ∀ ty parts, (∀ part ∈ parts, motive part) → motive (opened ty parts)) :
    ∀ drawing, motive drawing
  | .closed ty => closed ty
  | .opened ty parts => opened ty parts fun part _ => induction_on_parts closed opened part

end Drawing

namespace Graph

variable {graph : Graph} {ty : Ty} {types : List Ty} {id : Nat} {enclosing : List Nat}

/-! ## Opening a type -/

/-- The parts that a type is shown with: the children of a branch, or the types of the elements of
a tuple without a name. -/
def parts? (graph : Graph) (ty : Ty) : Option (List Ty) :=
  match graph.branch? ty, ty with
  | some branch, _ => some branch.children
  | none, .tuple id =>
      match graph.tuple? id with
      | some ⟨none, elements⟩ => some (elements.map (·.ty))
      | _ => none
  | none, _ => none

/-- The text of a tuple element after its label, if it has one. -/
def labelled : Option String → String → String
  | some label, text => label ++ ": " ++ text
  | none, text => text

/-- The labels of the elements of a tuple. -/
def labels (graph : Graph) (id : Nat) : List (Option String) :=
  ((graph.tuple? id).map fun node => node.elements.map (·.label)).getD []

/-- The text of a type that is shown with its parts, given their texts. -/
def frame (graph : Graph) : Ty → List String → String
  | .function _, [domain, codomain] => "(" ++ domain ++ ") -> " ++ codomain
  | .metatype _, [of] => of ++ ".Type"
  | .tuple id, texts =>
      "(" ++ ", ".intercalate (List.zipWith labelled (graph.labels id) texts) ++ ")"
  | _, texts => " | ".intercalate texts

theorem parts?_tuple_iff : graph.parts? (.tuple id) = some types ↔
    ∃ elements, graph.tuple? id = some ⟨none, elements⟩ ∧ types = elements.map (·.ty) := by
  simp only [parts?, branch?]
  split <;> simp_all [eq_comm]

/-- The frame of a branch is what the branch is rendered in. -/
theorem frame_of_branch {branch : Branch} (hbranch : graph.branch? ty = some branch) :
    graph.frame ty = branch.render := by
  funext texts
  cases ty with
  | function id =>
      obtain ⟨node, -, rfl⟩ := Option.map_eq_some_iff.mp hbranch
      rcases texts with _ | ⟨_, _ | ⟨_, _ | _⟩⟩
      · rfl
      · rfl
      · rfl
      · rfl
  | metatype id =>
      obtain ⟨node, -, rfl⟩ := Option.map_eq_some_iff.mp hbranch
      rcases texts with _ | ⟨_, _ | _⟩
      · rfl
      · rfl
      · rfl
  | union id =>
      obtain ⟨node, -, rfl⟩ := Option.map_eq_some_iff.mp hbranch
      rfl
  | _ => cases hbranch

theorem render_eq_labelled (element : Element) : element.render = labelled element.label := by
  funext text
  cases hlabel : element.label with
  | some label =>
      simp only [Element.render, hlabel]
      rfl
  | none => simp only [Element.render, hlabel, labelled]

theorem labels_eq {name : Option String} {elements : List Element}
    (hnode : graph.tuple? id = some ⟨name, elements⟩) :
    graph.labels id = elements.map (·.label) := by
  rw [labels, hnode, Option.map_some, Option.getD_some]

/-- The frame of a tuple is what the texts of its elements are rendered in. -/
theorem frame_of_tuple {elements : List Element} (hnode : graph.tuple? id = some ⟨none, elements⟩)
    (texts : List String) : graph.frame (.tuple id) texts =
      TupleNode.render (List.zipWith Element.render elements texts) := by
  simp only [frame, labels_eq hnode, List.zipWith_map_left, ← render_eq_labelled, TupleNode.render]

theorem parts?_cases (hparts : graph.parts? ty = some types) :
    (∃ branch, graph.branch? ty = some branch ∧ types = branch.children ∧
      (∀ id, ty ≠ .tuple id) ∧ graph.frame ty = branch.render) ∨
    ∃ id elements, ty = .tuple id ∧ graph.tuple? id = some ⟨none, elements⟩ ∧
      types = elements.map (·.ty) ∧
      graph.frame ty =
        fun texts => TupleNode.render (List.zipWith Element.render elements texts) := by
  cases hbranch : graph.branch? ty with
  | some branch =>
      simp only [parts?, hbranch, Option.some.injEq] at hparts
      refine .inl ⟨branch, rfl, hparts.symm, ?_, ?_⟩
      · rintro id rfl
        cases hbranch
      · exact frame_of_branch hbranch
  | none =>
      cases ty with
      | tuple id =>
          obtain ⟨elements, hnode, rfl⟩ := parts?_tuple_iff.mp hparts
          exact .inr ⟨id, elements, rfl, hnode, rfl, funext (frame_of_tuple hnode)⟩
      | _ => simp [parts?, hbranch] at hparts

/-- Inside of these tuples, a type with parts is shown with them, unless it is one of the tuples. -/
theorem textWithin_opened {depth : Nat} (hparts : graph.parts? ty = some types)
    (hopen : ∀ id ∈ enclosing, ty ≠ .tuple id) :
    graph.textWithin CaseSet.toList (depth + 1) enclosing ty =
      (types.mapM (graph.textWithin CaseSet.toList depth (ty.tuple?.toList ++ enclosing))).map
        (graph.frame ty) := by
  obtain ⟨branch, hbranch, rfl, hne, hframe⟩ | ⟨id, elements, rfl, hnode, rfl, hframe⟩ :=
    parts?_cases hparts
  · have hshown : branch.shown CaseSet.toList = branch.children := by cases branch <;> rfl
    have htuple : ty.tuple? = none := by
      cases ty with
      | tuple id => exact absurd rfl (hne id)
      | _ => rfl
    rw [textWithin_branch hbranch, hshown, hframe, htuple]
    rfl
  · have hid : id ∉ enclosing := fun hin => hopen id hin rfl
    have helements := mapM_zipWith Element.ty
      (graph.textWithin CaseSet.toList depth (id :: enclosing)) Element.render elements
    rw [textWithin_expanded ⟨rfl, hnode, hid⟩, helements, hframe, Option.map_map]
    rfl

/-- Inside of these tuples, a type without parts and one of the tuples are closed. -/
theorem textWithin_not_opened {depth : Nat}
    (hclosed : ∀ types, graph.parts? ty = some types → ∃ id ∈ enclosing, ty = .tuple id) :
    graph.textWithin CaseSet.toList (depth + 1) enclosing ty = some (graph.closedText ty) := by
  have hbranch : graph.branch? ty = none := by
    by_contra hsome
    obtain ⟨branch, hbranch⟩ := Option.ne_none_iff_exists'.mp hsome
    have hparts : graph.parts? ty = some branch.children := by simp only [parts?, hbranch]
    obtain ⟨id, -, rfl⟩ := hclosed _ hparts
    cases hbranch
  refine textWithin_closed hbranch ?_
  rintro id elements ⟨rfl, hnode, hid⟩
  obtain ⟨other, hother, heq⟩ := hclosed _ (parts?_tuple_iff.mpr ⟨elements, hnode, rfl⟩)
  cases heq
  exact hid hother

/-! ## Drawings that show a type -/

/-- The drawing shows the type inside of these tuples. Whatever is opened is shown with all of its
parts and is no tuple around it, and what has parts is closed only if it is a tuple around it. -/
structure ShowsWithin (graph : Graph) (enclosing : Set Nat) (ty : Ty) (drawing : Drawing) :
    Prop where
  subject : drawing.subject = ty
  opened : ∀ {inner opened parts}, drawing.Contains inner (.opened opened parts) →
    graph.parts? opened = some (parts.map Drawing.subject) ∧
      ∀ id ∈ inner ∪ enclosing, opened ≠ .tuple id
  closed : ∀ {inner closed types}, drawing.Contains inner (.closed closed) →
    graph.parts? closed = some types → ∃ id ∈ inner ∪ enclosing, closed = .tuple id

/-- The drawing shows the type. -/
def Shows (graph : Graph) (ty : Ty) (drawing : Drawing) : Prop := graph.ShowsWithin ∅ ty drawing

variable {around inner : Set Nat} {drawing other part : Drawing} {parts : List Drawing}

/-- A drawing shows its parts inside of the tuples that are opened around them. -/
theorem ShowsWithin.contained (hshows : graph.ShowsWithin around ty drawing)
    (hpart : drawing.Contains inner part) :
    graph.ShowsWithin (inner ∪ around) part.subject part where
  subject := rfl
  opened hopened := by
    rw [← Set.union_assoc, Set.union_comm _ inner]
    exact hshows.opened (hpart.trans hopened)
  closed hclosed := by
    rw [← Set.union_assoc, Set.union_comm _ inner]
    exact hshows.closed (hpart.trans hclosed)

theorem showsWithin_closed_iff : graph.ShowsWithin around ty (.closed ty) ↔
    ∀ types, graph.parts? ty = some types → ∃ id ∈ around, ty = .tuple id := by
  constructor
  · intro hshows types hparts
    have hclosed := hshows.closed (.self _) hparts
    rwa [Set.empty_union] at hclosed
  · intro hclosed
    refine ⟨rfl, ?_, ?_⟩
    · intro inner opened parts hcontains
      cases hcontains
    · intro inner closed types hcontains hparts
      cases hcontains
      rw [Set.empty_union]
      exact hclosed types hparts

theorem showsWithin_opened_iff : graph.ShowsWithin around ty (.opened ty parts) ↔
    graph.parts? ty = some (parts.map Drawing.subject) ∧ (∀ id ∈ around, ty ≠ .tuple id) ∧
      ∀ part ∈ parts, graph.ShowsWithin ({id | ty = .tuple id} ∪ around) part.subject part := by
  constructor
  · intro hshows
    have hopened := hshows.opened (.self _)
    rw [Set.empty_union] at hopened
    refine ⟨hopened.1, hopened.2, fun part hpart => ?_⟩
    have hinside := hshows.contained (.part hpart (.self part))
    rwa [Set.union_empty] at hinside
  · rintro ⟨hparts, hopen, hshows⟩
    refine ⟨rfl, ?_, ?_⟩
    · intro inner opened others hcontains
      cases hcontains with
      | self =>
          rw [Set.empty_union]
          exact ⟨hparts, hopen⟩
      | @part _ _ _ inner _ hpart hinside =>
          rw [Set.union_comm _ inner, Set.union_assoc]
          exact (hshows _ hpart).opened hinside
    · intro inner closed types hcontains
      cases hcontains with
      | @part _ _ _ inner _ hpart hinside =>
          rw [Set.union_comm _ inner, Set.union_assoc]
          exact (hshows _ hpart).closed hinside

theorem forall₂_showsWithin_iff : List.Forall₂ (graph.ShowsWithin around) types parts ↔
    types = parts.map Drawing.subject ∧
      ∀ part ∈ parts, graph.ShowsWithin around part.subject part := by
  constructor
  · intro hshows
    induction hshows with
    | nil => exact ⟨rfl, fun _ hin => absurd hin List.not_mem_nil⟩
    | cons hfirst _ ih =>
        obtain ⟨rfl, hrest⟩ := ih
        obtain rfl := hfirst.subject
        exact ⟨rfl, List.forall_mem_cons.mpr ⟨hfirst, hrest⟩⟩
  · rintro ⟨rfl, hshows⟩
    rw [List.forall₂_map_left_iff, List.forall₂_same]
    exact hshows

/-- What a type looks like depends on the type and on the set of the tuples around it. -/
theorem ShowsWithin.unique (hshows : graph.ShowsWithin around ty drawing)
    (hother : graph.ShowsWithin around ty other) : drawing = other := by
  induction drawing using Drawing.induction_on_parts generalizing around ty other with
  | closed shown =>
      obtain rfl : shown = ty := hshows.subject
      cases other with
      | closed last => exact congrArg Drawing.closed hother.subject.symm
      | opened last parts =>
          obtain rfl : last = shown := hother.subject
          obtain ⟨hparts, hopen, -⟩ := showsWithin_opened_iff.mp hother
          obtain ⟨id, hid, heq⟩ := showsWithin_closed_iff.mp hshows _ hparts
          exact absurd heq (hopen id hid)
  | opened shown parts ih =>
      obtain rfl : shown = ty := hshows.subject
      obtain ⟨hparts, hopen, hinside⟩ := showsWithin_opened_iff.mp hshows
      cases other with
      | closed last =>
          obtain rfl : last = shown := hother.subject
          obtain ⟨id, hid, heq⟩ := showsWithin_closed_iff.mp hother _ hparts
          exact absurd heq (hopen id hid)
      | opened last others =>
          obtain rfl : last = shown := hother.subject
          obtain ⟨hothers, -, hotherInside⟩ := showsWithin_opened_iff.mp hother
          have hsubjects : parts.map Drawing.subject = others.map Drawing.subject :=
            Option.some.inj (hparts.symm.trans hothers)
          refine congrArg (Drawing.opened last) (eq_of_map_eq hsubjects ?_)
          intro part hpart second hsecond heq
          exact ih part hpart (hinside part hpart) (heq ▸ hotherInside second hsecond)

end Graph

namespace Drawing

mutual
/-- The text of a drawing. -/
def text (graph : Graph) : Drawing → String
  | closed ty => graph.closedText ty
  | opened ty parts => graph.frame ty (texts graph parts)

/-- The texts of several drawings. -/
def texts (graph : Graph) : List Drawing → List String
  | [] => []
  | first :: rest => first.text graph :: texts graph rest
end

theorem texts_eq_map (graph : Graph) (parts : List Drawing) :
    texts graph parts = parts.map (text graph) := by
  induction parts with
  | nil => rfl
  | cons first rest ih => rw [texts, ih, List.map_cons]

end Drawing

namespace Graph

variable {graph : Graph} {ty : Ty} {enclosing : List Nat} {depth : Nat} {text : String}

/-- What is rendered is the text of a drawing. -/
theorem exists_showsWithin
    (htext : graph.textWithin CaseSet.toList depth enclosing ty = some text) :
    ∃ drawing, graph.ShowsWithin {id | id ∈ enclosing} ty drawing ∧ drawing.text graph = text := by
  induction depth generalizing enclosing ty text with
  | zero => cases htext
  | succ depth ih =>
      by_cases hopen : ∃ types, graph.parts? ty = some types ∧ ∀ id ∈ enclosing, ty ≠ .tuple id
      · obtain ⟨types, hparts, hopen⟩ := hopen
        rw [textWithin_opened hparts hopen, Option.map_eq_some_iff] at htext
        obtain ⟨texts, htexts, rfl⟩ := htext
        have hinside : {id | id ∈ ty.tuple?.toList ++ enclosing} =
            {id | ty = .tuple id} ∪ {id | id ∈ enclosing} := by
          ext id
          cases ty <;> simp [Ty.tuple?, eq_comm]
        have hdrawn := (mapM_eq_some_iff_forall₂.mp htexts).imp fun _ _ => ih
        obtain ⟨parts, hshows, hparttexts⟩ := exists_forall₂_between hdrawn
        rw [hinside, forall₂_showsWithin_iff] at hshows
        obtain ⟨rfl, hshows⟩ := hshows
        have heq : parts.map (Drawing.text graph) = texts := by
          rw [← List.forall₂_eq_eq_eq, List.forall₂_map_left_iff]
          exact hparttexts
        refine ⟨.opened ty parts, showsWithin_opened_iff.mpr ⟨hparts, hopen, hshows⟩, ?_⟩
        rw [Drawing.text, Drawing.texts_eq_map, heq]
      · have hclosed : ∀ types, graph.parts? ty = some types →
            ∃ id ∈ enclosing, ty = .tuple id := by
          intro types hparts
          by_contra hnone
          exact hopen ⟨types, hparts, fun id hid heq => hnone ⟨id, hid, heq⟩⟩
        rw [textWithin_not_opened hclosed] at htext
        exact ⟨.closed ty, showsWithin_closed_iff.mpr hclosed, Option.some.inj htext⟩

/-! ## Spelling -/

/-- How the text of a part inside of these tuples is spelled. A function, a metatype and a union are
opened wherever they are, and a tuple without a name unless it is inside of itself; a tuple with a
name is closed wherever it is. -/
structure Spells (graph : Graph) (inner : Set Nat) (part : Drawing) : Prop where
  var : ∀ {subject}, part.subject = .var subject → part.text graph = "$T" ++ toString subject.id
  primitive : ∀ {kind}, part.subject = .primitive kind → part.text graph = kind.name
  named : ∀ {id node}, part.subject = .named id → graph.named? id = some node →
    part.text graph = node.name
  unknown : ¬ graph.Holds part.subject → part.text graph = "<unknown>"
  function : ∀ {domain codomain},
    graph.branch? part.subject = some (.function ⟨domain, codomain⟩) →
      ∃ first second, part = .opened part.subject [first, second] ∧
        first.subject = domain ∧ second.subject = codomain ∧
        part.text graph = "(" ++ first.text graph ++ ") -> " ++ second.text graph
  metatype : ∀ {of}, graph.branch? part.subject = some (.metatype ⟨of⟩) →
    ∃ inside, part = .opened part.subject [inside] ∧ inside.subject = of ∧
      part.text graph = inside.text graph ++ ".Type"
  union : ∀ {cases}, graph.branch? part.subject = some (.union ⟨cases⟩) →
    ∃ parts, part = .opened part.subject parts ∧ parts.map Drawing.subject = cases.toList ∧
      part.text graph = " | ".intercalate (parts.map (Drawing.text graph))
  anonymous : ∀ {id elements}, part.subject = .tuple id →
    graph.tuple? id = some ⟨none, elements⟩ → id ∉ inner →
      ∃ parts, part = .opened (.tuple id) parts ∧
        parts.map Drawing.subject = elements.map (·.ty) ∧
        part.text graph = "(" ++ ", ".intercalate (List.zipWith labelled (elements.map (·.label))
          (parts.map (Drawing.text graph))) ++ ")"
  enclosed : ∀ {id elements}, part.subject = .tuple id →
    graph.tuple? id = some ⟨none, elements⟩ → id ∈ inner →
      part = .closed (.tuple id) ∧ part.text graph = "..."
  nominal : ∀ {id name elements}, part.subject = .tuple id →
    graph.tuple? id = some ⟨some name, elements⟩ →
      part = .closed (.tuple id) ∧ part.text graph = name

/-- A handle that names nothing has no parts. -/
theorem parts?_of_not_holds (hholds : ¬ graph.Holds ty) :
    graph.parts? ty = none ∧ graph.closedText ty = "<unknown>" := by
  cases ty with
  | var subject => exact absurd trivial hholds
  | primitive kind => exact absurd trivial hholds
  | tuple id =>
      have hnode : graph.tuple? id = none := Option.not_isSome_iff_eq_none.mp hholds
      simp only [parts?, branch?, closedText, hnode, and_self]
  | named id =>
      have hnode : graph.named? id = none := Option.not_isSome_iff_eq_none.mp hholds
      simp only [parts?, branch?, closedText, hnode, and_self]
  | function id | metatype id | union id =>
      have hbranch : graph.branch? _ = none := Option.not_isSome_iff_eq_none.mp hholds
      simp only [parts?, hbranch, closedText, and_self]

variable {around : Set Nat} {types : List Ty} {part : Drawing}

theorem ShowsWithin.open (hshows : graph.ShowsWithin around ty part)
    (hparts : graph.parts? ty = some types) (hopen : ∀ id ∈ around, ty ≠ .tuple id) :
    ∃ parts, part = .opened ty parts ∧ parts.map Drawing.subject = types ∧
      part.text graph = graph.frame ty (parts.map (Drawing.text graph)) := by
  cases part with
  | closed last =>
      obtain rfl : last = ty := hshows.subject
      obtain ⟨id, hid, heq⟩ := showsWithin_closed_iff.mp hshows _ hparts
      exact absurd heq (hopen id hid)
  | opened last parts =>
      obtain rfl : last = ty := hshows.subject
      obtain ⟨hopened, -, -⟩ := showsWithin_opened_iff.mp hshows
      refine ⟨parts, rfl, Option.some.inj (hopened.symm.trans hparts), ?_⟩
      rw [Drawing.text, Drawing.texts_eq_map]

theorem ShowsWithin.close (hshows : graph.ShowsWithin around ty part)
    (hclosed : ∀ types, graph.parts? ty = some types → ∃ id ∈ around, ty = .tuple id) :
    part = .closed ty ∧ part.text graph = graph.closedText ty := by
  obtain rfl := hshows.unique (showsWithin_closed_iff.mpr hclosed)
  exact ⟨rfl, Drawing.text.eq_1 graph ty⟩

/-- A branch is opened wherever it is. -/
theorem ShowsWithin.branch {branch : Branch} (hshows : graph.ShowsWithin around ty part)
    (hbranch : graph.branch? ty = some branch) :
    ∃ parts, part = .opened ty parts ∧ parts.map Drawing.subject = branch.children ∧
      part.text graph = graph.frame ty (parts.map (Drawing.text graph)) := by
  refine hshows.open (by simp only [parts?, hbranch]) ?_
  rintro id - rfl
  cases hbranch

/-- What has no parts is closed wherever it is. -/
theorem ShowsWithin.leaf (hshows : graph.ShowsWithin around ty part)
    (hparts : graph.parts? ty = none) :
    part = .closed ty ∧ part.text graph = graph.closedText ty :=
  hshows.close fun types htypes => by
    rw [hparts] at htypes
    cases htypes

theorem ShowsWithin.spells (hshows : graph.ShowsWithin around part.subject part) :
    graph.Spells around part where
  var := by
    intro subject hsubject
    rw [hsubject] at hshows
    exact (hshows.leaf rfl).2
  primitive := by
    intro kind hsubject
    rw [hsubject] at hshows
    rw [(hshows.leaf rfl).2]
    cases kind <;> rfl
  named := by
    intro id node hsubject hnode
    rw [hsubject] at hshows
    rw [(hshows.leaf rfl).2, closedText, hnode]
  unknown := by
    intro hholds
    obtain ⟨hnone, htext⟩ := parts?_of_not_holds hholds
    rw [(hshows.leaf hnone).2, htext]
  function := by
    intro domain codomain hbranch
    obtain ⟨parts, hpart, hsubjects, htext⟩ := hshows.branch hbranch
    obtain ⟨first, rest, rfl, hfirst, hrest⟩ := List.map_eq_cons_iff.mp hsubjects
    obtain ⟨second, rfl, hsecond⟩ := List.map_eq_singleton_iff.mp hrest
    refine ⟨first, second, hpart, hfirst, hsecond, ?_⟩
    rw [htext, frame_of_branch hbranch]
    rfl
  metatype := by
    intro of hbranch
    obtain ⟨parts, hpart, hsubjects, htext⟩ := hshows.branch hbranch
    obtain ⟨inside, rfl, hinside⟩ := List.map_eq_singleton_iff.mp hsubjects
    refine ⟨inside, hpart, hinside, ?_⟩
    rw [htext, frame_of_branch hbranch]
    rfl
  union := by
    intro cases hbranch
    obtain ⟨parts, hpart, hsubjects, htext⟩ := hshows.branch hbranch
    refine ⟨parts, hpart, hsubjects, ?_⟩
    rw [htext, frame_of_branch hbranch]
    rfl
  anonymous := by
    intro id elements hsubject hnode hid
    rw [hsubject] at hshows
    have hparts := parts?_tuple_iff.mpr ⟨elements, hnode, rfl⟩
    obtain ⟨parts, hpart, hsubjects, htext⟩ := hshows.open hparts fun other hother heq => by
      cases heq
      exact hid hother
    refine ⟨parts, hpart, hsubjects, ?_⟩
    rw [htext, frame, labels_eq hnode]
  enclosed := by
    intro id elements hsubject hnode hid
    rw [hsubject] at hshows
    obtain ⟨hpart, htext⟩ := hshows.close fun _ _ => ⟨id, hid, rfl⟩
    refine ⟨hpart, ?_⟩
    rw [htext, closedText, hnode]
  nominal := by
    intro id name elements hsubject hnode
    rw [hsubject] at hshows
    obtain ⟨hpart, htext⟩ := hshows.leaf (by simp only [parts?, branch?, hnode])
    refine ⟨hpart, ?_⟩
    rw [htext, closedText, hnode]

theorem Shows.contained {drawing : Drawing} {inner : Set Nat} (hshows : graph.Shows ty drawing)
    (hpart : drawing.Contains inner part) : graph.ShowsWithin inner part.subject part := by
  have hcontained := ShowsWithin.contained hshows hpart
  rwa [Set.union_empty] at hcontained

/-- Every type of a well-formed graph has a text, whatever the bound from `renderDepth` on is. It is
the text of the only drawing that shows the type. In it, a tuple without a name is shown by dots
wherever it is inside of itself, and with all of its elements everywhere else; functions, metatypes
and unions are shown with all of their parts everywhere, and a tuple with a name is shown by its
name everywhere. Parts for the same type inside of the same tuples look the same, wherever they are
in this drawing or in that of another type.

Whatever the stack is when a type starts to be shown, it is the same afterwards, and what is shown
is the type inside of the tuples on the stack. Their order and their number do not matter. -/
theorem rendered_as_drawn (hgraph : graph.WellFormed) (ty : Ty) :
    (∃ drawing, graph.Shows ty drawing ∧ (∀ other, graph.Shows ty other → other = drawing) ∧
      graph.render? ty = some (drawing.text graph) ∧
      (∀ limit, graph.renderDepth ≤ limit →
        (graph.renderWithin CaseSet.toList limit ty).run [] = some (drawing.text graph, [])) ∧
      (∀ inner part, drawing.Contains inner part → graph.Spells inner part) ∧
      ∀ second last inner part other, graph.Shows second last → drawing.Contains inner part →
        last.Contains inner other → part.subject = other.subject → part = other) ∧
    ∀ limit stack text after,
      (graph.renderWithin CaseSet.toList limit ty).run stack = some (text, after) →
        after = stack ∧
        (∃ part, graph.ShowsWithin {id | id ∈ stack} ty part ∧ part.text graph = text) ∧
        ∀ other : List Nat, (∀ id, id ∈ other ↔ id ∈ stack) →
          (graph.renderWithin CaseSet.toList limit ty).run other = some (text, other) := by
  refine ⟨?_, ?_⟩
  · obtain ⟨text, htext, hlimit⟩ := renderListed?_returns hgraph (fun _ _ => id) ty
    obtain ⟨drawing, hshows, rfl⟩ := exists_showsWithin (hlimit _ (Nat.le_refl _))
    have hempty : {id | id ∈ ([] : List Nat)} = (∅ : Set Nat) := by simp
    rw [hempty] at hshows
    refine ⟨drawing, hshows, fun other hother => hother.unique hshows, htext, ?_, ?_, ?_⟩
    · intro limit hbound
      rw [renderWithin_run, hlimit limit hbound, Option.map_some]
    · exact fun inner part hpart => (Shows.contained hshows hpart).spells
    · intro second last inner part other hlast hpart hother hsubject
      have hinside := Shows.contained hshows hpart
      rw [hsubject] at hinside
      exact hinside.unique (hlast.contained hother)
  · intro limit stack text after hrun
    rw [renderWithin_run, Option.map_eq_some_iff] at hrun
    obtain ⟨shown, hshown, heq⟩ := hrun
    obtain ⟨rfl, rfl⟩ := Prod.mk.inj heq
    refine ⟨rfl, exists_showsWithin hshown, fun other hsame => ?_⟩
    rw [renderWithin_run, textWithin_congr hsame, hshown, Option.map_some]

/-- Two tuples without names contain each other, one of them twice, and also by way of a function
and of a union with its metatype. The other one contains a tuple with a name, which contains the
first one. -/
def knotted : Graph where
  functions := ⟨#[⟨.tuple 1, .tuple 0⟩]⟩
  unions := ⟨#[⟨.ofList [.tuple 1, .metatype 0]⟩]⟩
  metatypes := ⟨#[⟨.tuple 1⟩]⟩
  tuples := ⟨#[⟨none, [⟨some "next", .tuple 1⟩, ⟨none, .tuple 1⟩, ⟨some "run", .function 0⟩,
    ⟨some "pick", .union 0⟩]⟩, ⟨none, [⟨none, .tuple 0⟩, ⟨none, .tuple 2⟩]⟩,
    ⟨some "Node", [⟨none, .tuple 0⟩]⟩]⟩
  nameds := ∅

theorem reached_knotted : knotted.Reached := by
  have hfirst : Reached (tuple ∅ none []).2 := .single (.tuple none (by decide))
  have hsecond := hfirst.tail (@Step.tuple _ none [] (by decide))
  have hthird := hsecond.tail (@Step.tuple _ (some "Node") [⟨none, .tuple 0⟩] (by decide))
  have hfunction := hthird.tail (@Step.function _ (.tuple 1) (.tuple 0) (by decide) (by decide))
  have hmetatype := hfunction.tail (@Step.metatype _ (.tuple 1) (by decide))
  have hunion := hmetatype.tail (@Step.union _ (.ofList [.tuple 1, .metatype 0]) (by decide))
  have hknot := hunion.tail (@Step.replaceElements _ _ 0 []
    [⟨some "next", .tuple 1⟩, ⟨none, .tuple 1⟩, ⟨some "run", .function 0⟩,
      ⟨some "pick", .union 0⟩] (by decide) rfl)
  exact hknot.tail (@Step.replaceElements _ _ 1 []
    [⟨none, .tuple 0⟩, ⟨none, .tuple 2⟩] (by decide) rfl)

/-- Every occurrence of the second tuple is expanded, as an element, in a function, as a case of a
union and in a metatype, although they are shown one after the other. -/
theorem rendered_as_drawn_knotted : knotted.WellFormed ∧
    ∃ drawing, knotted.Shows (.tuple 0) drawing ∧
      drawing.text knotted = "(next: (..., Node), (..., Node), run: ((..., Node)) -> ..., " ++
        "pick: (..., Node) | (..., Node).Type)" ∧
      (∀ inner part, drawing.Contains inner part → knotted.Spells inner part) ∧
      ∀ second last inner part other, knotted.Shows second last → drawing.Contains inner part →
        last.Contains inner other → part.subject = other.subject → part = other := by
  have hgraph := reached_knotted.wellFormed
  obtain ⟨⟨drawing, hshows, -, htext, -, hspells, hsame⟩, -⟩ := rendered_as_drawn hgraph (.tuple 0)
  have hrendered : knotted.render? (.tuple 0) =
      some ("(next: (..., Node), (..., Node), run: ((..., Node)) -> ..., " ++
        "pick: (..., Node) | (..., Node).Type)") := by decide
  exact ⟨hgraph, drawing, hshows, Option.some.inj (htext.symm.trans hrendered), hspells, hsame⟩

end Graph

end Inference
