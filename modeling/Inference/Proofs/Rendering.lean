import Inference.Proofs.Canonical
import Inference.Proofs.Reification.Termination
import Inference.Rendering

/-!
# Rendering returns

Showing a type leaves the stack of tuples as it was (`renderWithin_run`). So the tuples
around a type can be taken as given (`textWithin`), and of these only the set matters
(`textWithin_congr`).

What is shown of a type is what reifying it through a table without bindings would
enter: branches, and tuples that are not around it. So the effort of reification
bounds the paths that are shown, and every type of a well-formed graph has a text
(`renderListed?_returns`).

Two renderings that meet the same nodes, possibly under other handles, give the same
text (`Mirrors.renderListed?_eq`).
-/

namespace Inference

open Relation

namespace Branch

variable {branch : Branch} {listing : CaseSet → List Ty} {child : Ty}

theorem mem_children_of_mem_shown (hlisting : ∀ cases, ∀ ty ∈ listing cases, ty ∈ cases)
    (hchild : child ∈ branch.shown listing) : child ∈ branch.children := by
  cases branch with
  | union node => exact hlisting node.cases child hchild
  | _ => exact hchild

/-- The text around the children depends on the kind of the branch alone. -/
theorem render_map (branch : Branch) (renumber : Ty → Ty) :
    (branch.map renumber).render = branch.render := by
  funext texts
  cases branch with
  | function node => rcases texts with _ | ⟨_, _ | ⟨_, _ | _⟩⟩ <;> rfl
  | metatype node => rcases texts with _ | ⟨_, _ | _⟩ <;> rfl
  | union node => rfl

end Branch

namespace Graph

variable {graph left right : Graph} {listing other : CaseSet → List Ty} {ty : Ty} {id : Nat}

variable {branch : Branch} {enclosing : List Nat} {depth : Nat} {elements : List Element}

/-! ## One step -/

/-- The text of a type inside of these tuples, unless that takes a path longer than the bound. -/
def textWithin (graph : Graph) (listing : CaseSet → List Ty) :
    Nat → List Nat → Ty → Option String
  | 0, _, _ => none
  | depth + 1, enclosing, ty =>
      match graph.branch? ty, ty with
      | some branch, _ =>
          ((branch.shown listing).mapM (graph.textWithin listing depth enclosing)).map
            branch.render
      | none, .tuple id =>
          match graph.tuple? id with
          | none => some unknown
          | some ⟨some name, _⟩ => some name
          | some ⟨none, elements⟩ =>
              if id ∈ enclosing then some "..."
              else
                (elements.mapM fun element =>
                  (graph.textWithin listing depth (id :: enclosing) element.ty).map
                    element.render).map TupleNode.render
      | none, _ => some (graph.renderLeaf ty)

/-- The text of a type without its parts. -/
def closedText (graph : Graph) : Ty → String
  | .var subject => "$T" ++ toString subject.id
  | .primitive .int => "Int"
  | .primitive .float => "Float"
  | .primitive .bool => "Bool"
  | .primitive .string => "String"
  | .primitive .nothing => "Nothing"
  | .named id =>
      match graph.named? id with
      | some node => node.name
      | none => "<unknown>"
  | .tuple id =>
      match graph.tuple? id with
      | some ⟨some name, _⟩ => name
      | some ⟨none, _⟩ => "..."
      | none => "<unknown>"
  | _ => "<unknown>"

theorem renderLeaf_eq (hleaf : ∀ id, ty ≠ .tuple id) :
    graph.renderLeaf ty = graph.closedText ty := by
  cases ty with
  | var subject => rfl
  | tuple id => exact absurd rfl (hleaf id)
  | primitive kind => cases kind <;> rfl
  | named id =>
      simp only [renderLeaf, closedText]
      cases graph.named? id <;> rfl
  | _ => rfl

/-- Inside of these tuples, the type is a tuple that is shown with its elements. -/
def Expands (graph : Graph) (enclosing : List Nat) (ty : Ty) (id : Nat) (elements : List Element) :
    Prop :=
  ty = .tuple id ∧ graph.tuple? id = some ⟨none, elements⟩ ∧ id ∉ enclosing

theorem textWithin_branch (hbranch : graph.branch? ty = some branch) :
    graph.textWithin listing (depth + 1) enclosing ty =
      ((branch.shown listing).mapM (graph.textWithin listing depth enclosing)).map
        branch.render := by
  simp only [textWithin, hbranch]

theorem textWithin_expanded (hexpands : graph.Expands enclosing ty id elements) :
    graph.textWithin listing (depth + 1) enclosing ty =
      (elements.mapM fun element =>
        (graph.textWithin listing depth (id :: enclosing) element.ty).map element.render).map
          TupleNode.render := by
  obtain ⟨rfl, hnode, hid⟩ := hexpands
  simp only [textWithin, branch?, hnode, if_neg hid]

/-- What has no parts to show here has the same text whatever the bound is. -/
theorem textWithin_closed (hnone : graph.branch? ty = none)
    (hclosed : ∀ id elements, ¬ graph.Expands enclosing ty id elements) :
    graph.textWithin listing (depth + 1) enclosing ty = some (graph.closedText ty) := by
  unfold textWithin
  rw [hnone]
  cases ty with
  | tuple id =>
      match hnode : graph.tuple? id with
      | none => simp only [closedText, hnode, unknown]
      | some ⟨some name, elements⟩ => simp only [closedText, hnode]
      | some ⟨none, elements⟩ =>
          have hid : id ∈ enclosing := by
            by_contra hid
            exact hclosed id elements ⟨rfl, hnode, hid⟩
          simp only [closedText, hnode, if_pos hid]
  | _ => exact congrArg some (renderLeaf_eq (by simp))

/-- What is shown depends on the set of the tuples around it. -/
theorem textWithin_congr {others : List Nat} (hsame : ∀ id, id ∈ others ↔ id ∈ enclosing) :
    graph.textWithin listing depth others ty = graph.textWithin listing depth enclosing ty := by
  induction depth generalizing others enclosing ty with
  | zero => rfl
  | succ depth ih =>
      have hexpand : ∀ id elements, graph.Expands others ty id elements ↔
          graph.Expands enclosing ty id elements :=
        fun id _ => and_congr_right' (and_congr_right' (not_congr (hsame id)))
      cases hbranch : graph.branch? ty with
      | some branch =>
          rw [textWithin_branch hbranch, textWithin_branch hbranch]
          exact congrArg _ (mapM_congr fun child _ => ih hsame)
      | none =>
          by_cases hexpands : ∃ id elements, graph.Expands enclosing ty id elements
          · obtain ⟨id, elements, hexpands⟩ := hexpands
            have hinside : ∀ other, other ∈ id :: others ↔ other ∈ id :: enclosing := by
              simp [hsame]
            rw [textWithin_expanded hexpands, textWithin_expanded ((hexpand id _).mpr hexpands)]
            exact congrArg _ (mapM_congr fun element _ => congrArg _ (ih hinside))
          · have hclosed : ∀ id elements, ¬ graph.Expands enclosing ty id elements :=
              fun id elements h => hexpands ⟨id, elements, h⟩
            rw [textWithin_closed hbranch hclosed, textWithin_closed hbranch fun id elements h =>
              hclosed id elements ((hexpand id elements).mp h)]

/-! ## The stack -/

section

variable {σ α β : Type} {state after : σ}

/-- What follows a step that leaves the state as it is starts from this state. -/
theorem run_bind_eq {step : StateT σ Option α} {result : Option α} {rest : α → StateT σ Option β}
    {finish : α → β} (hstep : step.run state = result.map (·, state))
    (hrest : ∀ value, (rest value).run state = some (finish value, after)) :
    (step >>= rest).run state = (result.map finish).map (·, after) := by
  rw [StateT.run_bind, hstep]
  cases result with
  | none => rfl
  | some value => exact hrest value

/-- Steps that leave a state as it is leave it so one after the other. -/
theorem run_mapM_eq {step : α → StateT σ Option β} {result : α → Option β}
    (hstep : ∀ item, (step item).run state = (result item).map (·, state)) (items : List α) :
    (items.mapM step).run state = (items.mapM result).map (·, state) := by
  induction items with
  | nil => rfl
  | cons item items ih =>
      rw [List.mapM_cons, List.mapM_cons, StateT.run_bind, hstep]
      cases result item with
      | none => rfl
      | some value =>
          simp only [Option.map_some, Option.bind_eq_bind, Option.bind_some, StateT.run_bind, ih]
          cases items.mapM result with
          | none => rfl
          | some values => rfl

end

/-- Whatever the stack is, it is the same again after the type is shown, and its tuples are those
around the type. -/
theorem renderWithin_run (graph : Graph) (listing : CaseSet → List Ty) (depth : Nat) (ty : Ty)
    (stack : List Nat) : (graph.renderWithin listing depth ty).run stack =
      (graph.textWithin listing depth stack ty).map (·, stack) := by
  induction depth generalizing ty stack with
  | zero => rfl
  | succ depth ih =>
      unfold renderWithin textWithin
      cases hbranch : graph.branch? ty with
      | some branch => exact run_bind_eq (run_mapM_eq (fun child => ih child stack) _) fun _ => rfl
      | none =>
          cases ty with
          | tuple id =>
              match hnode : graph.tuple? id with
              | none =>
                  simp only [hnode]
                  rfl
              | some ⟨some name, elements⟩ =>
                  simp only [hnode]
                  rfl
              | some ⟨none, elements⟩ =>
                  have helement : ∀ element : Element, StateT.run (do
                      let text ← graph.renderWithin listing depth element.ty
                      pure (element.render text)) (id :: stack) =
                      ((graph.textWithin listing depth (id :: stack) element.ty).map
                        element.render).map (·, id :: stack) :=
                    fun element => run_bind_eq (ih element.ty (id :: stack)) fun _ => rfl
                  simp only [hnode]
                  rw [StateT.run_bind, StateT.run_get, pure_bind]
                  by_cases hid : id ∈ stack
                  · rw [if_pos hid, if_pos hid]
                    rfl
                  · rw [if_neg hid, if_neg hid, StateT.run_bind, StateT.run_modify, pure_bind]
                    exact run_bind_eq (run_mapM_eq helement elements) fun _ => rfl
          | _ => rfl

theorem renderListed?_eq_textWithin (graph : Graph) (listing : CaseSet → List Ty) (ty : Ty) :
    graph.renderListed? listing ty = graph.textWithin listing graph.renderDepth [] ty := by
  have hrun := renderWithin_run graph listing graph.renderDepth ty []
  rw [renderListed?, StateT.run'_eq, hrun]
  cases graph.textWithin listing graph.renderDepth [] ty with
  | none => rfl
  | some text => rfl

/-! ## Rendering returns -/

/-- A bound for the depth that showing a type inside of tuples takes: what reifying it through a
table without bindings takes once these tuples are entered. -/
noncomputable def renderEffort (graph : Graph) (enclosing : List Nat) (ty : Ty) : Nat :=
  ({} : Table).effort graph { graph, visited := enclosing } ty

theorem renderEffort_child_lt (hgraph : graph.WellFormed) (hbranch : graph.branch? ty = some branch)
    {child : Ty} (hchild : child ∈ branch.children) :
    graph.renderEffort enclosing child < graph.renderEffort enclosing ty := by
  have hwalk : ({} : Table).walk ty = ty := Table.walk_of_not_link (Table.not_link_empty ty)
  exact Table.effort_child_lt hgraph.next _ (hwalk.symm ▸ hbranch) hchild

theorem renderEffort_element_lt (hexpands : graph.Expands enclosing ty id elements)
    (element : Ty) :
    graph.renderEffort (id :: enclosing) element < graph.renderEffort enclosing ty := by
  obtain ⟨rfl, hnode, hid⟩ := hexpands
  have hentered : id ∉ ReifyState.visited { graph, visited := enclosing } := hid
  exact Table.effort_enter_lt _ hnode hentered element (.tuple id)

/-- A type has one text, whatever the bound above its effort is. -/
theorem textWithin_returns (hgraph : graph.WellFormed)
    (hlisting : ∀ cases, ∀ ty ∈ listing cases, ty ∈ cases)
    (heffort : graph.renderEffort enclosing ty < depth) : ∃ text, ∀ limit, depth ≤ limit →
      graph.textWithin listing limit enclosing ty = some text := by
  induction depth generalizing enclosing ty with
  | zero => omega
  | succ depth ih =>
      suffices hnext : ∃ text, ∀ limit, depth ≤ limit →
          graph.textWithin listing (limit + 1) enclosing ty = some text by
        obtain ⟨text, htext⟩ := hnext
        refine ⟨text, fun limit hlimit => ?_⟩
        obtain ⟨limit, rfl⟩ : ∃ rest, limit = rest + 1 := ⟨limit - 1, by omega⟩
        exact htext limit (by omega)
      cases hbranch : graph.branch? ty with
      | some branch =>
          have hchildren : ∀ child ∈ branch.shown listing, ∃ text, ∀ limit, depth ≤ limit →
              graph.textWithin listing limit enclosing child = some text := by
            intro child hchild
            have hin := Branch.mem_children_of_mem_shown hlisting hchild
            have hlt : graph.renderEffort enclosing child < graph.renderEffort enclosing ty :=
              renderEffort_child_lt hgraph hbranch hin
            exact ih (by omega)
          obtain ⟨texts, htexts⟩ := mapM_returns hchildren
          refine ⟨branch.render texts, fun limit hlimit => ?_⟩
          rw [textWithin_branch hbranch, htexts limit hlimit, Option.map_some]
      | none =>
          by_cases hexpands : ∃ id elements, graph.Expands enclosing ty id elements
          · obtain ⟨id, elements, hexpands⟩ := hexpands
            have helements : ∀ element ∈ elements, ∃ text, ∀ limit, depth ≤ limit →
                (graph.textWithin listing limit (id :: enclosing) element.ty).map
                  element.render = some text := by
              intro element _
              have hlt := renderEffort_element_lt hexpands element.ty
              obtain ⟨text, htext⟩ := ih (Nat.lt_of_lt_of_le hlt (Nat.le_of_lt_succ heffort))
              exact ⟨element.render text, fun limit hlimit => by
                rw [htext limit hlimit, Option.map_some]⟩
            obtain ⟨texts, htexts⟩ := mapM_returns helements
            refine ⟨TupleNode.render texts, fun limit hlimit => ?_⟩
            rw [textWithin_expanded hexpands, htexts limit hlimit, Option.map_some]
          · have hclosed : ∀ id elements, ¬ graph.Expands enclosing ty id elements :=
              fun id elements h => hexpands ⟨id, elements, h⟩
            exact ⟨graph.closedText ty, fun limit _ => textWithin_closed hbranch hclosed⟩

/-- Every type of a well-formed graph has one text, whatever the bound from `renderDepth` on is. -/
theorem renderListed?_returns (hgraph : graph.WellFormed)
    (hlisting : ∀ cases, ∀ ty ∈ listing cases, ty ∈ cases) (ty : Ty) :
    ∃ text, graph.renderListed? listing ty = some text ∧
      ∀ limit, graph.renderDepth ≤ limit →
        graph.textWithin listing limit [] ty = some text := by
  obtain ⟨text, htext⟩ := textWithin_returns hgraph hlisting
    (Table.effort_lt {} graph { graph, visited := [] } ty)
  refine ⟨text, ?_, htext⟩
  rw [renderListed?_eq_textWithin]
  exact htext _ (Nat.le_refl _)

/-! ## Renderings that meet the same nodes -/

/-- Renumbering takes the nodes that are met from types of this kind in one graph to the nodes that
are met in the other graph: branches of the same kind, whose children are shown in the same order,
and tuples with the same names and labels. -/
structure Mirrors (left right : Graph) (kind : Ty → Prop) (renumber : Ty → Ty)
    (listing other : CaseSet → List Ty) : Prop where
  branch : ∀ {ty branch}, kind ty → left.branch? ty = some branch →
    ∃ last, right.branch? (renumber ty) = some last ∧ last.render = branch.render ∧
      last.shown other = (branch.shown listing).map renumber
  child : ∀ {ty branch child}, kind ty → left.branch? ty = some branch →
    child ∈ branch.shown listing → kind child
  leaf : ∀ {ty}, kind ty → left.branch? ty = none →
    renumber ty = ty ∧ right.branch? ty = none
  tuple : ∀ {id}, kind (.tuple id) →
    right.tuple? id = (left.tuple? id).map (·.map renumber)
  element : ∀ {id elements element}, kind (.tuple id) →
    left.tuple? id = some ⟨none, elements⟩ → element ∈ elements → kind element.ty
  nameds : right.nameds = left.nameds

variable {kind : Ty → Prop} {renumber : Ty → Ty}

namespace Mirrors

theorem closedText_eq (hmirrors : Mirrors left right kind renumber listing other) (hty : kind ty) :
    right.closedText ty = left.closedText ty := by
  cases ty with
  | tuple id =>
      simp only [closedText, hmirrors.tuple hty]
      match left.tuple? id with
      | some ⟨some name, elements⟩ => rfl
      | some ⟨none, elements⟩ => rfl
      | none => rfl
  | primitive kind => cases kind <;> rfl
  | named id => simp only [closedText, named?, hmirrors.nameds]
  | _ => rfl

theorem expands_iff (hmirrors : Mirrors left right kind renumber listing other) (hty : kind ty) :
    right.Expands enclosing ty id elements ↔ ∃ olds, left.Expands enclosing ty id olds ∧
      elements = (TupleNode.map ⟨none, olds⟩ renumber).elements := by
  constructor
  · rintro ⟨rfl, hnode, hid⟩
    rw [hmirrors.tuple hty, Option.map_eq_some_iff] at hnode
    obtain ⟨⟨name, olds⟩, hold, heq⟩ := hnode
    cases heq
    exact ⟨olds, ⟨rfl, hold, hid⟩, rfl⟩
  · rintro ⟨olds, ⟨rfl, hnode, hid⟩, rfl⟩
    refine ⟨rfl, ?_, hid⟩
    rw [hmirrors.tuple hty, hnode]
    rfl

/-- Such renderings give the same text. -/
theorem textWithin_eq (hmirrors : Mirrors left right kind renumber listing other)
    (hty : kind ty) : right.textWithin other depth enclosing (renumber ty) =
      left.textWithin listing depth enclosing ty := by
  induction depth generalizing enclosing ty with
  | zero => rfl
  | succ depth ih =>
      cases hbranch : left.branch? ty with
      | some branch =>
          obtain ⟨last, hlast, hrender, hshown⟩ := hmirrors.branch hty hbranch
          rw [textWithin_branch hbranch, textWithin_branch hlast, hrender, hshown,
            List.mapM_map]
          exact congrArg _ (mapM_congr fun child hchild => ih (hmirrors.child hty hbranch hchild))
      | none =>
          obtain ⟨heq, hnone⟩ := hmirrors.leaf hty hbranch
          rw [heq]
          by_cases hexpands : ∃ id elements, left.Expands enclosing ty id elements
          · obtain ⟨id, elements, hexpands⟩ := hexpands
            have hright := (hmirrors.expands_iff hty).mpr ⟨elements, hexpands, rfl⟩
            obtain ⟨rfl, hnode, hid⟩ := hexpands
            rw [textWithin_expanded ⟨rfl, hnode, hid⟩, textWithin_expanded hright,
              TupleNode.map, List.mapM_map]
            refine congrArg _ (mapM_congr fun element helement => ?_)
            exact congrArg _ (ih (hmirrors.element hty hnode helement))
          · have hclosed : ∀ id elements, ¬ left.Expands enclosing ty id elements :=
              fun id elements h => hexpands ⟨id, elements, h⟩
            have hright : ∀ id elements, ¬ right.Expands enclosing ty id elements := by
              intro id elements h
              obtain ⟨olds, hold, -⟩ := (hmirrors.expands_iff hty).mp h
              exact hclosed id olds hold
            rw [textWithin_closed hbranch hclosed, textWithin_closed hnone hright,
              hmirrors.closedText_eq hty]

theorem renderListed?_eq (hmirrors : Mirrors left right kind renumber listing other)
    (hleft : left.WellFormed) (hright : right.WellFormed)
    (hlisting : ∀ cases, ∀ ty ∈ listing cases, ty ∈ cases)
    (hother : ∀ cases, ∀ ty ∈ other cases, ty ∈ cases) (hty : kind ty) :
    right.renderListed? other (renumber ty) = left.renderListed? listing ty := by
  obtain ⟨text, htext, hlimit⟩ := renderListed?_returns hleft hlisting ty
  obtain ⟨last, hlast, hbound⟩ := renderListed?_returns hright hother (renumber ty)
  -- Both graphs allow a depth of their own, and from the larger one on nothing changes.
  have hsame := hbound _ (Nat.le_max_right left.renderDepth right.renderDepth)
  rw [hmirrors.textWithin_eq hty, hlimit _ (Nat.le_max_left _ _)] at hsame
  rw [htext, hlast, hsame]

end Mirrors

end Graph

end Inference
