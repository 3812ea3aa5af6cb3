import Mathlib.Logic.Relation

/-!
# Acyclic relations

A relation is acyclic when no path of at least one step returns to where it
starts. `Acyclic.add_edge` says which new edge keeps a relation acyclic, and
`height_lt` turns an acyclic relation into a measure: the number of listed nodes
that can be reached decreases along every edge that starts at a listed node.
-/

namespace Inference

open Relation

variable {α : Type}

/-- No path of at least one step returns to where it starts. -/
def Acyclic (step : α → α → Prop) : Prop := ∀ node, ¬ TransGen step node node

variable {step wider : α → α → Prop}

namespace Acyclic

/-- Fewer edges close no cycle. -/
theorem mono (hacyclic : Acyclic wider)
    (hstep : ∀ {left right}, step left right → wider left right) : Acyclic step :=
  fun node hcycle => hacyclic node (TransGen.mono (fun _ _ => hstep) _ _ hcycle)

/-- An edge whose end does not lead back to its start closes no cycle. -/
theorem add_edge (hacyclic : Acyclic step) (first last : α)
    (hwider : ∀ {left right}, wider left right →
      step left right ∨ left = first ∧ right = last)
    (hback : ¬ ReflTransGen step last first) : Acyclic wider := by
  -- A wider path either avoids the new edge or goes through it once.
  have hpath : ∀ {left right}, TransGen wider left right →
      TransGen step left right ∨
        ReflTransGen step left first ∧ ReflTransGen step last right := by
    intro left right hpath
    induction hpath with
    | single hedge =>
        obtain hold | ⟨rfl, rfl⟩ := hwider hedge
        · exact .inl (.single hold)
        · exact .inr ⟨.refl, .refl⟩
    | tail _ hedge ih =>
        obtain hold | ⟨rfl, rfl⟩ := hwider hedge
        · obtain hbefore | ⟨hto, hfrom⟩ := ih
          · exact .inl (hbefore.tail hold)
          · exact .inr ⟨hto, hfrom.tail hold⟩
        · obtain hbefore | ⟨-, hfrom⟩ := ih
          · exact .inr ⟨hbefore.to_reflTransGen, .refl⟩
          · exact absurd hfrom hback
  intro node hcycle
  obtain hold | ⟨hto, hfrom⟩ := hpath hcycle
  · exact hacyclic node hold
  · exact hback (hfrom.trans hto)

/-- Edges that start at a node without incoming edges close no cycle. -/
theorem add_source (hacyclic : Acyclic step) (fresh : α)
    (hwider : ∀ {left right}, wider left right → step left right ∨ left = fresh)
    (hfresh : ∀ left, ¬ wider left fresh) : Acyclic wider := by
  have hpath : ∀ {left right}, TransGen wider left right → left ≠ fresh →
      TransGen step left right := by
    intro left right hpath hleft
    induction hpath with
    | single hedge => exact .single ((hwider hedge).resolve_right hleft)
    | @tail middle _ _ hedge ih =>
        have hmiddle : middle ≠ fresh := by
          intro heq
          subst heq
          obtain ⟨_, -, hinto⟩ := TransGen.tail'_iff.mp ‹TransGen wider left middle›
          exact hfresh _ hinto
        exact ih.tail ((hwider hedge).resolve_right hmiddle)
  intro node hcycle
  refine hacyclic node (hpath hcycle ?_)
  intro heq
  subst heq
  obtain ⟨_, -, hinto⟩ := TransGen.tail'_iff.mp hcycle
  exact hfresh _ hinto

end Acyclic

/-- A path either avoids the edges out of a node, or it does so from some successor of the node
on. -/
theorem path_avoiding (node : α) {first last : α} (hpath : ReflTransGen step first last) :
    ReflTransGen (fun left right => step left right ∧ left ≠ node) first last ∨
      ∃ next, step node next ∧
        ReflTransGen (fun left right => step left right ∧ left ≠ node) next last := by
  induction hpath using ReflTransGen.head_induction_on with
  | refl => exact .inl .refl
  | @head first middle hedge _ ih =>
      obtain havoiding | hthrough := ih
      · by_cases h : first = node
        · subst h
          exact .inr ⟨middle, hedge, havoiding⟩
        · exact .inl (.head ⟨hedge, h⟩ havoiding)
      · exact .inr hthrough

/-- Two relations that agree on nodes of a kind which they do not leave have the same paths from
such nodes. -/
theorem path_iff_of_step_iff {kind : α → Prop}
    (hstep : ∀ {left right}, kind left → (wider left right ↔ step left right))
    (hkind : ∀ {left right}, kind left → step left right → kind right) {first last : α}
    (hfirst : kind first) : ReflTransGen wider first last ↔ ReflTransGen step first last := by
  constructor
  · intro hpath
    have hboth : ReflTransGen step first last ∧ kind last := by
      induction hpath with
      | refl => exact ⟨.refl, hfirst⟩
      | tail _ hlast ih =>
          have hold := (hstep ih.2).mp hlast
          exact ⟨ih.1.tail hold, hkind ih.2 hold⟩
    exact hboth.1
  · intro hpath
    induction hpath using ReflTransGen.head_induction_on with
    | refl => exact .refl
    | head hedge _ ih => exact .head ((hstep hfirst).mpr hedge) (ih (hkind hfirst hedge))

/-! ## Height -/

open Classical in
/-- The number of listed nodes that can be reached. -/
noncomputable def height (step : α → α → Prop) (nodes : List α) (node : α) : Nat :=
  nodes.countP fun other => ReflTransGen step node other

variable {nodes : List α}

theorem height_le_length (node : α) : height step nodes node ≤ nodes.length :=
  List.countP_le_length

/-- What a reachable node reaches is reachable. -/
theorem height_le {first last : α} (hpath : ReflTransGen step first last) :
    height step nodes last ≤ height step nodes first := by
  refine List.countP_mono_left ?_
  intro other _ hother
  simp only [decide_eq_true_eq] at hother ⊢
  exact hpath.trans hother

/-- An edge out of a listed node loses at least that node. -/
theorem height_lt (hacyclic : Acyclic step) {first last : α} (hfirst : first ∈ nodes)
    (hedge : step first last) : height step nodes last < height step nodes first := by
  have hlost : ¬ ReflTransGen step last first := fun hback =>
    hacyclic first (.head' hedge hback)
  induction nodes with
  | nil => cases hfirst
  | cons node rest ih =>
      have hle : height step rest last ≤ height step rest first := height_le (.single hedge)
      simp only [height, List.countP_cons] at ih hle ⊢
      by_cases h : first = node
      · subst h
        rw [if_neg (by simpa using hlost), if_pos (by simpa using .refl)]
        omega
      · have hlt := ih ((List.mem_cons.mp hfirst).resolve_left h)
        by_cases hreach : ReflTransGen step last node
        · rw [if_pos (by simpa using hreach), if_pos (by simpa using .head hedge hreach)]
          omega
        · rw [if_neg (by simpa using hreach)]
          omega

end Inference
