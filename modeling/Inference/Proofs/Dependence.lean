import Inference.Proofs.Chains
import Inference.Proofs.WellFormed

/-!
# Dependence between variables

A bound variable depends on the variables that occur in what it is bound to, in
branches at any depth but not in tuples. Dependence has no cycle exactly if
bindings and branches together have none (`acyclic_next_iff`), and it does not
change when the graph grows (`dependsOn_of_grows`).
-/

namespace Inference

open Relation

namespace Table

/-- Every type that the table binds a variable to is a handle of the graph. -/
def Fits (table : Table) (graph : Graph) : Prop :=
  ∀ subject bound, table.get? subject = some bound → graph.Holds bound

/-- The variable is bound, and the other one occurs in what it is bound to. Branches are looked
into, and tuples are not. -/
def DependsOn (table : Table) (graph : Graph) (subject other : Variable) : Prop :=
  ∃ bound, table.get? subject = some bound ∧ ReflTransGen graph.Child bound (.var other)

/-- The step along a binding or from a branch to a child. -/
def Next (table : Table) (graph : Graph) (ty next : Ty) : Prop :=
  table.Link ty next ∨ graph.Child ty next

variable {table : Table} {graph before after : Graph} {ty next : Ty} {subject other : Variable}

/-- Bindings start at variables and steps to children at branches. -/
theorem not_link_of_child {child : Ty} (hchild : graph.Child ty child) (next : Ty) :
    ¬ table.Link ty next := by
  intro hlink
  obtain ⟨subject, rfl, -⟩ := hlink
  simp [Graph.Child, Graph.children, Graph.branch?] at hchild

theorem path_of_links (graph : Graph) (hpath : ReflTransGen table.Link ty next) :
    ReflTransGen (table.Next graph) ty next :=
  ReflTransGen.mono (fun _ _ => Or.inl) _ _ hpath

theorem path_of_children (table : Table) (hpath : ReflTransGen graph.Child ty next) :
    ReflTransGen (table.Next graph) ty next :=
  ReflTransGen.mono (fun _ _ => Or.inr) _ _ hpath

/-- A path of bindings and branches that ends at a type without a link first follows the chain of
bindings to its end. -/
theorem next_path_from_walk (hchains : Acyclic table.Link) {last : Ty}
    (hlast : ∀ next, ¬ table.Link last next) (hpath : ReflTransGen (table.Next graph) ty last) :
    ReflTransGen (table.Next graph) (table.walk ty) last :=
  path_from_walk hchains (fun hstep => hstep.imp_right not_link_of_child) hlast hpath

/-- At the end of the chain such a path ends, or it goes on to a child. -/
theorem next_path_cases (hchains : Acyclic table.Link) {last : Ty}
    (hlast : ∀ next, ¬ table.Link last next) (hpath : ReflTransGen (table.Next graph) ty last) :
    table.walk ty = last ∨ ∃ child, graph.Child (table.walk ty) child ∧
      ReflTransGen (table.Next graph) child last := by
  obtain heq | ⟨child, hlink | hchild, hrest⟩ :=
    (next_path_from_walk hchains hlast hpath).cases_head
  · exact .inl heq
  · exact absurd hlink ((ends_walk hchains ty).2 child)
  · exact .inr ⟨child, hchild, hrest⟩

/-- Chains have no cycle if bindings and branches together have none. -/
theorem acyclic_link (hacyclic : Acyclic (table.Next graph)) : Acyclic table.Link :=
  hacyclic.mono .inl

/-! ## Cycles -/

/-- A path from what a variable is bound to passes from each variable to one that it depends
on. -/
theorem dependsOn_of_path {bound : Ty} (hget : table.get? subject = some bound)
    (hto : ReflTransGen graph.Child bound ty)
    (hpath : ReflTransGen (table.Next graph) ty (.var other)) :
    TransGen (table.DependsOn graph) subject other := by
  induction hpath using ReflTransGen.head_induction_on generalizing subject bound with
  | refl => exact .single ⟨bound, hget, hto⟩
  | head hstep _ ih =>
      obtain ⟨middle, rfl, hmiddle⟩ | hchild := hstep
      · exact .head ⟨bound, hget, hto⟩ (ih hmiddle .refl)
      · exact ih hget (hto.tail hchild)

theorem path_of_dependsOn (hdepends : TransGen (table.DependsOn graph) subject other) :
    TransGen (table.Next graph) (.var subject) (.var other) := by
  induction hdepends with
  | single h =>
      obtain ⟨bound, hget, hpath⟩ := h
      exact .head' (.inl (link_var_iff.mpr hget)) (path_of_children table hpath)
  | tail _ h ih =>
      obtain ⟨bound, hget, hpath⟩ := h
      exact (ih.tail (.inl (link_var_iff.mpr hget))).trans_left (path_of_children table hpath)

/-- A path is along branches alone, or it is along some binding. -/
theorem path_cases (hpath : TransGen (table.Next graph) ty next) :
    TransGen graph.Child ty next ∨
      ∃ subject bound, ReflTransGen (table.Next graph) ty (.var subject) ∧
        table.get? subject = some bound ∧ ReflTransGen (table.Next graph) bound next := by
  induction hpath using TransGen.head_induction_on with
  | single hstep =>
      obtain ⟨subject, rfl, hget⟩ | hchild := hstep
      · exact .inr ⟨subject, _, .refl, hget, .refl⟩
      · exact .inl (.single hchild)
  | head hstep hrest ih =>
      obtain ⟨subject, rfl, hget⟩ | hchild := id hstep
      · exact .inr ⟨subject, _, .refl, hget, hrest.to_reflTransGen⟩
      · obtain hchildren | ⟨subject, bound, hto, hget, hfrom⟩ := ih
        · exact .inl (.head hchild hchildren)
        · exact .inr ⟨subject, bound, .head hstep hto, hget, hfrom⟩

/-- A cycle of bindings and branches contains a binding, because branches alone have no cycle. -/
theorem acyclic_next_iff (hgraph : Acyclic graph.Child) :
    Acyclic (table.Next graph) ↔ Acyclic (table.DependsOn graph) := by
  constructor
  · intro hacyclic subject hcycle
    exact hacyclic _ (path_of_dependsOn hcycle)
  · intro hacyclic ty hcycle
    obtain hchildren | ⟨subject, bound, hto, hget, hfrom⟩ := path_cases hcycle
    · exact hgraph ty hchildren
    · exact hacyclic subject (dependsOn_of_path hget .refl (hfrom.trans hto))

/-! ## Growing graphs -/

theorem Fits.of_grows (hfits : table.Fits before) (hgrows : before.Grows after) :
    table.Fits after :=
  fun subject bound hget => hgrows.holds (hfits subject bound hget)

/-- What a variable depends on does not change when the graph grows. -/
theorem dependsOn_of_grows (hfits : table.Fits before) (hbefore : before.WellFormed)
    (hgrows : before.Grows after) : table.DependsOn after = table.DependsOn before := by
  funext subject other
  refine propext (exists_congr fun bound => and_congr_right fun hget => ?_)
  exact hgrows.path_iff hbefore (hfits subject bound hget)

/-- The types of the table are handles of a well-formed graph, and bindings and branches together
have no cycle. This is what it takes to reify the handles of the graph. -/
structure Grounded (table : Table) (graph : Graph) : Prop where
  wellFormed : graph.WellFormed
  fits : table.Fits graph
  next : Acyclic (table.Next graph)

theorem Grounded.chains (hgrounded : table.Grounded graph) : Acyclic table.Link :=
  acyclic_link hgrounded.next

theorem Grounded.of_dependsOn (hgraph : graph.WellFormed) (hfits : table.Fits graph)
    (hacyclic : Acyclic (table.DependsOn graph)) : table.Grounded graph :=
  ⟨hgraph, hfits, (acyclic_next_iff hgraph.acyclic).mpr hacyclic⟩

theorem Grounded.of_grows (hgrounded : table.Grounded before) (hgrows : before.Grows after)
    (hafter : after.WellFormed) : table.Grounded after := by
  refine .of_dependsOn hafter (hgrounded.fits.of_grows hgrows) ?_
  rw [dependsOn_of_grows hgrounded.fits hgrounded.wellFormed hgrows]
  exact (acyclic_next_iff hgrounded.wellFormed.acyclic).mp hgrounded.next

/-- From a handle of a well-formed graph, bindings and branches lead to handles of the graph. -/
theorem holds_of_path (hfits : table.Fits graph) (hgraph : graph.WellFormed)
    (hholds : graph.Holds ty) (hpath : ReflTransGen (table.Next graph) ty next) :
    graph.Holds next := by
  induction hpath with
  | refl => exact hholds
  | tail _ hstep ih =>
      obtain ⟨subject, -, hget⟩ | hchild := hstep
      · exact hfits _ _ hget
      · exact hgraph.holds_child hchild

/-- The types of the bindings of a table that fits a graph, in any order, are handles of it. -/
theorem holds_of_perm {order : List (Variable × Ty)} (hfits : table.Fits graph)
    (horder : order.Perm table.entries) : ∀ ty ∈ order.map (·.2), graph.Holds ty := by
  intro ty hty
  obtain ⟨entry, hentry, rfl⟩ := List.mem_map.mp hty
  exact hfits _ _ (Bindings.mem_entries_iff.mp (horder.mem_iff.mp hentry))

end Table

end Inference
