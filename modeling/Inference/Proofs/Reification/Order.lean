import Inference.Proofs.Binding
import Inference.Proofs.Reification.Branches
import Inference.Proofs.Session
import Mathlib.Data.Set.Card

/-!
# Reification in any order

The bindings of a table are reified one after the other, and what is entered or
interned for one of them is found there by the next. Still the order matters for
the numbers of new branches alone (`reified_in_any_order`).

Read `Renews` first: it says what reifying the types of a table gives without
mentioning an order. Every order gives it (`renews_of_perm`), and it determines the
result up to these numbers (`Renews.alike`).
-/

namespace Inference

open Relation

/-- A reification enters no tuple twice. -/
theorem Table.Reifies.nodup {table : Table} {state finish : ReifyState} {tys results : List Ty}
    (hreifies : table.Reifies state tys results finish) (hstate : state.visited.Nodup) :
    finish.visited.Nodup := by
  induction hreifies with
  | nil => exact hstate
  | cons _ _ ihFirst ihRest => exact ihRest (ihFirst hstate)
  | branch _ _ ih => exact ih hstate
  | tuple _ hunentered _ _ ih =>
      rw [ReifyState.visited_replaceElements]
      exact ih (List.nodup_cons.mpr ⟨hunentered, hstate⟩)
  | again => exact hstate
  | missing _ hunentered _ => exact List.nodup_cons.mpr ⟨hunentered, hstate⟩
  | leaf => exact hstate

namespace Table

/-- The type can be reached from some type of the table, through bindings, branches and elements. -/
def Meets (table : Table) (graph : Graph) (ty : Ty) : Prop :=
  ∃ subject bound, table.get? subject = some bound ∧ ReflTransGen (table.Reach graph) bound ty

/-- What reifying the types of a table gives. The types settle, and so do the elements of the tuples
that are met. All other tuples and the named types stay as they are. The trees of the branches are
those of the branches before, and those of the branches that are met under the substitution. The
tuples that are met are counted. -/
structure Renews (table : Table) (graph : Graph) (reified : Reified) : Prop where
  wellFormed : reified.graph.WellFormed
  grows : graph.Grows reified.graph
  types : ∀ subject, Option.Rel (table.Settles graph reified.graph) (table.get? subject)
    (reified.table.get? subject)
  trees : ∀ shape, shape ∈ reified.graph.trees ↔ shape ∈ graph.trees ∨
    ∃ ty, table.Meets graph ty ∧ (graph.branch? ty).isSome ∧ table.Unfolds graph ty shape
  settled : ∀ id, table.Meets graph (.tuple id) → table.SettlesTuple graph reified.graph id
  untouched : ∀ id, ¬ table.Meets graph (.tuple id) →
    reified.graph.tuple? id = graph.tuple? id
  nameds : reified.graph.nameds = graph.nameds
  tuples : Set.encard {id | table.Meets graph (.tuple id)} = reified.tuples

variable {table source : Table} {graph left right : Graph} {ty other old : Ty} {id : Nat}
  {order : List (Variable × Ty)} {reified : Reified}

theorem Meets.holds (hmeets : table.Meets graph ty) (hgrounded : table.Grounded graph) :
    graph.Holds ty := by
  obtain ⟨subject, bound, hget, hpath⟩ := hmeets
  exact holds_of_reach hgrounded.fits hgrounded.wellFormed (hgrounded.fits subject bound hget) hpath

/-! ## Every order renews -/

/-- What can be reached from the listed types can be reached from the types of the table. -/
theorem meets_iff_of_perm (horder : order.Perm table.entries) :
    table.Meets graph ty ↔
      ∃ start ∈ order.map (·.2), ReflTransGen (table.Reach graph) start ty := by
  constructor
  · rintro ⟨subject, bound, hget, hpath⟩
    have hin := horder.mem_iff.mpr (Bindings.mem_entries_iff.mpr hget)
    exact ⟨bound, List.mem_map_of_mem hin, hpath⟩
  · rintro ⟨bound, hbound, hpath⟩
    obtain ⟨entry, hentry, rfl⟩ := List.mem_map.mp hbound
    exact ⟨entry.1, entry.2, Bindings.mem_entries_iff.mp (horder.mem_iff.mp hentry), hpath⟩

/-- Every order of the bindings gives what `Renews` says. -/
theorem renews_of_perm (hgrounded : table.Grounded graph) (horder : order.Perm table.entries)
    (hreified : table.reifiedAlong? order graph = some reified) : table.Renews graph reified := by
  have hgraph := hgrounded.wellFormed
  have hholds := holds_of_perm hgrounded.fits horder
  have htypes := rel_get?_reified hgraph hgrounded.fits hgrounded.chains horder hreified
  obtain ⟨results, finish, hreifies, rfl⟩ := reifiedAlong?_sound hreified
  obtain ⟨hfinish, hadvances, -⟩ := hreifies.advances hgrounded.fits hgraph hholds
  obtain ⟨hpass, -⟩ := hreifies.pass hgraph hgrounded.fits hgrounded.chains (.start hgraph) hholds
  have hvisited : ∀ {id}, id ∈ finish.visited ↔ table.Meets graph (.tuple id) := by
    intro id
    rw [hpass.mem_visited_iff, meets_iff_of_perm horder]
  exact {
    wellFormed := hfinish
    grows := hadvances.grows
    types := htypes
    trees := by
      intro shape
      rw [Graph.mem_trees_iff hfinish, Graph.mem_trees_iff hgraph,
        hreifies.branch_unfolds_iff hgrounded hholds]
      simp only [meets_iff_of_perm horder]
    settled := fun id hmeets => hpass.settled ⟨List.not_mem_nil, hvisited.mpr hmeets⟩
    untouched := fun id hmeets => hpass.untouched fun henters => hmeets (hvisited.mp henters.2)
    nameds := hadvances.nameds
    tuples := by
      have hset : {id | table.Meets graph (.tuple id)} = (finish.visited.toFinset : Set Nat) := by
        ext id
        simp [hvisited]
      rw [hset, Set.encard_coe_eq_coe_finsetCard,
        List.toFinset_card_of_nodup (hreifies.nodup .nil)] }

/-! ## What is renewed is alike -/

/-- What one type settles on in two graphs has the same tree. -/
theorem Settles.sameTree (hnext : Acyclic (source.Next graph)) (hleft : left.WellFormed)
    (hright : right.WellFormed) (hty : source.Settles graph left old ty)
    (hother : source.Settles graph right old other) : left.SameTree right ty other := by
  obtain ⟨shape, hshape⟩ := exists_unfolds hnext old
  exact (Graph.sameTree_iff hleft hright).mpr ⟨shape, hty.unfolds hshape, hother.unfolds hshape⟩

/-- A tuple that settles in two graphs is the same in both of them, up to the trees of its
elements. -/
theorem SettlesTuple.rel (hnext : Acyclic (source.Next graph)) (hleft : left.WellFormed)
    (hright : right.WellFormed) {node : TupleNode} (hnode : graph.tuple? id = some node)
    (hfirst : source.SettlesTuple graph left id) (hsecond : source.SettlesTuple graph right id) :
    Option.Rel (left.SameTuple right) (left.tuple? id) (right.tuple? id) := by
  obtain ⟨elements, hnew, helements⟩ := hfirst node hnode
  obtain ⟨others, hother, hothers⟩ := hsecond node hnode
  rw [hnew, hother]
  refine .some ⟨rfl, forall₂_of_common ?_ helements hothers⟩
  intro element first second hfirst hsecond
  exact ⟨hsecond.label.trans hfirst.label.symm,
    hfirst.settles.sameTree hnext hleft hright hsecond.settles⟩

/-- A tuple that stays as it is settles without bindings. -/
theorem settlesTuple_of_grows (hgraph : graph.WellFormed) (hgrows : graph.Grows left)
    (hsame : left.tuple? id = graph.tuple? id) : ({} : Table).SettlesTuple graph left id := by
  intro node hnode
  refine ⟨node.elements, hsame.trans hnode, List.forall₂_same.mpr ?_⟩
  intro element helement
  have hholds := hgraph.holds_element ⟨id, node, rfl, hnode, List.mem_map_of_mem helement⟩
  exact ⟨rfl, hgrows.holds hholds, fun hunfolds =>
    Graph.Unfolds.of_grows hunfolds hgrows hgraph hholds, fun _ => rfl⟩

/-- The graphs of two results are alike. -/
theorem Renews.graph_alike {first second : Reified} (hfirst : table.Renews graph first)
    (hsecond : table.Renews graph second) (hgrounded : table.Grounded graph) :
    first.graph.Alike second.graph where
  trees shape := (hfirst.trees shape).trans (hsecond.trees shape).symm
  tuples id := by
    have hgraph := hgrounded.wellFormed
    by_cases hmeets : table.Meets graph (.tuple id)
    · obtain ⟨node, hnode⟩ := Option.isSome_iff_exists.mp (hmeets.holds hgrounded)
      exact (hfirst.settled id hmeets).rel hgrounded.next hfirst.wellFormed hsecond.wellFormed
        hnode (hsecond.settled id hmeets)
    · have hleft := hfirst.untouched id hmeets
      have hright := hsecond.untouched id hmeets
      cases hnode : graph.tuple? id with
      | none =>
          rw [hleft, hright, hnode]
          exact .none
      | some node =>
          exact (settlesTuple_of_grows hgraph hfirst.grows hleft).rel hgraph.next
            hfirst.wellFormed hsecond.wellFormed hnode
            (settlesTuple_of_grows hgraph hsecond.grows hright)
  nameds := hsecond.nameds.trans hfirst.nameds.symm

/-- The tables of two results bind the same variables, to types with the same trees. -/
theorem Renews.rel {first second : Reified} (hfirst : table.Renews graph first)
    (hsecond : table.Renews graph second) (hgrounded : table.Grounded graph)
    (subject : Variable) : Option.Rel (first.graph.SameTree second.graph)
      (first.table.get? subject) (second.table.get? subject) := by
  refine rel_of_common ?_ (hfirst.types subject) (hsecond.types subject)
  intro old ty other hty hother
  exact hty.sameTree hgrounded.next hfirst.wellFormed hsecond.wellFormed hother

/-! ## The numbers of branches -/

section

variable {first second : Reified} {renumber : Ty → Ty}
  (hrenumbers : first.graph.Renumbers second.graph renumber)
  (hfirst : table.Renews graph first) (hsecond : table.Renews graph second)
  (hgrounded : table.Grounded graph)

include hrenumbers hfirst hsecond hgrounded

/-- Renumbering leaves the handles of the graph before as they are. -/
theorem Renews.renumber_eq (hholds : graph.Holds ty) : renumber ty = ty := by
  have hgraph := hgrounded.wellFormed
  have hnew := hrenumbers.sameTree hfirst.wellFormed hsecond.wellFormed
    (hfirst.grows.holds hholds)
  obtain ⟨shape, hshape⟩ := hgraph.exists_unfolds ty
  have hself : first.graph.SameTree second.graph ty ty :=
    (Graph.sameTree_iff hfirst.wellFormed hsecond.wellFormed).mpr
      ⟨shape, hshape.of_grows hfirst.grows hgraph hholds,
        hshape.of_grows hsecond.grows hgraph hholds⟩
  exact hnew.unique hsecond.wellFormed hself

/-- Renumbering takes the types of one table to the types of the other one. -/
theorem Renews.get?_eq (subject : Variable) :
    second.table.get? subject = (first.table.get? subject).map renumber := by
  have hheld : ∀ ty, first.table.get? subject = some ty → first.graph.Holds ty := by
    intro ty hget
    obtain ⟨old, -, hsettles⟩ := exists_eq_some_of_rel (hfirst.types subject) hget
    exact hsettles.holds
  have hrelated := hfirst.rel hsecond hgrounded subject
  generalize first.table.get? subject = bound at hheld hrelated ⊢
  generalize second.table.get? subject = other at hrelated ⊢
  cases hrelated with
  | none => rfl
  | @some ty other hsame =>
      have hnew := hrenumbers.sameTree hfirst.wellFormed hsecond.wellFormed (hheld ty rfl)
      exact congrArg some (hsame.unique hsecond.wellFormed hnew)

end

/-- The results differ by the numbers of new branches alone. Their tables bind the same variables
to types with the same trees, their graphs are alike, and as many tuples were entered for both of
them. A renumbering that leaves the handles of the original graph as they are takes one graph and
one table to the other. -/
structure Reified.Alike (origin : Graph) (left right : Reified) : Prop where
  types : ∀ subject, Option.Rel (left.graph.SameTree right.graph)
    (left.table.get? subject) (right.table.get? subject)
  graph : left.graph.Alike right.graph
  renumbers : ∃ renumber, left.graph.Renumbers right.graph renumber ∧
    (∀ ty, origin.Holds ty → renumber ty = ty) ∧
    ∀ subject, right.table.get? subject = (left.table.get? subject).map renumber
  tuples : right.tuples = left.tuples

/-- What is said without an order determines the result up to the numbers of new branches. -/
theorem Renews.alike {first second : Reified} (hfirst : table.Renews graph first)
    (hsecond : table.Renews graph second) (hgrounded : table.Grounded graph) :
    first.Alike graph second where
  types := hfirst.rel hsecond hgrounded
  graph := hfirst.graph_alike hsecond hgrounded
  renumbers := by
    have halike := hfirst.graph_alike hsecond hgrounded
    obtain ⟨renumber, hrenumbers⟩ :=
      halike.exists_renumbers hfirst.wellFormed hsecond.wellFormed
    exact ⟨renumber, hrenumbers,
      fun ty hholds => hfirst.renumber_eq hrenumbers hsecond hgrounded hholds,
      hfirst.get?_eq hrenumbers hsecond hgrounded⟩
  tuples := ENat.natCast_inj.mp (hsecond.tuples.symm.trans hfirst.tuples)

/-- Reifying the types of a table in two orders of its bindings gives results that differ by the
numbers of new branches alone. As many tuples are entered as can be reached from the types. -/
theorem reified_in_any_order {first second : List (Variable × Ty)} (hreached : graph.Reached)
    (hfits : table.Fits graph) (hacyclic : Acyclic (table.DependsOn graph))
    (hfirst : first.Perm table.entries) (hsecond : second.Perm table.entries) :
    ∃ left right, table.reifiedAlong? first graph = some left ∧
      table.reifiedAlong? second graph = some right ∧ left.Alike graph right ∧
      Set.encard {id | table.Meets graph (.tuple id)} = left.tuples := by
  have hgrounded : table.Grounded graph := .of_dependsOn hreached.wellFormed hfits hacyclic
  obtain ⟨_, _, hleft, -⟩ := exists_reifiedAlong hgrounded hfirst
  obtain ⟨_, _, hright, -⟩ := exists_reifiedAlong hgrounded hsecond
  have hrenews := renews_of_perm hgrounded hfirst hleft
  exact ⟨_, _, hleft, hright, hrenews.alike (renews_of_perm hgrounded hsecond hright) hgrounded,
    hrenews.tuples⟩

theorem reified_in_any_order_looped : ∃ left right,
    looped.reifiedAlong? looped.entries .looped = some left ∧
      looped.reifiedAlong? looped.entries.reverse .looped = some right ∧
      left.Alike .looped right ∧
      Set.encard {id | looped.Meets .looped (.tuple id)} = left.tuples :=
  have hsound := Session.reached_looped.sound.tables looped List.mem_cons_self
  reified_in_any_order Graph.reached_looped hsound.fits hsound.acyclic (.refl _)
    (List.reverse_perm _)

-- The function that is reified first is the first one that is added.
example :
    let graph : Graph := (Graph.function (Graph.function ∅ (.var ⟨2⟩) (.var ⟨2⟩)).2
      (.var ⟨3⟩) (.var ⟨3⟩)).2
    let table := ofList [(⟨0⟩, .function 0), (⟨1⟩, .function 1), (⟨2⟩, .primitive .int),
      (⟨3⟩, .primitive .bool)]
    [table.entries, table.entries.reverse].map (fun order =>
      (table.reifiedAlong? order graph).bind (·.table.get? ⟨0⟩)) =
      [some (.function 2), some (.function 3)] := by decide

end Table

end Inference
