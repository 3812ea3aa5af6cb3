import Inference.Proofs.Reification.Correctness
import Mathlib.Data.Finset.Card

/-!
# Termination of reification

Reification ends if bindings and branches together have no cycle, whatever cycles
run through tuples. Every tuple that is entered leaves one tuple fewer to enter,
and between two tuples every step along a branch lowers the height of what is
left (`effort`). Tuples that are rewritten and branches that are added on the way
do not matter, because the height is that of the original graph. The depth that
`reify?` allows is above the effort of every type (`effort_lt_reifyDepth`).
-/

namespace Inference

open Relation

namespace Table

/-- The original tuples that are not entered. -/
def unentered (origin : Graph) (state : ReifyState) : Finset Nat :=
  {id ∈ Finset.range origin.tuples.size | id ∉ state.visited}

/-- A bound for the depth that reifying a type takes. Below a tuple, the rest of a path may reach
every branch of the original graph again. -/
noncomputable def effort (table : Table) (origin : Graph) (state : ReifyState) (ty : Ty) : Nat :=
  (unentered origin state).card * (origin.branchCount + 1) +
    height (table.Next origin) origin.branches ty

variable {table : Table} {origin : Graph} {state finish : ReifyState} {ty : Ty} {tys : List Ty}

theorem card_unentered_le (origin : Graph)
    (hvisited : ∀ {id}, id ∈ state.visited → id ∈ finish.visited) :
    (unentered origin finish).card ≤ (unentered origin state).card := by
  refine Finset.card_le_card ?_
  intro id hid
  simp only [unentered, Finset.mem_filter] at hid ⊢
  exact ⟨hid.1, fun hin => hid.2 (hvisited hin)⟩

theorem card_unentered_enter {id : Nat} {node : TupleNode} (hnode : origin.tuple? id = some node)
    (hid : id ∉ state.visited) :
    (unentered origin (state.enter id)).card < (unentered origin state).card := by
  refine Finset.card_lt_card (Finset.ssubset_iff_of_subset ?_ |>.mpr ⟨id, ?_, ?_⟩)
  · intro other hother
    simp only [unentered, Finset.mem_filter] at hother ⊢
    exact ⟨hother.1, fun hin => hother.2 (List.mem_cons_of_mem id hin)⟩
  · have hlt : id < origin.tuples.size := by
      by_contra hle
      have hnone : origin.tuple? id = none := Arena.get?_eq_none_iff.mpr (by omega)
      simp [hnone] at hnode
    simp [unentered, hlt, hid]
  · simp [unentered, ReifyState.enter]

theorem height_le_branchCount (table : Table) (origin : Graph) (ty : Ty) :
    height (table.Next origin) origin.branches ty ≤ origin.branchCount := by
  rw [← Graph.length_branches]
  exact height_le_length ty

/-- No type takes more effort than all branches below every tuple and once more above them. -/
theorem effort_lt (table : Table) (origin : Graph) (state : ReifyState) (ty : Ty) :
    table.effort origin state ty < (origin.tuples.size + 1) * (origin.branchCount + 1) := by
  have hcard : (unentered origin state).card ≤ origin.tuples.size := by
    have hle := Finset.card_filter_le (Finset.range origin.tuples.size) (· ∉ state.visited)
    rw [Finset.card_range] at hle
    exact hle
  have hheight := height_le_branchCount table origin ty
  unfold effort
  calc (unentered origin state).card * (origin.branchCount + 1) +
        height (table.Next origin) origin.branches ty
      ≤ origin.tuples.size * (origin.branchCount + 1) + origin.branchCount :=
        Nat.add_le_add (Nat.mul_le_mul_right _ hcard) hheight
    _ < (origin.tuples.size + 1) * (origin.branchCount + 1) := by
        rw [Nat.succ_mul]
        omega

theorem effort_lt_reifyDepth (table : Table) (origin : Graph) (state : ReifyState) (ty : Ty) :
    table.effort origin state ty < reifyDepth origin :=
  Nat.lt_of_lt_of_le (effort_lt table origin state ty) (Nat.mul_le_mul (by omega) (by omega))

/-- A type of a child of the branch at the end of the chain takes less effort. -/
theorem effort_child_lt (hnext : Acyclic (table.Next origin)) (state : ReifyState)
    {branch : Branch} {child : Ty} (hbranch : origin.branch? (table.walk ty) = some branch)
    (hchild : child ∈ branch.children) :
    table.effort origin state child < table.effort origin state ty := by
  have hin : table.walk ty ∈ origin.branches :=
    Graph.mem_branches_iff.mpr (Option.isSome_of_eq_some hbranch)
  have hlt := height_lt hnext hin (.inr (Graph.mem_children_iff.mpr ⟨branch, hbranch, hchild⟩))
  have hle : height (table.Next origin) origin.branches (table.walk ty) ≤
      height (table.Next origin) origin.branches ty :=
    height_le (path_of_links origin (path_walk table ty))
  unfold effort
  omega

/-- Once a tuple is entered, every type takes less effort than the tuple did. -/
theorem effort_enter_lt (table : Table) {id : Nat} {node : TupleNode}
    (hnode : origin.tuple? id = some node) (hid : id ∉ state.visited) (element ty : Ty) :
    table.effort origin (state.enter id) element < table.effort origin state ty := by
  have hcard := card_unentered_enter hnode hid
  have hheight := height_le_branchCount table origin element
  -- The tuple that is not left to enter pays for every branch below it.
  have hmul : ((unentered origin (state.enter id)).card + 1) * (origin.branchCount + 1) ≤
      (unentered origin state).card * (origin.branchCount + 1) := Nat.mul_le_mul_right _ hcard
  rw [Nat.succ_mul] at hmul
  unfold effort
  omega

/-- A type that is no handle of the graph is reified at once. -/
theorem reifyWithin_returns_of_not_holds (hty : ¬ origin.Holds ty) (depth : Nat)
    (hdepth : 0 < depth) :
    ∃ result finish, table.reifyWithin depth ty { graph := origin } = some (result, finish) := by
  obtain ⟨depth, rfl⟩ : ∃ rest, depth = rest + 1 := ⟨depth - 1, by omega⟩
  have hnone : origin.branch? ty = none := by
    by_contra hbranch
    obtain ⟨branch, hbranch⟩ := Option.ne_none_iff_exists'.mp hbranch
    exact hty (Graph.holds_of_branch? hbranch)
  have hwalk : table.walk ty = ty := by
    refine walk_of_not_link ?_
    intro next hlink
    obtain ⟨subject, rfl, -⟩ := hlink
    exact hty trivial
  simp only [reifyWithin, hwalk, hnone]
  cases ty with
  | tuple id =>
      have hmissing : origin.tuple? id = none := Option.not_isSome_iff_eq_none.mp hty
      exact ⟨.tuple id, ReifyState.enter { graph := origin } id, by
        simp [ReifyState.enter, hmissing]⟩
  | _ => exact ⟨_, _, rfl⟩

section

variable (horigin : origin.WellFormed) (hfits : table.Fits origin)
  (hnext : Acyclic (table.Next origin))

include horigin hfits hnext in
/-- Types can be reified one after the other if each of them can be reified in every later state. -/
theorem traverse_returns {depth limit : Nat}
    (hstep : ∀ {state ty}, Ready origin state → origin.Holds ty →
      table.effort origin state ty < limit →
      ∃ result finish, table.reifyWithin depth ty state = some (result, finish))
    (hready : Ready origin state) (hholds : ∀ ty ∈ tys, origin.Holds ty)
    (hlimit : ∀ ty ∈ tys, table.effort origin state ty < limit) :
    ∃ results finish,
      ReifyState.traverse (table.reifyWithin depth) tys state = some (results, finish) := by
  induction tys generalizing state with
  | nil => exact ⟨[], state, rfl⟩
  | cons ty tys ih =>
      have hty := hholds ty List.mem_cons_self
      obtain ⟨result, middle, hfirst⟩ := hstep hready hty (hlimit ty List.mem_cons_self)
      have hreifies := reifyWithin_sound hfirst
      have hsource : ∀ other ∈ [ty], origin.Holds other := List.forall_mem_singleton.mpr hty
      obtain ⟨hmiddle, hgrows⟩ := hreifies.grows hfits hready hsource
      obtain ⟨hpass, -⟩ := hreifies.pass horigin hfits (acyclic_link hnext) hready hsource
      -- What is reified first only enters tuples, so the others take no more effort than before.
      have hrest : ∀ other ∈ tys, table.effort origin middle other < limit := by
        intro other hother
        have hmul := Nat.mul_le_mul_right (origin.branchCount + 1)
          (card_unentered_le origin hpass.visited)
        have hbefore := hlimit other (List.mem_cons_of_mem ty hother)
        unfold effort at hbefore ⊢
        omega
      obtain ⟨results, finish, htraverse⟩ := ih (hready.of_pass hpass hgrows hmiddle)
        (fun other hother => hholds other (List.mem_cons_of_mem ty hother)) hrest
      refine ⟨result :: results, finish, ?_⟩
      simp [ReifyState.traverse, hfirst, htraverse]

include horigin hfits hnext in
/-- Reifying a handle of the original graph returns if the depth is above the effort. -/
theorem reifyWithin_returns {depth : Nat} (hready : Ready origin state) (hty : origin.Holds ty)
    (hdepth : table.effort origin state ty < depth) :
    ∃ result finish, table.reifyWithin depth ty state = some (result, finish) := by
  induction depth generalizing state ty with
  | zero => omega
  | succ depth ih =>
      have hwalk := holds_walk hfits horigin hty
      have hsame := hready.grows.branch?_eq hwalk
      simp only [reifyWithin]
      split
      · rename_i branch hbranch
        rw [hsame] at hbranch
        obtain ⟨children, middle, hchildren⟩ :=
          traverse_returns horigin hfits hnext ih hready
            (fun child hchild => horigin.holds_of_mem hbranch hchild) fun child hchild => by
              have hlt := effort_child_lt hnext state hbranch hchild
              omega
        rw [hchildren]
        exact ⟨_, _, rfl⟩
      · rename_i id hnone heq
        split
        · exact ⟨_, _, rfl⟩
        · rename_i hid
          split
          · exact ⟨_, _, rfl⟩
          · rename_i node hnode
            have horiginal : origin.tuple? id = some node := by
              rw [← hready.unentered hid]
              exact hnode
            have hentered : Ready origin (state.enter id) := hready.enter id
            obtain ⟨types, middle, htypes⟩ :=
              traverse_returns horigin hfits hnext ih hentered
                (fun element helement =>
                  horigin.holds_element ⟨id, node, rfl, horiginal, helement⟩)
                fun element _ => by
                  have hlt := effort_enter_lt table horiginal hid element ty
                  omega
            rw [htypes]
            exact ⟨_, _, rfl⟩
      · exact ⟨_, _, rfl⟩

include horigin hfits hnext in
/-- Reifying any type returns, whatever the bound from `reifyDepth` on is. A type that is no handle
of the graph is returned as it is. -/
theorem exists_reifyWithin (ty : Ty) {depth : Nat} (hdepth : reifyDepth origin ≤ depth) :
    ∃ result finish,
      table.reifyWithin depth ty { graph := origin } = some (result, finish) := by
  have hlt := effort_lt_reifyDepth table origin { graph := origin } ty
  by_cases hty : origin.Holds ty
  · exact reifyWithin_returns horigin hfits hnext (.start horigin) hty (by omega)
  · exact reifyWithin_returns_of_not_holds hty depth (by omega)

include horigin hfits hnext in
/-- Reifying any type returns, and no larger bound would give another result. -/
theorem reify?_returns (ty : Ty) : ∃ result finish,
    table.reify? origin ty = some (result, finish.graph) ∧
      ∀ depth, reifyDepth origin ≤ depth →
        table.reifyWithin depth ty { graph := origin } = some (result, finish) := by
  obtain ⟨result, finish, hleast⟩ := exists_reifyWithin horigin hfits hnext ty (Nat.le_refl _)
  refine ⟨result, finish, by rw [reify?, hleast]; rfl, ?_⟩
  intro depth hdepth
  obtain ⟨other, last, hmore⟩ := exists_reifyWithin horigin hfits hnext ty hdepth
  obtain ⟨heq, rfl⟩ := (reifyWithin_sound hmore).unique (reifyWithin_sound hleast)
  cases heq
  exact hmore

include horigin hfits hnext in
/-- Reifying handles one after the other returns, whatever the bound from `reifyDepth` on is. -/
theorem exists_traverse (hholds : ∀ ty ∈ tys, origin.Holds ty) {depth : Nat}
    (hdepth : reifyDepth origin ≤ depth) : ∃ results finish,
      ReifyState.traverse (table.reifyWithin depth) tys { graph := origin } =
        some (results, finish) := by
  refine traverse_returns horigin hfits hnext (reifyWithin_returns horigin hfits hnext)
    (.start horigin) hholds ?_
  intro ty _
  exact Nat.lt_of_lt_of_le (effort_lt_reifyDepth table origin { graph := origin } ty) hdepth

include horigin hfits hnext in
/-- Reifying listed bindings returns, and no larger bound would give another result. -/
theorem reifiedAlong?_returns {order : List (Variable × Ty)}
    (hholds : ∀ ty ∈ order.map (·.2), origin.Holds ty) : ∃ reified results finish,
    table.reifiedAlong? order origin = some reified ∧ reified.graph = finish.graph ∧
      ∀ depth, reifyDepth origin ≤ depth →
        ReifyState.traverse (table.reifyWithin depth) (order.map (·.2)) { graph := origin } =
          some (results, finish) := by
  obtain ⟨results, finish, hleast⟩ :=
    exists_traverse horigin hfits hnext hholds (Nat.le_refl _)
  refine ⟨_, results, finish, by rw [reifiedAlong?, traverse_entries, hleast]; rfl, rfl, ?_⟩
  intro depth hdepth
  obtain ⟨others, last, hmore⟩ := exists_traverse horigin hfits hnext hholds hdepth
  obtain ⟨rfl, rfl⟩ := (traverse_sound reifyWithin_sound hmore).unique
    (traverse_sound reifyWithin_sound hleast)
  exact hmore

end

/-- The bindings of a table can be reified in any order. -/
theorem exists_reifiedAlong (hgrounded : table.Grounded graph) {order : List (Variable × Ty)}
    (horder : order.Perm table.entries) : ∃ results finish,
      table.reifiedAlong? order graph = some
        { table := { table with bindings := .ofList ((order.map (·.1)).zip results) }
          graph := finish.graph
          tuples := finish.visited.length } ∧
      table.Reifies { graph } (order.map (·.2)) results finish := by
  obtain ⟨reified, -, -, hreified, -⟩ := reifiedAlong?_returns hgrounded.wellFormed hgrounded.fits
    hgrounded.next (holds_of_perm hgrounded.fits horder)
  obtain ⟨results, finish, hreifies, rfl⟩ := reifiedAlong?_sound hreified
  exact ⟨results, finish, hreified, hreifies⟩

end Table

end Inference
