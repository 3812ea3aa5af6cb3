import Inference.Proofs.Canonical
import Inference.Proofs.Reification.Termination

/-!
# The branches that reification adds

Reification interns one branch for every branch of the original graph that can be
reached from the reified types through bindings, branches and elements, and no
others. So the trees of the branches in the end are those of the original branches,
and those of the branches that can be reached, under the substitution
(`Reifies.branch_unfolds_iff`). Read `Adds` first: it says this of one part of a
reification, in the way in which `Pass` does so for tuples.
-/

namespace Inference

open Relation

namespace Graph

variable {graph : Graph} {branch found : Branch} {ty : Ty}

/-- A branch that is there after interning was there before, or it is the interned one. -/
theorem branch?_intern_cases (hfound : (graph.intern branch).2.branch? ty = some found) :
    graph.branch? ty = some found ∨ ty = (graph.intern branch).1 := by
  obtain ⟨other, -, heq⟩ | ⟨-, other, grown, heq, -, hlookup, -, -⟩ := graph.intern_cases branch
  · rw [heq] at hfound
    exact .inl hfound
  · rw [heq] at hfound ⊢
    rw [hlookup] at hfound
    split at hfound
    · rename_i hty
      exact .inr hty
    · exact .inl hfound

end Graph

theorem ReifyState.branch?_replaceElements (state : ReifyState) (id : Nat)
    (elements : List Element) (ty : Ty) :
    (state.replaceElements id elements).graph.branch? ty = state.graph.branch? ty := by
  obtain ⟨-, heq⟩ | ⟨previous, graph, hreplace, heq⟩ := state.replaceElements_cases id elements
  · rw [heq]
  · obtain ⟨_, -, -, -, hbranch, -⟩ := Graph.replaceElements?_cases hreplace
    rw [heq]
    exact hbranch ty

namespace Table

/-- What the reification of types of the original graph does to the branches between two states. A
branch that is new settles an original branch that can be reached from the types. The branches that
are met without entering a tuple, from the types or from the elements of a tuple that is entered,
settle. -/
structure Adds (table : Table) (origin : Graph) (tys : List Ty) (state finish : ReifyState) :
    Prop where
  added : ∀ {ty branch}, finish.graph.branch? ty = some branch →
    state.graph.branch? ty = some branch ∨ ∃ start ∈ tys, ∃ old,
      ReflTransGen (table.Reach origin) start old ∧ (origin.branch? old).isSome ∧
      table.Settles origin finish.graph old ty
  closed : ∀ {id element old}, state.Enters finish id → origin.ElementOf (.tuple id) element →
    ReflTransGen (table.Next origin) element old → (origin.branch? old).isSome →
    ∃ result, table.Settles origin finish.graph old result
  direct : ∀ {ty old}, ty ∈ tys → ReflTransGen (table.Next origin) ty old →
    (origin.branch? old).isSome → ∃ result, table.Settles origin finish.graph old result

variable {table : Table} {origin graph after : Graph} {state middle finish : ReifyState}
  {ty old result : Ty} {tys results : List Ty} {shape : Shape}

/-- The end of the chain of a type settles on what the type settles on. -/
theorem Settles.walk (hsettles : table.Settles origin after ty result) :
    table.Settles origin after (table.walk ty) result where
  holds := hsettles.holds
  unfolds hunfolds := hsettles.unfolds ((unfolds_walk_iff table origin ty _).mp hunfolds)
  resolved := hsettles.resolved

/-- A path to a branch leads to the branch at the end of the chain, and from there on to a child. -/
theorem branch_path_cases (hchains : Acyclic table.Link)
    (hpath : ReflTransGen (table.Next origin) ty old) (hold : (origin.branch? old).isSome) :
    table.walk ty = old ∨ ∃ branch, origin.branch? (table.walk ty) = some branch ∧
      ∃ child ∈ branch.children, ReflTransGen (table.Next origin) child old := by
  obtain ⟨found, hfound⟩ := Option.isSome_iff_exists.mp hold
  obtain heq | ⟨child, hchild, hrest⟩ :=
    next_path_cases hchains (not_link_of_branch? hfound) hpath
  · exact .inl heq
  · obtain ⟨branch, hbranch, hin⟩ := Graph.mem_children_iff.mp hchild
    exact .inr ⟨branch, hbranch, child, hin, hrest⟩

/-! ## The parts of a reification -/

/-- Nothing is added if the chains of the types do not end at branches. -/
theorem Adds.refl (hchains : Acyclic table.Link)
    (hnone : ∀ ty ∈ tys, origin.branch? (table.walk ty) = none) :
    table.Adds origin tys state state where
  added := .inl
  closed henters := absurd henters.2 henters.1
  direct {ty old} hty hpath hold := by
    obtain heq | ⟨branch, hbranch, -⟩ := branch_path_cases hchains hpath hold
    · rw [← heq, hnone ty hty] at hold
      cases hold
    · rw [hnone ty hty] at hbranch
      cases hbranch

theorem Adds.cons (hfirst : table.Adds origin [ty] state middle)
    (hrest : table.Adds origin tys middle finish) (hmiddle : middle.graph.WellFormed)
    (hgrows : middle.graph.Grows finish.graph) :
    table.Adds origin (ty :: tys) state finish where
  added hbranch := by
    obtain hbefore | ⟨start, hstart, hsettled⟩ := hrest.added hbranch
    · obtain hold | ⟨start, hstart, old, hpath, hold, hsettles⟩ := hfirst.added hbefore
      · exact .inl hold
      · rw [List.mem_singleton.mp hstart] at hpath
        exact .inr ⟨ty, List.mem_cons_self, old, hpath, hold, hsettles.of_grows hmiddle hgrows⟩
    · exact .inr ⟨start, List.mem_cons_of_mem ty hstart, hsettled⟩
  closed henters helement hpath hold := by
    obtain hbefore | hafter := enters_cases middle henters
    · obtain ⟨result, hsettles⟩ := hfirst.closed hbefore helement hpath hold
      exact ⟨result, hsettles.of_grows hmiddle hgrows⟩
    · exact hrest.closed hafter helement hpath hold
  direct hother hpath hold := by
    obtain heq | hin := List.mem_cons.mp hother
    · obtain ⟨result, hsettles⟩ := hfirst.direct (List.mem_singleton.mpr heq) hpath hold
      exact ⟨result, hsettles.of_grows hmiddle hgrows⟩
    · exact hrest.direct hin hpath hold

/-- Reifying a branch adds what its children add, and one branch that settles it. -/
theorem Adds.branch {branch interned : Branch}
    (hadds : table.Adds origin branch.children state middle) (hchains : Acyclic table.Link)
    (hbranch : origin.branch? (table.walk ty) = some branch) (hmiddle : middle.graph.WellFormed)
    (hsettles : table.Settles origin (middle.intern interned).2.graph ty
      (middle.intern interned).1) :
    table.Adds origin [ty] state (middle.intern interned).2 := by
  have hwalk : ReflTransGen (table.Reach origin) ty (table.walk ty) :=
    reach_of_next (path_of_links origin (path_walk table ty))
  have hgrows : middle.graph.Grows (middle.intern interned).2.graph :=
    Graph.grows_intern middle.graph interned
  exact {
    added := by
      intro other found hfound
      obtain hbefore | rfl := Graph.branch?_intern_cases hfound
      · obtain hold | ⟨child, hchild, old, hpath, hold, hsettled⟩ := hadds.added hbefore
        · exact .inl hold
        · have hstep : table.Reach origin (table.walk ty) child :=
            .inl (.inr (Graph.mem_children_iff.mpr ⟨branch, hbranch, hchild⟩))
          exact .inr ⟨ty, List.mem_cons_self, old, hwalk.trans (.head hstep hpath), hold,
            hsettled.of_grows hmiddle hgrows⟩
      · exact .inr ⟨ty, List.mem_cons_self, table.walk ty, hwalk,
          Option.isSome_of_eq_some hbranch, hsettles.walk⟩
    closed := by
      intro id element old henters helement hpath hold
      obtain ⟨result, hsettled⟩ := hadds.closed henters helement hpath hold
      exact ⟨result, hsettled.of_grows hmiddle hgrows⟩
    direct := by
      intro other old hother hpath hold
      rw [List.mem_singleton.mp hother] at hpath
      obtain rfl | ⟨found, hfound, child, hchild, hrest⟩ :=
        branch_path_cases hchains hpath hold
      · exact ⟨_, hsettles.walk⟩
      · rw [hbranch] at hfound
        cases hfound
        obtain ⟨result, hsettled⟩ := hadds.direct hchild hrest hold
        exact ⟨result, hsettled.of_grows hmiddle hgrows⟩ }

/-- Reifying a tuple for the first time adds what its elements add. -/
theorem Adds.tuple {id : Nat} {node : TupleNode} {elements : List Element}
    (hadds : table.Adds origin (node.elements.map (·.ty)) (state.enter id) middle)
    (hchains : Acyclic table.Link) (hwalk : table.walk ty = .tuple id)
    (hnode : origin.tuple? id = some node) (hmiddle : middle.graph.WellFormed) :
    table.Adds origin [ty] state (middle.replaceElements id elements) := by
  have hgrows := (middle.advances_replaceElements id elements).grows
  have hpath : ReflTransGen (table.Reach origin) ty (.tuple id) := by
    rw [← hwalk]
    exact reach_of_next (path_of_links origin (path_walk table ty))
  exact {
    added := by
      intro other found hfound
      rw [ReifyState.branch?_replaceElements] at hfound
      obtain hbefore | ⟨element, helement, old, hrest, hold, hsettles⟩ := hadds.added hfound
      · exact .inl hbefore
      · exact .inr ⟨ty, List.mem_cons_self, old,
          hpath.trans (.head (.inr ⟨id, node, rfl, hnode, helement⟩) hrest), hold,
          hsettles.of_grows hmiddle hgrows⟩
    closed := by
      intro other element old henters helement hrest hold
      rw [ReifyState.enters_replaceElements] at henters
      have hsettled : ∃ result, table.Settles origin middle.graph old result := by
        obtain rfl | ⟨-, hinner⟩ := enters_enter id henters
        · obtain ⟨found, owner, heq, hfound, hin⟩ := helement
          cases heq
          rw [hnode] at hfound
          cases hfound
          exact hadds.direct hin hrest hold
        · exact hadds.closed hinner helement hrest hold
      obtain ⟨result, hsettles⟩ := hsettled
      exact ⟨result, hsettles.of_grows hmiddle hgrows⟩
    direct := by
      intro other old hother hrest hold
      rw [List.mem_singleton.mp hother] at hrest
      obtain heq | ⟨branch, hbranch, -⟩ := branch_path_cases hchains hrest hold
      · rw [← heq, hwalk] at hold
        cases hold
      · rw [hwalk] at hbranch
        cases hbranch }

/-- Reifying handles of the original graph adds the branches that settle those that are reached. -/
theorem Reifies.adds (hreifies : table.Reifies state tys results finish)
    (hgrounded : table.Grounded origin) (hready : Ready origin state)
    (hholds : ∀ ty ∈ tys, origin.Holds ty) : table.Adds origin tys state finish := by
  have horigin := hgrounded.wellFormed
  have hfits := hgrounded.fits
  have hchains := hgrounded.chains
  induction hreifies with
  | nil => exact .refl hchains fun ty hty => absurd hty List.not_mem_nil
  | @cons state middle finish ty tys result results hfirst hrest ihFirst ihRest =>
      have hty := List.forall_mem_singleton.mpr (hholds ty List.mem_cons_self)
      have htys : ∀ other ∈ tys, origin.Holds other := fun other hother =>
        hholds other (List.mem_cons_of_mem ty hother)
      obtain ⟨hmiddle, hgrows⟩ := hfirst.grows hfits hready hty
      obtain ⟨hpass, -⟩ := hfirst.pass horigin hfits hchains hready hty
      have hnext := hready.of_pass hpass hgrows hmiddle
      obtain ⟨-, hlast⟩ := hrest.grows hfits hnext htys
      exact (ihFirst hready hty).cons (ihRest hnext htys) hmiddle hlast
  | @branch state middle ty branch children hbranch hchildren ih =>
      have hwalk := holds_walk hfits horigin (hholds ty List.mem_cons_self)
      obtain ⟨-, hsettles⟩ :=
        (Reifies.branch hbranch hchildren).pass horigin hfits hchains hready hholds
      rw [hready.grows.branch?_eq hwalk] at hbranch
      have hin : ∀ child ∈ branch.children, origin.Holds child :=
        fun child hchild => horigin.holds_of_mem hbranch hchild
      obtain ⟨hmiddle, -⟩ := hchildren.grows hfits hready hin
      cases hsettles with
      | cons hsettles _ => exact (ih hready hin).branch hchains hbranch hmiddle hsettles
  | @tuple state middle ty id node types hwalk hunentered hnode helements ih =>
      rw [hready.unentered hunentered] at hnode
      have hin : ∀ element ∈ node.elements.map (·.ty), origin.Holds element :=
        fun element helement => horigin.holds_element ⟨id, node, rfl, hnode, helement⟩
      obtain ⟨hmiddle, -⟩ := helements.grows hfits (hready.enter id) hin
      exact (ih (hready.enter id) hin).tuple hchains hwalk hnode hmiddle
  | @again state ty id hwalk =>
      refine .refl hchains (List.forall_mem_singleton.mpr ?_)
      rw [hwalk]
      rfl
  | @missing state ty id hwalk hunentered hmissing =>
      -- A handle of the graph names a tuple that is there.
      have hreached := holds_walk hfits horigin (hholds ty List.mem_cons_self)
      rw [hwalk, Graph.Holds, ← hready.unentered hunentered, hmissing] at hreached
      cases hreached
  | @leaf state ty hnone =>
      have hwalk := holds_walk hfits horigin (hholds ty List.mem_cons_self)
      rw [hready.grows.branch?_eq hwalk] at hnone
      exact .refl hchains (List.forall_mem_singleton.mpr hnone)

/-! ## Whole reifications -/

/-- If no tuple is entered before, every branch that can be reached settles. -/
theorem Adds.exists_settles (hadds : table.Adds graph tys { graph } finish)
    (hpass : table.Pass graph tys { graph } finish) (hty : ty ∈ tys)
    (hpath : ReflTransGen (table.Reach graph) ty old) (hold : (graph.branch? old).isSome) :
    ∃ result, table.Settles graph finish.graph old result := by
  -- From every type of the path on, the branches that are met before a tuple settle.
  have hmet : ∀ {last}, ReflTransGen (table.Next graph) old last → (graph.branch? last).isSome →
      ∃ result, table.Settles graph finish.graph last result := by
    clear hold
    induction hpath with
    | refl => exact hadds.direct hty
    | @tail owner element hbefore hstep ih =>
        intro last hrest hlast
        obtain hnext | helement := hstep
        · exact ih (.head hnext hrest) hlast
        · obtain ⟨id, node, rfl, -⟩ := id helement
          have hvisited : id ∈ finish.visited := hpass.mem_visited_iff.mpr ⟨ty, hty, hbefore⟩
          exact hadds.closed ⟨List.not_mem_nil, hvisited⟩ helement hrest hlast
  exact hmet .refl hold

/-- The trees of the branches in the end are those of the original branches, and those of the
original branches that can be reached, under the substitution. -/
theorem Reifies.branch_unfolds_iff (hreifies : table.Reifies { graph } tys results finish)
    (hgrounded : table.Grounded graph) (hholds : ∀ ty ∈ tys, graph.Holds ty) :
    (∃ ty, (finish.graph.branch? ty).isSome ∧ finish.graph.Unfolds ty shape) ↔
      (∃ ty, (graph.branch? ty).isSome ∧ graph.Unfolds ty shape) ∨
      ∃ old, (∃ start ∈ tys, ReflTransGen (table.Reach graph) start old) ∧
        (graph.branch? old).isSome ∧ table.Unfolds graph old shape := by
  have hgraph := hgrounded.wellFormed
  have hready := Ready.start hgraph
  have hadds := hreifies.adds hgrounded hready hholds
  obtain ⟨hpass, -⟩ := hreifies.pass hgraph hgrounded.fits hgrounded.chains hready hholds
  obtain ⟨hfinish, hgrows⟩ := hreifies.grows hgrounded.fits hready hholds
  constructor
  · rintro ⟨ty, hty, hshape⟩
    obtain ⟨branch, hbranch⟩ := Option.isSome_iff_exists.mp hty
    obtain hbefore | ⟨start, hstart, old, hpath, hold, hsettles⟩ := hadds.added hbranch
    · obtain ⟨other, hother⟩ := hgraph.exists_unfolds ty
      have hsame := hother.of_grows hgrows hgraph (Graph.holds_of_branch? hbefore)
      rw [← hsame.unique hshape]
      exact .inl ⟨ty, Option.isSome_of_eq_some hbefore, hother⟩
    · obtain ⟨other, hother⟩ := exists_unfolds hgrounded.next old
      rw [← (hsettles.unfolds hother).unique hshape]
      exact .inr ⟨old, ⟨start, hstart, hpath⟩, hold, hother⟩
  · rintro (⟨ty, hty, hshape⟩ | ⟨old, ⟨start, hstart, hpath⟩, hold, hshape⟩)
    · obtain ⟨branch, hbranch⟩ := Option.isSome_iff_exists.mp hty
      exact ⟨ty, Option.isSome_of_eq_some (hgrows.branch hbranch),
        hshape.of_grows hgrows hgraph (Graph.holds_of_branch? hbranch)⟩
    · obtain ⟨result, hsettles⟩ := hadds.exists_settles hpass hstart hpath hold
      have hresult := hsettles.unfolds hshape
      obtain ⟨branch, hbranch⟩ := Option.isSome_iff_exists.mp hold
      obtain ⟨shapes, -, rfl⟩ := hshape.branch_cases hbranch
      exact ⟨result, hresult.isSome_branch? (branch.shape_ne_leaf _), hresult⟩

end Table

end Inference
