import Inference.Proofs.Reification.Tuples

/-!
# Correctness of reification

For a table whose bindings fit a well-formed graph and whose chains of bindings
are no cycles, `Reifies.pass` says by induction on the reification that every
type settles and that the tuples are treated as `Pass` says. A whole reification
starts with no tuple entered, so the tuples it enters are those that can be
reached (`Reifies.mem_visited_iff`).
-/

namespace Inference

open Relation

namespace Table

variable {table : Table} {graph origin : Graph} {state finish : ReifyState} {ty result : Ty}
  {tys results : List Ty} {id : Nat}

/-- Reifying handles of the original graph in a later graph lets that graph grow. -/
theorem Reifies.grows (hreifies : table.Reifies state tys results finish)
    (hfits : table.Fits origin) (hready : Ready origin state)
    (hholds : ∀ ty ∈ tys, origin.Holds ty) :
    finish.graph.WellFormed ∧ state.graph.Grows finish.graph := by
  obtain ⟨hfinish, hadvances, -⟩ := hreifies.advances (hfits.of_grows hready.grows)
    hready.wellFormed fun ty hty => hready.grows.holds (hholds ty hty)
  exact ⟨hfinish, hadvances.grows⟩

/-- Reifying handles of the original graph settles them and passes over the tuples. -/
theorem Reifies.pass (hreifies : table.Reifies state tys results finish)
    (horigin : origin.WellFormed) (hfits : table.Fits origin) (hchains : Acyclic table.Link)
    (hready : Ready origin state) (hholds : ∀ ty ∈ tys, origin.Holds ty) :
    table.Pass origin tys state finish ∧
      List.Forall₂ (table.Settles origin finish.graph) tys results := by
  induction hreifies with
  | nil state => exact ⟨.refl fun hty => absurd hty List.not_mem_nil, .nil⟩
  | @cons state middle finish ty tys result results hfirst hrest ihFirst ihRest =>
      have hty : ∀ other ∈ [ty], origin.Holds other := fun other hother =>
        hholds other (List.mem_cons.mpr (.inl (List.mem_singleton.mp hother)))
      have htys : ∀ other ∈ tys, origin.Holds other := fun other hother =>
        hholds other (List.mem_cons_of_mem ty hother)
      obtain ⟨hmiddle, hgrows⟩ := hfirst.grows hfits hready hty
      obtain ⟨hpass, hsettles⟩ := ihFirst hready hty
      -- The other types are read in the graph as the first one leaves it.
      have hnext := hready.of_pass hpass hgrows hmiddle
      obtain ⟨-, hlast⟩ := hrest.grows hfits hnext htys
      obtain ⟨hpassRest, hsettlesRest⟩ := ihRest hnext htys
      refine ⟨hpass.cons hpassRest hmiddle hlast, ?_⟩
      cases hsettles with
      | cons hresult _ => exact .cons (hresult.of_grows hmiddle hlast) hsettlesRest
  | @branch state middle ty branch children hbranch hchildren ih =>
      -- New branches have new handles, so the branch that is read is the original one.
      have hwalk := holds_walk hfits horigin (hholds ty List.mem_cons_self)
      rw [hready.grows.branch?_eq hwalk] at hbranch
      have hin : ∀ child ∈ branch.children, origin.Holds child :=
        fun child hchild => horigin.holds_of_mem hbranch hchild
      obtain ⟨hmiddle, -⟩ := hchildren.grows hfits hready hin
      obtain ⟨hpass, hsettles⟩ := ih hready hin
      exact ⟨hpass.branch hchains hbranch hmiddle,
        .cons (settles_branch hmiddle hbranch hsettles) .nil⟩
  | @tuple state middle ty id node types hwalk hunentered hnode helements ih =>
      -- The tuple is not entered yet, so its elements are the original ones.
      have horiginal : origin.tuple? id = some node := by
        rw [← hready.unentered hunentered]
        exact hnode
      have hin : ∀ element ∈ node.elements.map (·.ty), origin.Holds element :=
        fun element helement => horigin.holds_element ⟨id, node, rfl, horiginal, helement⟩
      obtain ⟨hmiddle, hgrows⟩ := helements.grows hfits (hready.enter id) hin
      obtain ⟨hpass, hsettles⟩ := ih (hready.enter id) hin
      have hlast := middle.advances_replaceElements id (Element.withTypes node.elements types)
      have hreached := holds_walk hfits horigin (hholds ty List.mem_cons_self)
      rw [hwalk] at hreached
      refine ⟨hpass.tuple hchains hwalk hunentered hnode horiginal hmiddle hsettles,
        .cons ?_ .nil⟩
      exact settles_tuple hwalk
        (((hready.grows.trans hgrows).trans hlast.grows).holds hreached)
  | @again state ty id hwalk hentered =>
      have hreached := holds_walk hfits horigin (hholds ty List.mem_cons_self)
      rw [hwalk] at hreached
      refine ⟨.refl ?_, .cons (settles_tuple hwalk (hready.grows.holds hreached)) .nil⟩
      intro start other hstart hpath
      rw [List.mem_singleton.mp hstart] at hpath
      exact (tuple_of_path hchains hwalk hpath) ▸ hentered
  | @missing state ty id hwalk hunentered hmissing =>
      -- A handle of the graph names a tuple that is there.
      have hreached := holds_walk hfits horigin (hholds ty List.mem_cons_self)
      rw [hwalk, Graph.Holds, ← hready.unentered hunentered, hmissing] at hreached
      cases hreached
  | @leaf state ty hnone hnotuple =>
      have hreached := holds_walk hfits horigin (hholds ty List.mem_cons_self)
      have horiginal := hready.grows.branch?_eq hreached
      rw [hnone] at horiginal
      refine ⟨.refl ?_, .cons (settles_leaf (ends_walk hchains ty).2 horiginal.symm hnone
        (hready.grows.holds hreached)) .nil⟩
      intro start other hstart hpath
      rw [List.mem_singleton.mp hstart] at hpath
      obtain heq | ⟨child, hchild, -⟩ :=
        next_path_cases hchains (not_link_tuple table other) hpath
      · exact absurd heq (hnotuple other)
      · obtain ⟨branch, hbranch, -⟩ := Graph.mem_children_iff.mp hchild
        simp [← horiginal] at hbranch

/-! ## Whole reifications -/

/-- A reification that starts with no tuple entered enters exactly the tuples that can be
reached. -/
theorem Pass.mem_visited_iff (hpass : table.Pass origin tys { graph } finish) :
    id ∈ finish.visited ↔ ∃ ty ∈ tys, ReflTransGen (table.Reach origin) ty (.tuple id) := by
  have henters : ∀ {id}, id ∈ finish.visited → ReifyState.Enters { graph } finish id :=
    fun hid => ⟨List.not_mem_nil, hid⟩
  constructor
  · intro hid
    exact hpass.reached (henters hid)
  · intro h
    obtain ⟨ty, hty, hpath⟩ := h
    -- From every type of the path on, the tuples that are met before another one are entered.
    have hmet : ∀ {other}, ReflTransGen (table.Next origin) (.tuple id) (.tuple other) →
        other ∈ finish.visited := by
      generalize Ty.tuple id = last at hpath
      induction hpath with
      | refl => exact hpass.direct hty
      | tail _ hstep ih =>
          intro other hrest
          obtain hnext | helement := hstep
          · exact ih (.head hnext hrest)
          · have howner := helement
            obtain ⟨owner, node, rfl, -⟩ := howner
            exact hpass.closed (henters (ih .refl)) helement hrest
    exact hmet .refl

end Table

end Inference
