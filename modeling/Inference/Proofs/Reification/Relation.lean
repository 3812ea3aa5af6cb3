import Inference.Proofs.WellFormed
import Inference.Reify

/-!
# Reification as a relation

`table.Reifies state tys results finish` says that reifying `tys` from left to
right, first in `state`, gives `results` and leaves `finish`. It has one rule for
each way a type is reified and no bound on paths, so it is the relation that
proofs about reification induct on. It is the recursion of `reifyWithin` without
the bound: whatever `reifyWithin` returns is related (`reifyWithin_sound`), and
what is related is returned for every bound that is large enough
(`Reifies.returns`).
-/

namespace Inference

namespace Table

/-- Reifying the types one after the other gives as many types and leaves another state. -/
inductive Reifies (table : Table) : ReifyState → List Ty → List Ty → ReifyState → Prop where
  | nil (state) : Reifies table state [] [] state
  | cons {state middle finish ty tys result results} :
      Reifies table state [ty] [result] middle → Reifies table middle tys results finish →
      Reifies table state (ty :: tys) (result :: results) finish
  | branch {state middle ty branch children} :
      state.graph.branch? (table.walk ty) = some branch →
      Reifies table state branch.children children middle →
      Reifies table state [ty] [(middle.intern (branch.withChildren children)).1]
        (middle.intern (branch.withChildren children)).2
  | tuple {state middle ty id node types} :
      table.walk ty = .tuple id → id ∉ state.visited → state.graph.tuple? id = some node →
      Reifies table (state.enter id) (node.elements.map (·.ty)) types middle →
      Reifies table state [ty] [.tuple id]
        (middle.replaceElements id (Element.withTypes node.elements types))
  | again {state ty id} :
      table.walk ty = .tuple id → id ∈ state.visited →
      Reifies table state [ty] [.tuple id] state
  | missing {state ty id} :
      table.walk ty = .tuple id → id ∉ state.visited → state.graph.tuple? id = none →
      Reifies table state [ty] [.tuple id] (state.enter id)
  | leaf {state ty} :
      state.graph.branch? (table.walk ty) = none → (∀ id, table.walk ty ≠ .tuple id) →
      Reifies table state [ty] [table.walk ty] state

variable {table : Table} {state finish : ReifyState} {ty result : Ty} {tys results : List Ty}

theorem Reifies.length_eq (hreifies : table.Reifies state tys results finish) :
    results.length = tys.length := by
  induction hreifies with
  | cons _ _ _ ih => exact congrArg Nat.succ ih
  | _ => rfl

/-- A traversal whose steps are related is related. -/
theorem traverse_sound {step : Ty → ReifyState → Option (Ty × ReifyState)}
    (hstep : ∀ {state finish ty result}, step ty state = some (result, finish) →
      table.Reifies state [ty] [result] finish)
    (htraverse : ReifyState.traverse step tys state = some (results, finish)) :
    table.Reifies state tys results finish := by
  induction tys generalizing state results with
  | nil =>
      cases htraverse
      exact .nil _
  | cons ty tys ih =>
      simp only [ReifyState.traverse, Bind.bind, Option.bind_eq_some_iff, Prod.exists, pure,
        Option.some.injEq, Prod.mk.injEq] at htraverse
      obtain ⟨first, middle, hfirst, rest, last, hrest, rfl, rfl⟩ := htraverse
      exact .cons (hstep hfirst) (ih hrest)

/-- Whatever bounded reification returns is related. -/
theorem reifyWithin_sound {depth : Nat}
    (hreify : table.reifyWithin depth ty state = some (result, finish)) :
    table.Reifies state [ty] [result] finish := by
  induction depth generalizing ty state result finish with
  | zero => cases hreify
  | succ depth ih =>
      simp only [reifyWithin] at hreify
      split at hreify
      · rename_i branch _ hbranch
        simp only [Bind.bind, Option.bind_eq_some_iff, Prod.exists, pure, Option.some.injEq]
          at hreify
        obtain ⟨children, middle, hchildren, heq⟩ := hreify
        cases heq
        exact .branch hbranch (traverse_sound ih hchildren)
      · rename_i id hnone heq
        split at hreify
        · rename_i hvisited
          cases hreify
          rw [heq]
          exact .again heq hvisited
        · rename_i hvisited
          split at hreify
          · rename_i hmissing
            cases hreify
            rw [heq]
            exact .missing heq hvisited hmissing
          · rename_i node hnode
            simp only [Bind.bind, Option.bind_eq_some_iff, Prod.exists, pure, Option.some.injEq]
              at hreify
            obtain ⟨types, middle, htypes, hlast⟩ := hreify
            cases hlast
            rw [heq]
            exact .tuple heq hvisited hnode (traverse_sound ih htypes)
      · rename_i hnone hnotuple
        cases hreify
        exact .leaf hnone hnotuple

/-- Related types are reified by every bound that is large enough. -/
theorem Reifies.returns (hreifies : table.Reifies state tys results finish) :
    ∃ least, ∀ depth, least ≤ depth →
      ReifyState.traverse (table.reifyWithin depth) tys state = some (results, finish) := by
  induction hreifies with
  | nil => exact ⟨0, fun _ _ => rfl⟩
  | cons _ _ ihFirst ihRest =>
      obtain ⟨first, hfirst⟩ := ihFirst
      obtain ⟨rest, hrest⟩ := ihRest
      refine ⟨max first rest, ?_⟩
      intro depth hdepth
      have hone := hfirst depth (by omega)
      have hmany := hrest depth (by omega)
      simp only [ReifyState.traverse, Bind.bind, Option.bind_eq_some_iff, Prod.exists, pure,
        Option.some.injEq, Prod.mk.injEq, List.cons.injEq] at hone ⊢
      obtain ⟨_, _, hty, _, _, ⟨rfl, rfl⟩, ⟨rfl, -⟩, rfl⟩ := hone
      exact ⟨_, _, hty, _, _, hmany, ⟨rfl, rfl⟩, rfl⟩
  | branch hbranch _ ih =>
      obtain ⟨least, hchildren⟩ := ih
      refine ⟨least + 1, ?_⟩
      intro depth hdepth
      obtain ⟨depth, rfl⟩ : ∃ rest, depth = rest + 1 := ⟨depth - 1, by omega⟩
      simp [ReifyState.traverse, reifyWithin, hbranch, hchildren depth (by omega)]
  | tuple hwalk hid hnode _ ih =>
      obtain ⟨least, helements⟩ := ih
      refine ⟨least + 1, ?_⟩
      intro depth hdepth
      obtain ⟨depth, rfl⟩ : ∃ rest, depth = rest + 1 := ⟨depth - 1, by omega⟩
      have hentered := helements depth (by omega)
      unfold ReifyState.enter at hentered
      simp [ReifyState.traverse, reifyWithin, Graph.branch?, ReifyState.enter, hwalk, hid, hnode,
        hentered]
  | again hwalk hid =>
      refine ⟨1, ?_⟩
      intro depth hdepth
      obtain ⟨depth, rfl⟩ : ∃ rest, depth = rest + 1 := ⟨depth - 1, by omega⟩
      simp [ReifyState.traverse, reifyWithin, Graph.branch?, hwalk, hid]
  | missing hwalk hid hmissing =>
      refine ⟨1, ?_⟩
      intro depth hdepth
      obtain ⟨depth, rfl⟩ : ∃ rest, depth = rest + 1 := ⟨depth - 1, by omega⟩
      simp [ReifyState.traverse, reifyWithin, Graph.branch?, ReifyState.enter, hwalk, hid, hmissing]
  | leaf hnone hnotuple =>
      refine ⟨1, ?_⟩
      intro depth hdepth
      obtain ⟨depth, rfl⟩ : ∃ rest, depth = rest + 1 := ⟨depth - 1, by omega⟩
      simp [ReifyState.traverse, reifyWithin, hnone]

/-- A state and types determine what the types give and the state that is left. -/
theorem Reifies.unique {others : List Ty} {last : ReifyState}
    (hreifies : table.Reifies state tys results finish)
    (hother : table.Reifies state tys others last) : results = others ∧ finish = last := by
  obtain ⟨least, hreturns⟩ := hreifies.returns
  obtain ⟨bound, hbound⟩ := hother.returns
  have heq := hreturns (max least bound) (Nat.le_max_left least bound)
  rw [hbound (max least bound) (Nat.le_max_right least bound)] at heq
  cases heq
  exact ⟨rfl, rfl⟩

/-- What reifying a type returns is related, from the state in which no tuple is entered. -/
theorem reify?_sound {graph after : Graph} (hreify : table.reify? graph ty = some (result, after)) :
    ∃ finish, finish.graph = after ∧ table.Reifies { graph } [ty] [result] finish := by
  simp only [reify?, Option.map_eq_some_iff, Prod.exists, Prod.mk.injEq] at hreify
  obtain ⟨_, finish, hwithin, rfl, rfl⟩ := hreify
  exact ⟨finish, rfl, reifyWithin_sound hwithin⟩

/-- Traversing bindings traverses what the variables are bound to. -/
theorem traverse_entries (step : Ty → ReifyState → Option (Ty × ReifyState))
    (order : List (Variable × Ty)) (state : ReifyState) :
    ReifyState.traverse (fun entry state =>
        (step entry.2 state).map fun (ty, state) => ((entry.1, ty), state)) order state =
      (ReifyState.traverse step (order.map (·.2)) state).map fun (tys, state) =>
        ((order.map (·.1)).zip tys, state) := by
  induction order generalizing state with
  | nil => rfl
  | cons entry order ih =>
      simp only [List.map_cons, ReifyState.traverse, ih]
      cases step entry.2 state with
      | none => rfl
      | some first =>
          show (Option.map _ (ReifyState.traverse step (order.map (·.2)) first.2)).bind _ =
            ((ReifyState.traverse step (order.map (·.2)) first.2).bind _).map _
          cases ReifyState.traverse step (order.map (·.2)) first.2 with
          | none => rfl
          | some rest => rfl

/-- What reifying listed bindings returns is related: the variables are bound to what the types
that they were bound to give, one after the other. -/
theorem reifiedAlong?_sound {graph : Graph} {order : List (Variable × Ty)} {reified : Reified}
    (hreified : table.reifiedAlong? order graph = some reified) :
    ∃ results finish, table.Reifies { graph } (order.map (·.2)) results finish ∧
      reified =
        { table := { table with bindings := .ofList ((order.map (·.1)).zip results) }
          graph := finish.graph
          tuples := finish.visited.length } := by
  simp only [reifiedAlong?, traverse_entries, Option.map_eq_some_iff, Prod.exists,
    Prod.mk.injEq] at hreified
  obtain ⟨_, _, ⟨results, finish, htraverse, rfl, rfl⟩, rfl⟩ := hreified
  exact ⟨results, finish, traverse_sound reifyWithin_sound htraverse, rfl⟩

end Table

end Inference
