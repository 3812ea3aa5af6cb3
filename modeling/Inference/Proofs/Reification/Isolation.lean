import Inference.Proofs.Reification.Meaning

/-!
# Branches of a search that share a graph

Branches of a search have tables of their own, but they share the graph. Whatever
the others do with it, a request is judged as before, and reification means what it
meant before, as long as the tuples in it are not looked into
(`bind_and_reify_undisturbed`). The others only let the graph grow, and neither a
search nor the tree of a type goes into tuples, whose elements are all that changes
when a graph grows.
-/

namespace Inference

open Relation

namespace Table

variable {table : Table} {before after : Graph} {ty : Ty}

/-- A request is judged in the same way when the graph has grown. -/
theorem judge_of_grows (hgrounded : table.Grounded before) (hgrows : before.Grows after)
    (hty : before.Holds ty) (subject : Variable) :
    table.judge after subject ty = table.judge before subject ty := by
  by_cases hvar : ∃ key, table.walk (.var subject) = .var key
  · obtain ⟨key, hwalk⟩ := hvar
    have hkey := get?_of_walk hgrounded.chains hwalk
    have hholds := holds_walk hgrounded.fits hgrounded.wellFormed hty
    rw [judge_of_walk_var hwalk, judge_of_walk_var hwalk,
      seesIn_of_grows hgrounded.fits hgrounded.wellFormed hgrows hgrounded.chains hkey hholds]
  · have hwalk := not_exists.mp hvar
    rw [judge_of_walk_ne_var hwalk, judge_of_walk_ne_var hwalk]

end Table

namespace Session

/-- One step of another branch: an operation on the graph, which may be reification through any
table that fits, a table that is taken up, such as a copy, or a request that one of its tables
accepts. The tables have either policy. -/
inductive BranchStep : Session → Session → Prop where
  | graph {session : Session} {after} :
      session.graph.Step after → BranchStep session { session with graph := after }
  | add {session : Session} (table) :
      BranchStep session { session with tables := table :: session.tables }
  | bind {session : Session} {position table subject ty after} :
      session.tables[position]? = some table →
      table.bind session.graph subject ty = .ok after →
      BranchStep session { session with tables := session.tables.set position after }

variable {before after : Session} {table : Table} {ty : Ty}

/-- What another branch does keeps the graph reached and lets it grow. -/
theorem BranchStep.grows (hstep : BranchStep before after) (hreached : before.graph.Reached) :
    after.graph.Reached ∧ before.graph.Grows after.graph := by
  cases hstep with
  | graph hoperation =>
      exact ⟨hreached.tail hoperation, (hoperation.wellFormed hreached.wellFormed).2⟩
  | add => exact ⟨hreached, .refl _⟩
  | bind => exact ⟨hreached, .refl _⟩

theorem grows_of_branchSteps (hreached : before.graph.Reached)
    (hsteps : ReflTransGen BranchStep before after) :
    after.graph.Reached ∧ before.graph.Grows after.graph := by
  induction hsteps with
  | refl => exact ⟨hreached, .refl _⟩
  | tail _ hstep ih =>
      obtain ⟨hmiddle, hgrows⟩ := ih
      obtain ⟨hafter, hnext⟩ := hstep.grows hmiddle
      exact ⟨hafter, hgrows.trans hnext⟩

/-- Let a table have no cycles, and let the other branches go on without it. Then the table answers
every request as it did before, and the type that it gives for a type has the same tree as
before. -/
theorem bind_and_reify_undisturbed (hreached : before.graph.Reached)
    (hsteps : ReflTransGen BranchStep before after) (hfits : table.Fits before.graph)
    (hacyclic : Acyclic (table.DependsOn before.graph)) (hty : before.graph.Holds ty)
    (subject : Variable) :
    table.bind after.graph subject ty = table.bind before.graph subject ty ∧
      ∃ shape, table.reifiedShape? before.graph ty = some shape ∧
        table.reifiedShape? after.graph ty = some shape := by
  have hgraph := hreached.wellFormed
  obtain ⟨hreachedAfter, hgrows⟩ := grows_of_branchSteps hreached hsteps
  have hbefore : table.Grounded before.graph := .of_dependsOn hgraph hfits hacyclic
  have hafter : table.Grounded after.graph := hbefore.of_grows hgrows hreachedAfter.wellFormed
  refine ⟨congrArg table.accept (Table.judge_of_grows hbefore hgrows hty subject), ?_⟩
  obtain ⟨shape, hshape⟩ := Table.exists_unfolds hbefore.next ty
  refine ⟨shape, (Table.reifiedShape?_eq_some_iff hreached hbefore hty).mpr hshape, ?_⟩
  exact (Table.reifiedShape?_eq_some_iff hreachedAfter hafter (hgrows.holds hty)).mpr
    (hshape.of_grows hgrows hfits hgraph hty)

theorem bind_and_reify_undisturbed_looped : ∃ after : Session,
    ReflTransGen BranchStep ⟨.looped, []⟩ after ∧
      Table.chained.bind after.graph ⟨3⟩ (.union 0) = Table.chained.bind .looped ⟨3⟩ (.union 0) ∧
      ∃ shape, Table.chained.reifiedShape? .looped (.union 0) = some shape ∧
        Table.chained.reifiedShape? after.graph (.union 0) = some shape := by
  -- Another branch binds a variable in its copy of the table and reifies a tuple.
  have hclone : BranchStep ⟨.looped, []⟩ ⟨.looped, [.chained]⟩ := .add .chained
  have hbind : BranchStep ⟨.looped, [.chained]⟩
      ⟨.looped, [.ofList [(⟨1⟩, .primitive .int), (⟨2⟩, .var ⟨3⟩)]]⟩ :=
    @BranchStep.bind _ 0 .chained ⟨1⟩ (.primitive .int) _ rfl (by cbv)
  have hchained := reached_chained.sound.tables Table.chained List.mem_cons_self
  have hint : Graph.looped.Holds (.primitive .int) := trivial
  have hfits : (Table.ofList [(⟨1⟩, .primitive .int), (⟨2⟩, .var ⟨3⟩)]).Fits .looped :=
    hchained.fits.insert hint ⟨1⟩
  obtain ⟨⟨result, graph⟩, hreify⟩ := Option.isSome_iff_exists.mp
    (show ((Table.ofList [(⟨1⟩, .primitive .int), (⟨2⟩, .var ⟨3⟩)]).reify? .looped
      (.tuple 0)).isSome by decide)
  have hsteps := ((ReflTransGen.single hclone).tail hbind).tail
    (.graph (.reify hfits (by decide) hreify))
  exact ⟨_, hsteps, bind_and_reify_undisturbed Graph.reached_looped hsteps hchained.fits
    hchained.acyclic (by decide) ⟨3⟩⟩

end Session

end Inference
