import Inference.Proofs.Binding
import Inference.Proofs.Construction
import Mathlib.Data.List.Permutation

/-!
# Sessions

A session is a graph and the tables that are used with it. It starts with the empty
graph and no table, and its steps come in any order: operations on the graph,
tables that are made empty or from bindings without cycles, requests that are
recorded or refused, copies of tables, and tables whose types are reified. Every
step keeps all tables sound (`Step.sound`), also those that it does not touch.
-/

namespace Inference

open Relation

/-- Bindings for the variables of `Graph.looped`: variable 0 stands for the tuple that it occurs in,
and variable 2 for a function, through variable 3. -/
def Table.looped : Table :=
  .ofList [(⟨0⟩, .tuple 0), (⟨1⟩, .primitive .int), (⟨2⟩, .var ⟨3⟩), (⟨3⟩, .function 0)]

/-- The first of these bindings, which makes one variable stand for another. -/
def Table.chained : Table := .ofList [(⟨2⟩, .var ⟨3⟩)]

/-- A graph and the tables that are used with it. -/
structure Session where
  graph : Graph := ∅
  tables : List Table := []

namespace Session

/-- One step of a session. The handles that it is given are handles of the graph. A refused request
comes without a table, so the table that it was made of stays, and the session with it. -/
inductive Step : Session → Session → Prop where
  | graph {session : Session} {after} :
      session.graph.Step after → Step session { session with graph := after }
  | start {session : Session} : Step session { session with tables := {} :: session.tables }
  | create {session : Session} {bindings} :
      (Table.ofBindings bindings).Fits session.graph →
      Acyclic ((Table.ofBindings bindings).DependsOn session.graph) →
      Step session { session with tables := .ofBindings bindings :: session.tables }
  | bind {session : Session} {position table subject ty after} :
      session.tables[position]? = some table → session.graph.Holds ty →
      table.bind session.graph subject ty = .ok after →
      Step session { session with tables := session.tables.set position after }
  | refuse {session : Session} {table subject ty error} :
      table ∈ session.tables → session.graph.Holds ty →
      table.bind session.graph subject ty = .error error → Step session session
  | clone {session : Session} {table} :
      table ∈ session.tables → Step session { session with tables := table :: session.tables }
  | reified {session : Session} {table order reified} :
      table ∈ session.tables → order.Perm table.entries →
      table.reifiedAlong? order session.graph = some reified →
      Step session ⟨reified.graph, reified.table :: session.tables⟩

/-- The session is reached by steps from the start. -/
def Reached (session : Session) : Prop := ReflTransGen Step {} session

/-- The graph is well-formed, and every table is sound for it. -/
structure Sound (session : Session) : Prop where
  graph : session.graph.WellFormed
  tables : ∀ table ∈ session.tables, table.Sound session.graph

variable {before after session : Session}

/-- A sound session stays sound when the graph grows and a sound table is added. -/
theorem Sound.add (hsound : session.Sound) {graph : Graph} {table : Table}
    (hgraph : graph.WellFormed) (hgrows : session.graph.Grows graph) (htable : table.Sound graph) :
    Sound ⟨graph, table :: session.tables⟩ := by
  refine ⟨hgraph, List.forall_mem_cons.mpr ⟨htable, ?_⟩⟩
  intro other hother
  exact (hsound.tables other hother).of_grows hsound.graph hgrows

theorem Step.sound (hstep : Step before after) (hsound : before.Sound) : after.Sound := by
  have hgraph := hsound.graph
  cases hstep with
  | graph hoperation =>
      obtain ⟨hafter, hgrows⟩ := hoperation.wellFormed hgraph
      exact ⟨hafter, fun table htable => (hsound.tables table htable).of_grows hgraph hgrows⟩
  | start => exact hsound.add hgraph (.refl _) (Table.sound_empty _)
  | create hfits hacyclic => exact hsound.add hgraph (.refl _) ⟨rfl, hfits, hacyclic⟩
  | @bind position table subject ty bound hposition hty hbind =>
      have htable := hsound.tables table (List.mem_of_getElem? hposition)
      refine ⟨hgraph, ?_⟩
      intro other hother
      obtain hold | rfl := List.mem_or_eq_of_mem_set hother
      · exact hsound.tables other hold
      · exact htable.bind hgraph hty hbind
  | refuse => exact hsound
  | clone htable => exact hsound.add hgraph (.refl _) (hsound.tables _ htable)
  | @reified table order reified htable horder hreified =>
      have hfits := (hsound.tables table htable).fits
      obtain ⟨hafter, hgrows⟩ := (Graph.Step.reified hfits horder hreified).wellFormed hgraph
      exact hsound.add hafter hgrows
        ((hsound.tables table htable).reified hgraph horder hreified)

/-- Every session that is reached is sound. -/
theorem Reached.sound (hreached : session.Reached) : session.Sound := by
  unfold Reached at hreached
  induction hreached with
  | refl => exact ⟨Graph.wellFormed_empty, fun table htable => absurd htable List.not_mem_nil⟩
  | tail _ hstep ih => exact hstep.sound ih

/-- The graph of a session that is reached is reached without the tables. -/
theorem Reached.graph (hreached : session.Reached) : session.graph.Reached := by
  unfold Reached at hreached
  induction hreached with
  | refl => exact .refl
  | tail hbefore hstep ih =>
      cases hstep with
      | graph hoperation => exact ih.tail hoperation
      | reified htable horder hreified =>
          have hfits := ((Reached.sound hbefore).tables _ htable).fits
          exact ih.tail (.reified hfits horder hreified)
      | _ => exact ih

theorem reached_of_graph {graph : Graph} (hgraph : graph.Reached) : Reached ⟨graph, []⟩ := by
  unfold Graph.Reached at hgraph
  induction hgraph with
  | refl => exact .refl
  | tail _ hstep ih => exact ih.tail (.graph hstep)

/-- The session of the graph and the table, in which the bindings are requested. -/
def looped : Session := ⟨.looped, [.looped]⟩

theorem reached_chained : Reached ⟨.looped, [.chained]⟩ :=
  have hstart : Reached ⟨.looped, [{}]⟩ := (reached_of_graph Graph.reached_looped).tail .start
  hstart.tail (@Step.bind _ 0 {} ⟨2⟩ (.var ⟨3⟩) _ rfl trivial (by cbv))

theorem reached_looped : looped.Reached := by
  have hfunction : Reached ⟨.looped, [.ofList [(⟨2⟩, .var ⟨3⟩), (⟨3⟩, .function 0)]]⟩ :=
    reached_chained.tail (@Step.bind _ 0 _ ⟨2⟩ (.function 0) _ rfl (by decide) (by cbv))
  have htuple : Reached ⟨.looped,
      [.ofList [(⟨0⟩, .tuple 0), (⟨2⟩, .var ⟨3⟩), (⟨3⟩, .function 0)]]⟩ :=
    hfunction.tail (@Step.bind _ 0 _ ⟨0⟩ (.tuple 0) _ rfl (by decide) (by cbv))
  have hrefused : Step ⟨.looped, [.ofList [(⟨0⟩, .tuple 0), (⟨2⟩, .var ⟨3⟩), (⟨3⟩, .function 0)]]⟩
      ⟨.looped, [.ofList [(⟨0⟩, .tuple 0), (⟨2⟩, .var ⟨3⟩), (⟨3⟩, .function 0)]]⟩ :=
    @Step.refuse _ _ ⟨1⟩ (.union 0) (.cyclic ⟨1⟩ (.union 0)) List.mem_cons_self (by decide) (by cbv)
  exact (htuple.tail hrefused).tail
    (@Step.bind _ 0 _ ⟨1⟩ (.primitive .int) _ rfl trivial (by cbv))

/-- Whatever the steps were, no variable of a table depends on itself. -/
theorem acyclic_of_reached (hreached : session.Reached) :
    ∀ table ∈ session.tables, Acyclic (table.DependsOn session.graph) :=
  fun table htable => (hreached.sound.tables table htable).acyclic

theorem acyclic_of_reached_looped : ∃ reified,
    Table.looped.reified? .looped = some reified ∧
    ∀ table ∈ reified.table :: looped.tables, Acyclic (table.DependsOn reified.graph) := by
  obtain ⟨reified, hreified⟩ :=
    Option.isSome_iff_exists.mp (show (Table.looped.reified? .looped).isSome by decide)
  exact ⟨reified, hreified, acyclic_of_reached
    (reached_looped.tail (.reified List.mem_cons_self (.refl _) hreified))⟩

end Session

end Inference
