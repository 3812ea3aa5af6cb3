import Inference.Proofs.Canonical
import Inference.Proofs.Reification.Meaning
import Inference.Proofs.Requests

/-!
# Reifying early

A search may reify types while variables are still unbound, which replaces the
elements of tuples, and then go on. Nothing is lost (`reify_early`): whatever is
bound later, reifying through the later table gives what it would have given if
nothing had been reified before.

Read `Equates` and `Absorbs` first. What is reified early has the same tree under
the table as the type that it was made from. A new binding changes both trees in one
way, so this stays true for every later table (`Equates.bind`).
-/

namespace Inference

open Relation

namespace Table

/-- Under the substitution, `other` has the tree in `after` that `ty` has in `before`. -/
def Equates (table : Table) (before after : Graph) (ty other : Ty) : Prop :=
  ∀ shape, table.Unfolds before ty shape → table.Unfolds after other shape

/-- A later graph in which the elements of tuples are replaced by others that have the same trees
under the substitution. -/
structure Absorbs (table : Table) (before after : Graph) : Prop where
  wellFormed : after.WellFormed
  grows : before.Grows after
  tuple : ∀ {id node}, before.tuple? id = some node → ∃ elements,
    after.tuple? id = some ⟨node.name, elements⟩ ∧
      List.Forall₂ (fun old new => new.label = old.label ∧
        table.Equates before after old.ty new.ty) node.elements elements

variable {table later : Table} {before after graph : Graph} {ty other bound : Ty} {id : Nat}
  {subject : Variable} {requests : List (Variable × Ty)} {tys : List Ty} {finish : ReifyState}

/-! ## Types with one tree -/

/-- What a type settles on has the same tree under the substitution, since no bound variable occurs
in it. -/
theorem Settles.equates (hsettles : table.Settles before after ty other) :
    table.Equates before after ty other :=
  fun _ hunfolds => (hsettles.unfolds hunfolds).of_unbound hsettles.resolved

/-- A new binding changes both trees in one way. -/
theorem Equates.bind (hequates : table.Equates before after ty other)
    (hsound : table.Sound before) (hbefore : before.WellFormed) (hgrows : before.Grows after)
    (hbound : before.Holds bound) (hbind : table.bind before subject bound = .ok later) :
    later.Equates before after ty other := by
  obtain rfl | ⟨key, hwalk, hseen, rfl⟩ := bind_cases hbind
  · exact hequates
  have hnext := hsound.next hbefore
  have hkey := get?_of_walk (hsound.chains hbefore) hwalk
  simp only [seesIn, hsound.eager] at hseen
  obtain ⟨replacement, hreplacement⟩ := exists_unfolds hnext bound
  have hleaf := not_mem_leaves_of_occursIn (hsound.chains hbefore) hkey hseen hreplacement
  have hgrown := hreplacement.of_grows hgrows hsound.fits hbefore hbound
  intro shape hshape
  obtain ⟨old, hold⟩ := exists_unfolds hnext ty
  rw [hshape.unique (hold.insert hkey hreplacement hleaf)]
  exact (hequates old hold).insert hkey hgrown hleaf

/-- Types that have one tree under a table have one tree under every later table. -/
theorem Equates.bindEach (hequates : table.Equates before after ty other)
    (hsound : table.Sound before) (hbefore : before.WellFormed) (hgrows : before.Grows after)
    (hrequests : ∀ request ∈ requests, before.Holds request.2) :
    (table.bindEach before requests).Equates before after ty other := by
  have hboth : (table.bindEach before requests).Sound before ∧
      (table.bindEach before requests).Equates before after ty other := by
    refine bindEach_induction
      (motive := fun later => later.Sound before ∧ later.Equates before after ty other)
      ?_ ⟨hsound, hequates⟩
    intro earlier later request hrequest h hbind
    have hbound := hrequests request hrequest
    exact ⟨h.1.bind hbefore hbound hbind, h.2.bind h.1 hbefore hgrows hbound hbind⟩
  exact hboth.2

/-- If a path of bindings and branches leads to a tuple, then one does so from every type with the
same tree. -/
theorem Equates.path (hequates : table.Equates before after ty other)
    (hnext : Acyclic (table.Next before))
    (hpath : ReflTransGen (table.Next before) ty (.tuple id)) :
    ReflTransGen (table.Next after) other (.tuple id) := by
  obtain ⟨shape, hshape⟩ := exists_unfolds hnext ty
  have hleaf := hshape.mem_leaves_iff.mpr ⟨hpath, not_link_tuple table id, rfl⟩
  exact ((hequates shape hshape).mem_leaves_iff.mp hleaf).1

/-- What a type resolves to is what every type with the same tree resolves to. -/
theorem Equates.resolvesTo {right : Graph} {last : Ty}
    (hequates : table.Equates before after ty other) (hnext : Acyclic (table.Next before))
    (hlast : table.ResolvesTo after other right last) : table.ResolvesTo before ty right last := by
  obtain ⟨found, hfound, hunique⟩ := hlast
  obtain ⟨shape, hshape⟩ := exists_unfolds hnext ty
  have heq := (hunique shape).mp (hequates shape hshape)
  refine ⟨shape, heq ▸ hfound, ?_⟩
  intro tree
  exact ⟨fun htree => htree.unique hshape, fun htree => htree ▸ hshape⟩

/-- What one type resolves to in two graphs has one tree. -/
theorem ResolvesTo.sameTree {left right : Graph} {result last : Ty}
    (hresult : table.ResolvesTo before ty left result)
    (hlast : table.ResolvesTo before ty right last) : left.SameTree right result last := by
  obtain ⟨shape, hshape, hunfolds⟩ := hresult
  obtain ⟨found, hfound, hunique⟩ := hlast
  exact ⟨shape, hshape, (hunique shape).mp ((hunfolds shape).mpr rfl) ▸ hfound⟩

/-! ## Graphs that are absorbed -/

/-- The table through which types are reified absorbs what that does to the graph. -/
theorem Pass.absorbs (hpass : table.Pass before tys { graph := before } finish)
    (hgrows : before.Grows finish.graph) (hfinish : finish.graph.WellFormed)
    (hgrounded : table.Grounded before) : table.Absorbs before finish.graph := by
  refine ⟨hfinish, hgrows, ?_⟩
  intro id node hnode
  by_cases henters : ReifyState.Enters { graph := before } finish id
  · obtain ⟨elements, helements, hsettled⟩ := hpass.settled henters node hnode
    exact ⟨elements, helements, hsettled.imp fun _ _ h => ⟨h.label, h.settles.equates⟩⟩
  · refine ⟨node.elements, (hpass.untouched henters).trans hnode, List.forall₂_same.mpr ?_⟩
    intro element helement
    have hholds := hgrounded.wellFormed.holds_element
      ⟨id, node, rfl, hnode, List.mem_map_of_mem helement⟩
    exact ⟨rfl, fun _ hunfolds =>
      hunfolds.of_grows hgrows hgrounded.fits hgrounded.wellFormed hholds⟩

/-- Every later table absorbs what the table absorbs. -/
theorem Absorbs.bindEach (habsorbs : table.Absorbs before after) (hsound : table.Sound before)
    (hbefore : before.WellFormed) (hrequests : ∀ request ∈ requests, before.Holds request.2) :
    (table.bindEach before requests).Absorbs before after := by
  refine ⟨habsorbs.wellFormed, habsorbs.grows, ?_⟩
  intro id node hnode
  obtain ⟨elements, hafter, helements⟩ := habsorbs.tuple hnode
  refine ⟨elements, hafter, helements.imp ?_⟩
  intro old new h
  exact ⟨h.1, h.2.bindEach hsound hbefore habsorbs.grows hrequests⟩

/-- The tuples that can be reached from a type can be reached from every type with the same tree, in
a graph that is absorbed. -/
theorem Absorbs.reach (habsorbs : table.Absorbs before after) (hnext : Acyclic (table.Next before))
    (hequates : table.Equates before after ty other)
    (hpath : ReflTransGen (table.Reach before) ty (.tuple id)) :
    ReflTransGen (table.Reach after) other (.tuple id) := by
  -- From every type of the path on, this holds of the tuples that are met before another one.
  have hmet : ∀ {last}, ReflTransGen (table.Next before) (.tuple id) (.tuple last) →
      ReflTransGen (table.Reach after) other (.tuple last) := by
    generalize Ty.tuple id = met at hpath
    induction hpath with
    | refl => exact fun hrest => reach_of_next (hequates.path hnext hrest)
    | tail _ hstep ih =>
        intro last hrest
        obtain hfirst | ⟨owner, node, rfl, hnode, hin⟩ := hstep
        · exact ih (.head hfirst hrest)
        · obtain ⟨old, hold, rfl⟩ := List.mem_map.mp hin
          obtain ⟨elements, hafter, helements⟩ := habsorbs.tuple hnode
          obtain ⟨new, hnew, -, hsame⟩ := exists_mem_of_forall₂ helements.flip hold
          have helement : table.Reach after (.tuple owner) new.ty :=
            .inr ⟨owner, _, rfl, hafter, List.mem_map_of_mem hnew⟩
          exact (ih .refl).trans (.head helement (reach_of_next (hsame.path hnext hrest)))
  exact hmet .refl

/-- Reifying each of the types in its own graph gives types with one tree. The tuples that can be
reached from the first type are in the end the same in both graphs, up to the trees of their
elements. -/
def ReifiesAlike (table : Table) (before : Graph) (ty : Ty) (after : Graph) (other : Ty) : Prop :=
  ∃ result left last right,
    table.reify? before ty = some (result, left) ∧ table.reify? after other = some (last, right) ∧
      left.SameTree right result last ∧
      ∀ id, ReflTransGen (table.Reach before) ty (.tuple id) → ∃ node found,
        left.tuple? id = some node ∧ right.tuple? id = some found ∧ left.SameTuple right node found

/-- Types with one tree are reified alike, if the change between their graphs is absorbed. -/
theorem Absorbs.reifiesAlike (habsorbs : table.Absorbs before after)
    (hgrounded : table.Grounded before) (hbefore : before.Reached) (hafter : after.Reached)
    (hequates : table.Equates before after ty other) (hty : before.Holds ty)
    (hother : after.Holds other) : table.ReifiesAlike before ty after other := by
  have hlater : table.Grounded after := hgrounded.of_grows habsorbs.grows habsorbs.wellFormed
  have hacyclic := (acyclic_next_iff hgrounded.wellFormed.acyclic).mp hgrounded.next
  have hacyclicLater := (acyclic_next_iff hlater.wellFormed.acyclic).mp hlater.next
  obtain ⟨result, finish, hreify, hadvances, hfinish, hpass, hsettles⟩ :=
    exists_pass hbefore hgrounded.fits hacyclic hty
  obtain ⟨last, finishLater, hreifyLater, hadvancesLater, hfinishLater, hpassLater, hsettlesLater⟩ :=
    exists_pass hafter hlater.fits hacyclicLater hother
  have hrewrites := hpass.rewrites hadvances hfinish hgrounded.fits hgrounded.wellFormed
    hgrounded.next hty
  have hrewritesLater := hpassLater.rewrites hadvancesLater hfinishLater hlater.fits
    hlater.wellFormed hlater.next hother
  refine ⟨result, finish.graph, last, finishLater.graph, hreify, hreifyLater, ?_, ?_⟩
  · exact (hsettles.resolvesTo hgrounded.next hfinish).sameTree
      (hequates.resolvesTo hgrounded.next (hsettlesLater.resolvesTo hlater.next hfinishLater))
  · intro id hpath
    obtain ⟨node, elements, hnode, hfound, helements⟩ := hrewrites.reached hpath
    obtain ⟨middle, hmiddle, hequal⟩ := habsorbs.tuple hnode
    obtain ⟨nodeLater, elementsLater, hnodeLater, hfoundLater, helementsLater⟩ :=
      hrewritesLater.reached (habsorbs.reach hgrounded.next hequates hpath)
    rw [hmiddle] at hnodeLater
    cases hnodeLater
    -- The elements in both graphs resolve those of the original tuple.
    have hresolved : List.Forall₂ (fun (old last : Element) => last.label = old.label ∧
        table.ResolvesTo before old.ty finishLater.graph last.ty) node.elements elementsLater :=
      forall₂_of_common (fun _ _ _ hold hlast =>
        ⟨hlast.1.trans hold.1, hold.2.resolvesTo hgrounded.next hlast.2⟩) hequal.flip helementsLater
    exact ⟨_, _, hfound, hfoundLater, rfl, forall₂_of_common (fun _ _ _ hfirst hlast =>
      ⟨hlast.1.trans hfirst.1.symm, hfirst.2.sameTree hlast.2⟩) helements hresolved⟩

/-- Reifying a handle changes the graph in a way that every later table absorbs, and it returns a
type that every later table equates with the handle. -/
theorem exists_absorbs (hreached : graph.Reached) (hsound : table.Sound graph)
    (hty : graph.Holds ty) (hrequests : ∀ request ∈ requests, graph.Holds request.2) :
    ∃ result after, table.reify? graph ty = some (result, after) ∧ after.Reached ∧
      after.Holds result ∧ (table.bindEach graph requests).Absorbs graph after ∧
      (table.bindEach graph requests).Equates graph after ty result := by
  have hgraph := hreached.wellFormed
  obtain ⟨result, finish, hreify, hadvances, hfinish, hpass, hsettles⟩ :=
    exists_pass hreached hsound.fits hsound.acyclic hty
  have habsorbs := hpass.absorbs hadvances.grows hfinish (hsound.grounded hgraph)
  exact ⟨result, finish.graph, hreify, hreached.tail (.reify hsound.fits hty hreify),
    hsettles.holds, habsorbs.bindEach hsound hgraph hrequests,
    hsettles.equates.bindEach hsound hgraph hadvances.grows hrequests⟩

end Table

namespace Session

variable {session : Session} {table : Table} {requests : List (Variable × Ty)} {early ty : Ty}

/-- Reifying a type through a table changes nothing about what is reified later through a table with
further bindings: not if another type was reified early, and not if the type itself was. -/
theorem reify_early (hreached : session.Reached) (htable : table ∈ session.tables)
    (hrequests : ∀ request ∈ requests, session.graph.Holds request.2)
    (hearly : session.graph.Holds early) (hty : session.graph.Holds ty) :
    (∃ result after, table.reify? session.graph early = some (result, after) ∧
      (table.bindEach session.graph requests).ReifiesAlike session.graph ty after ty) ∧
    ∃ result after, table.reify? session.graph ty = some (result, after) ∧
      (table.bindEach session.graph requests).ReifiesAlike session.graph ty after result := by
  have hgraph := hreached.sound.graph
  have hsound := hreached.sound.tables table htable
  have hlater := (hsound.bindEach hgraph hrequests).grounded hgraph
  obtain ⟨first, middle, hfirst, hmiddle, -, habsorbs, -⟩ :=
    Table.exists_absorbs hreached.graph hsound hearly hrequests
  obtain ⟨result, after, hreify, hafter, hresult, habsorbsOwn, hequates⟩ :=
    Table.exists_absorbs hreached.graph hsound hty hrequests
  refine ⟨⟨first, middle, hfirst, ?_⟩, ⟨result, after, hreify, ?_⟩⟩
  · exact habsorbs.reifiesAlike hlater hreached.graph hmiddle
      (fun _ hunfolds => hunfolds.of_grows habsorbs.grows hlater.fits hgraph hty) hty
      (habsorbs.grows.holds hty)
  · exact habsorbsOwn.reifiesAlike hlater hreached.graph hafter hequates hty hresult

theorem reify_early_looped :
    (∃ result after, Table.chained.reify? .looped (.tuple 0) = some (result, after) ∧
      Table.looped.ReifiesAlike .looped (.union 0) after (.union 0)) ∧
    ∃ result after, Table.chained.reify? .looped (.union 0) = some (result, after) ∧
      Table.looped.ReifiesAlike .looped (.union 0) after result := by
  -- The second request is refused, because the variable stands for a tuple by then.
  have hlater : Table.chained.bindEach .looped [(⟨0⟩, .tuple 0), (⟨0⟩, .primitive .bool),
      (⟨2⟩, .function 0), (⟨1⟩, .primitive .int)] = .looped := by cbv
  rw [← hlater]
  exact reify_early reached_chained List.mem_cons_self (by decide) (by decide) (by decide)

end Session

end Inference
