import Inference.Proofs.Reification.Order
import Inference.Proofs.Reification.Outcome

/-!
# Runs of operations

An operation is given handles and returns handles. Whatever operations are run one
after the other, handles are never invalidated and what they name hardly changes:
branches and named types stay what they are, tuples keep their names, and the
elements of a tuple change only where an operation touches the tuple
(`Operation.handles_stay_valid`).

Read `Kept` first: it says what one operation keeps. Every operation keeps it
(`Kept.of_perform?`), and so does a run (`Runs.kept`).
-/

namespace Inference

open Relation

/-- An operation on a graph, with what it is given. A table is reified in some order of its
bindings. -/
inductive Operation where
  | function (domain codomain : Ty)
  | metatype (of : Ty)
  | union (cases : CaseSet)
  | tuple (name : Option String) (elements : List Element)
  | named (name : String)
  | replaceElements (id : Nat) (elements : List Element)
  | reify (table : Table) (ty : Ty)
  | reified (table : Table) (order : List (Variable × Ty))

namespace Operation

/-- The handles that the operation is given, those in tables included. -/
def given : Operation → List Ty
  | function domain codomain => [domain, codomain]
  | metatype of => [of]
  | union cases => cases.toList
  | tuple _ elements => elements.map (·.ty)
  | named _ => []
  | replaceElements id elements => .tuple id :: elements.map (·.ty)
  | reify table ty => ty :: table.entries.map (·.2)
  | reified table _ => table.entries.map (·.2)

/-- The table that the operation reads has no cycle, and its order has every binding once. -/
def ReadsAcyclic (graph : Graph) : Operation → Prop
  | reify table _ => Acyclic (table.DependsOn graph)
  | reified table order => Acyclic (table.DependsOn graph) ∧ order.Perm table.entries
  | _ => True

/-- The operation is given handles of the graph, and a table without cycles. -/
structure Allowed (operation : Operation) (graph : Graph) : Prop where
  holds : ∀ ty ∈ operation.given, graph.Holds ty
  table : operation.ReadsAcyclic graph

/-- The handles that the operation returns, and the graph after it. -/
def perform? (graph : Graph) : Operation → Option (List Ty × Graph)
  | function domain codomain =>
      let (ty, after) := graph.function domain codomain
      some ([ty], after)
  | metatype of =>
      let (ty, after) := graph.metatype of
      some ([ty], after)
  | union cases =>
      let (ty, after) := graph.union cases
      some ([ty], after)
  | tuple name elements =>
      let (ty, after) := graph.tuple name elements
      some ([ty], after)
  | named name =>
      let (ty, after) := graph.named name
      some ([ty], after)
  | replaceElements id elements =>
      (graph.replaceElements? id elements).map fun (previous, after) =>
        (previous.map (·.ty), after)
  | reify table ty => (table.reify? graph ty).map fun (result, after) => ([result], after)
  | reified table order =>
      (table.reifiedAlong? order graph).map fun reified =>
        (reified.table.entries.map (·.2), reified.graph)

/-- The operation may change the elements of the tuple: it replaces them, or it reifies a type from
which the tuple can be reached. -/
def Touches (graph : Graph) (id : Nat) : Operation → Prop
  | replaceElements other _ => other = id
  | reify table ty => ReflTransGen (table.Reach graph) ty (.tuple id)
  | reified table _ => table.Meets graph (.tuple id)
  | _ => False

/-- What an operation or a run of operations keeps: the graph stays well-formed and grows, the
returned handles are handles of the graph after it, and tuples that are not touched stay as they
are. -/
structure Kept (touched : Nat → Prop) (graph : Graph) (returned : List Ty) (after : Graph) :
    Prop where
  wellFormed : after.WellFormed
  grows : graph.Grows after
  returned : ∀ ty ∈ returned, after.Holds ty
  untouched : ∀ {id node}, graph.tuple? id = some node → ¬ touched id →
    after.tuple? id = some node

variable {operation : Operation} {graph middle after : Graph} {returned results : List Ty}
  {touched : Nat → Prop}

/-! ## One operation -/

theorem kept_intern (hgraph : graph.WellFormed) (branch : Branch)
    (hchildren : ∀ child ∈ branch.children, graph.Holds child) :
    Kept touched graph [(graph.intern branch).1] (graph.intern branch).2 where
  wellFormed := hgraph.intern hchildren
  grows := Graph.grows_intern graph branch
  returned := List.forall_mem_singleton.mpr (Graph.holds_intern graph branch)
  untouched hnode _ := by rwa [Graph.tuple?, Graph.tuples_intern]

theorem kept_tuple (hgraph : graph.WellFormed) (name : Option String) {elements : List Element}
    (helements : ∀ element ∈ elements, graph.Holds element.ty) :
    Kept touched graph [(graph.tuple name elements).1] (graph.tuple name elements).2 where
  wellFormed := hgraph.tuple name helements
  grows := Graph.grows_tuple graph name elements
  returned := List.forall_mem_singleton.mpr (Graph.holds_tuple graph name elements)
  untouched {id node} hnode _ := by
    rw [Graph.tuple?_tuple, if_neg]
    · exact hnode
    · intro heq
      rw [heq, Graph.tuple?, Arena.get?_eq_none_iff.mpr (Nat.le_refl _)] at hnode
      cases hnode

theorem kept_named (hgraph : graph.WellFormed) (name : String) :
    Kept touched graph [(graph.named name).1] (graph.named name).2 where
  wellFormed := hgraph.named name
  grows := Graph.grows_named graph name
  returned := List.forall_mem_singleton.mpr (Graph.holds_named graph name)
  untouched hnode _ := hnode

theorem kept_replaceElements? (hgraph : graph.WellFormed) {id : Nat}
    {elements previous : List Element}
    (helements : ∀ element ∈ elements, graph.Holds element.ty)
    (hreplace : graph.replaceElements? id elements = some (previous, after)) :
    Kept (id = ·) graph (previous.map (·.ty)) after where
  wellFormed := hgraph.replaceElements? hreplace helements
  grows := Graph.grows_replaceElements? hreplace
  returned := by
    obtain ⟨node, hnode, rfl, -⟩ := Graph.replaceElements?_cases hreplace
    intro ty hty
    exact (Graph.grows_replaceElements? hreplace).holds
      (hgraph.holds_element ⟨id, node, rfl, hnode, hty⟩)
  untouched {other node} hnode hne := by
    obtain ⟨found, -, -, htuple, -⟩ := Graph.replaceElements?_cases hreplace
    rw [htuple, if_neg (Ne.symm hne)]
    exact hnode

theorem kept_reify? (hgraph : graph.WellFormed) {table : Table} {ty result : Ty}
    (hfits : table.Fits graph) (hacyclic : Acyclic (table.DependsOn graph))
    (hty : graph.Holds ty) (hreify : table.reify? graph ty = some (result, after)) :
    Kept (fun id => ReflTransGen (table.Reach graph) ty (.tuple id)) graph [result] after := by
  have hgrounded : table.Grounded graph := .of_dependsOn hgraph hfits hacyclic
  have htys : ∀ other ∈ [ty], graph.Holds other := List.forall_mem_singleton.mpr hty
  obtain ⟨finish, rfl, hreifies⟩ := Table.reify?_sound hreify
  obtain ⟨hafter, hadvances, hresult⟩ := hreifies.advances hfits hgraph htys
  obtain ⟨hpass, -⟩ := hreifies.pass hgraph hfits hgrounded.chains (.start hgraph) htys
  refine ⟨hafter, hadvances.grows, hresult, ?_⟩
  intro id node hnode huntouched
  refine (hpass.untouched fun henters => huntouched ?_).trans hnode
  obtain ⟨other, hother, hpath⟩ := hpass.reached henters
  rwa [List.mem_singleton.mp hother] at hpath

theorem kept_reifiedAlong? (hgraph : graph.WellFormed) {table : Table}
    {order : List (Variable × Ty)} {reified : Table.Reified} (hfits : table.Fits graph)
    (hacyclic : Acyclic (table.DependsOn graph)) (horder : order.Perm table.entries)
    (hreified : table.reifiedAlong? order graph = some reified) :
    Kept (fun id => table.Meets graph (.tuple id)) graph (reified.table.entries.map (·.2))
      reified.graph := by
  have hgrounded : table.Grounded graph := .of_dependsOn hgraph hfits hacyclic
  have hrenews := Table.renews_of_perm hgrounded horder hreified
  refine ⟨hrenews.wellFormed, hrenews.grows, ?_, ?_⟩
  · intro ty hty
    obtain ⟨⟨subject, bound⟩, hentry, rfl⟩ := List.mem_map.mp hty
    obtain ⟨old, -, hsettles⟩ :=
      exists_eq_some_of_rel (hrenews.types subject) (Bindings.mem_entries_iff.mp hentry)
    exact hsettles.holds
  · exact fun hnode huntouched => (hrenews.untouched _ huntouched).trans hnode

/-- The types of a table are given to an operation that reads the table. -/
theorem fits_of_given {table : Table} (hholds : ∀ ty ∈ table.entries.map (·.2), graph.Holds ty) :
    table.Fits graph :=
  fun _ bound hget => hholds bound (List.mem_map_of_mem (Bindings.mem_entries_iff.mpr hget))

/-- Every operation keeps the graph well-formed and what is not touched as it is. -/
theorem Kept.of_perform? (hgraph : graph.WellFormed) (hallowed : operation.Allowed graph)
    (hperform : operation.perform? graph = some (returned, after)) :
    Kept (fun id => operation.Touches graph id) graph returned after := by
  obtain ⟨hholds, htable⟩ := hallowed
  cases operation with
  | function domain codomain =>
      cases hperform
      exact kept_intern hgraph (.function ⟨domain, codomain⟩) hholds
  | metatype of =>
      cases hperform
      exact kept_intern hgraph (.metatype ⟨of⟩) hholds
  | union cases =>
      cases hperform
      exact kept_intern hgraph (.union ⟨cases⟩) hholds
  | tuple name elements =>
      cases hperform
      exact kept_tuple hgraph name (List.forall_mem_map.mp hholds)
  | named name =>
      cases hperform
      exact kept_named hgraph name
  | replaceElements id elements =>
      obtain ⟨⟨previous, after⟩, hreplace, heq⟩ := Option.map_eq_some_iff.mp hperform
      cases heq
      have helements := List.forall_mem_map.mp (List.forall_mem_cons.mp hholds).2
      exact kept_replaceElements? hgraph helements hreplace
  | reify table ty =>
      obtain ⟨⟨result, after⟩, hreify, heq⟩ := Option.map_eq_some_iff.mp hperform
      cases heq
      obtain ⟨hty, htypes⟩ := List.forall_mem_cons.mp hholds
      exact kept_reify? hgraph (fits_of_given htypes) htable hty hreify
  | reified table order =>
      obtain ⟨reified, hreified, heq⟩ := Option.map_eq_some_iff.mp hperform
      cases heq
      exact kept_reifiedAlong? hgraph (fits_of_given hholds) htable.1 htable.2 hreified

/-- An operation that is given handles and a table without cycles returns. -/
theorem exists_perform? (hgraph : graph.WellFormed) (hallowed : operation.Allowed graph) :
    ∃ returned after, operation.perform? graph = some (returned, after) := by
  obtain ⟨hholds, htable⟩ := hallowed
  cases operation with
  | function | metatype | union | tuple | named => exact ⟨_, _, rfl⟩
  | replaceElements id elements =>
      obtain ⟨node, hnode⟩ := Option.isSome_iff_exists.mp (hholds (.tuple id) List.mem_cons_self)
      have hreplace : (graph.replaceElements? id elements).isSome := by
        have hfound : graph.tuples.get? id = some node := hnode
        simp [Graph.replaceElements?, hfound, Arena.set?]
      obtain ⟨_, hreplace⟩ := Option.isSome_iff_exists.mp hreplace
      exact ⟨_, _, Option.map_eq_some_iff.mpr ⟨_, hreplace, rfl⟩⟩
  | reify table ty =>
      have htypes := (List.forall_mem_cons.mp hholds).2
      have hgrounded : table.Grounded graph := .of_dependsOn hgraph (fits_of_given htypes) htable
      obtain ⟨result, finish, hreify, -⟩ :=
        Table.reify?_returns hgraph hgrounded.fits hgrounded.next ty
      exact ⟨_, _, Option.map_eq_some_iff.mpr ⟨_, hreify, rfl⟩⟩
  | reified table order =>
      have hgrounded : table.Grounded graph :=
        .of_dependsOn hgraph (fits_of_given hholds) htable.1
      obtain ⟨_, _, hreified, -⟩ := Table.exists_reifiedAlong hgrounded htable.2
      exact ⟨_, _, Option.map_eq_some_iff.mpr ⟨_, hreified, rfl⟩⟩

/-! ## Runs -/

/-- The operations are run one after the other, each of them allowed in the graph as it is then, and
return these handles. -/
inductive Runs : Graph → List Operation → List Ty → Graph → Prop where
  | nil (graph : Graph) : Runs graph [] [] graph
  | cons {graph middle after : Graph} {operation : Operation} {operations : List Operation}
      {returned results : List Ty} :
      operation.Allowed graph → operation.perform? graph = some (returned, middle) →
      Runs middle operations results after →
      Runs graph (operation :: operations) (returned ++ results) after

/-- At some point of the run, an operation touches the tuple. -/
def TouchedIn (graph : Graph) (operations : List Operation) (id : Nat) : Prop :=
  ∃ first operation rest returned middle, operations = first ++ operation :: rest ∧
    Runs graph first returned middle ∧ operation.Touches middle id

variable {operations later : List Operation}

theorem Kept.trans {other : Nat → Prop} (hfirst : Kept touched graph returned middle)
    (hsecond : Kept other middle results after) :
    Kept (fun id => touched id ∨ other id) graph (returned ++ results) after where
  wellFormed := hsecond.wellFormed
  grows := hfirst.grows.trans hsecond.grows
  returned := List.forall_mem_append.mpr
    ⟨fun ty hty => hsecond.grows.holds (hfirst.returned ty hty), hsecond.returned⟩
  untouched hnode hid :=
    hsecond.untouched (hfirst.untouched hnode fun h => hid (.inl h)) fun h => hid (.inr h)

/-- What may be touched more is kept less. -/
theorem Kept.mono {wider : Nat → Prop} (hkept : Kept touched graph returned after)
    (hwider : ∀ {id}, touched id → wider id) : Kept wider graph returned after where
  wellFormed := hkept.wellFormed
  grows := hkept.grows
  returned := hkept.returned
  untouched hnode hid := hkept.untouched hnode fun h => hid (hwider h)

/-- A run keeps what its operations keep. -/
theorem Runs.kept (hruns : Runs graph operations returned after) (hgraph : graph.WellFormed) :
    Kept (TouchedIn graph operations) graph returned after := by
  induction hruns with
  | nil graph => exact ⟨hgraph, .refl graph, fun ty hty => absurd hty List.not_mem_nil,
      fun hnode _ => hnode⟩
  | @cons graph middle after operation operations returned results hallowed hperform hrest ih =>
      have hfirst := Kept.of_perform? hgraph hallowed hperform
      refine (hfirst.trans (ih hfirst.wellFormed)).mono ?_
      intro id htouched
      obtain hnow | ⟨first, found, rest, before, reached, rfl, hbefore, htouches⟩ := htouched
      · exact ⟨[], operation, operations, [], graph, rfl, .nil graph, hnow⟩
      · exact ⟨operation :: first, found, rest, returned ++ before, reached, rfl,
          .cons hallowed hperform hbefore, htouches⟩

/-- What is so after operations on a graph. The handles that were returned are handles, and so are
those that are stored anywhere. Branches and named types are what they were in the graph. Tuples
have the names that they had, and their elements too unless an operation has touched them. Some
rank decreases from a branch to its children, so every cycle goes through a tuple. Whatever
operation is allowed next returns. -/
structure Valid (graph : Graph) (operations : List Operation) (returned : List Ty)
    (after : Graph) : Prop where
  returned : ∀ ty ∈ returned, after.Holds ty
  stored : ∀ ty child, after.Child ty child ∨ after.ElementOf ty child → after.Holds child
  branch : ∀ ty branch, graph.branch? ty = some branch → after.branch? ty = some branch
  named : ∀ id node, graph.named? id = some node → after.named? id = some node
  tuple : ∀ id node, graph.tuple? id = some node → ∃ elements,
    after.tuple? id = some ⟨node.name, elements⟩ ∧
      (elements ≠ node.elements → TouchedIn graph operations id)
  rank : ∃ rank : Ty → Nat, ∀ ty child, after.Child ty child → rank child < rank ty
  acyclic : Acyclic after.Child
  returns : ∀ operation : Operation, operation.Allowed after →
    ∃ results next, operation.perform? after = some (results, next)

/-- In every run from the empty graph, handles stay valid from when they are returned on, and all
that changes are the elements of tuples that are touched. -/
theorem handles_stay_valid (hbefore : Runs ∅ operations returned graph)
    (hlater : Runs graph later results after) :
    Valid graph later (returned ++ results) after := by
  have hfirst := hbefore.kept Graph.wellFormed_empty
  have hkept := hlater.kept hfirst.wellFormed
  have hafter := hkept.wellFormed
  refine ⟨(hfirst.trans hkept).returned, ?_, fun _ _ => hkept.grows.branch,
    fun _ _ => hkept.grows.named, ?_, ⟨height after.Child after.branches, ?_⟩, hafter.acyclic,
    fun _ => exists_perform? hafter⟩
  · rintro ty child (hchild | helement)
    · exact hafter.holds_child hchild
    · exact hafter.holds_element helement
  · intro id node hnode
    obtain ⟨elements, helements⟩ := hkept.grows.tuple hnode
    refine ⟨elements, helements, fun hne => ?_⟩
    by_contra huntouched
    rw [hkept.untouched hnode huntouched] at helements
    exact hne (congrArg TupleNode.elements (Option.some.inj helements)).symm
  · intro ty child hchild
    refine height_lt hafter.acyclic ?_ hchild
    obtain ⟨branch, hbranch, -⟩ := Graph.mem_children_iff.mp hchild
    exact Graph.mem_branches_iff.mpr (Option.isSome_of_eq_some hbranch)

/-- The operations that make the graph in which a tuple contains itself. -/
def makeLooped : List Operation :=
  [.tuple (some "Node") [], .function (.var ⟨1⟩) (.tuple 0), .union (.ofList [.function 0, .var ⟨2⟩]),
    .replaceElements 0 [⟨some "self", .var ⟨0⟩⟩, ⟨none, .union 0⟩]]

theorem handles_stay_valid_looped : ∃ result after,
    Runs ∅ makeLooped [.tuple 0, .function 0, .union 0] .looped ∧
      Runs .looped [.reify .looped (.union 0)] [result] after ∧
      Valid .looped [.reify .looped (.union 0)] [.tuple 0, .function 0, .union 0, result] after := by
  have hmake : Runs ∅ makeLooped [.tuple 0, .function 0, .union 0] .looped := by
    refine @Runs.cons _ _ _ _ _ [.tuple 0] [.function 0, .union 0] ⟨by decide, trivial⟩ rfl ?_
    refine @Runs.cons _ _ _ _ _ [.function 0] [.union 0] ⟨by decide, trivial⟩ rfl ?_
    refine @Runs.cons _ _ _ _ _ [.union 0] [] ⟨by decide, trivial⟩ rfl ?_
    exact @Runs.cons _ _ _ _ _ [] [] ⟨by decide, trivial⟩ rfl (.nil _)
  have hsound := Session.reached_looped.sound.tables Table.looped List.mem_cons_self
  obtain ⟨⟨result, after⟩, hreify⟩ :=
    Option.isSome_iff_exists.mp (show (Table.looped.reify? .looped (.union 0)).isSome by decide)
  have hperform : (reify .looped (.union 0)).perform? .looped = some ([result], after) := by
    simp [perform?, hreify]
  have hallowed : (reify .looped (.union 0)).Allowed .looped := ⟨by decide, hsound.acyclic⟩
  have hlater : Runs .looped [.reify .looped (.union 0)] [result] after :=
    .cons hallowed hperform (.nil after)
  exact ⟨result, after, hmake, hlater, handles_stay_valid hmake hlater⟩

end Operation

end Inference
