import Inference.Proofs.Agreement
import Inference.Proofs.Literals
import Inference.Proofs.Reification.Display
import Mathlib.Data.List.Fold

/-!
# What is seen of a table

Comparing, hashing and showing a table go through its bindings in some order. The
result does not depend on this order (`seenAlong`): a comparison asks the same of
every binding, a sum of hashes does not depend on the order of its terms, and lines
are sorted before they are shown. So tables of the same bindings cannot be told apart,
whichever way they are made (`observed_in_any_order`), and a hash tells apart tables
with different variables only (`fingerprintWith_eq_of_keys`).
-/

namespace Inference

namespace Bindings

variable {bindings : Bindings} {order : List (Variable × Ty)}

theorem length_entries (bindings : Bindings) : bindings.entries.length = bindings.size :=
  Array.length_toList

/-- The first variable is not above the second one. -/
def keyLe (left right : Variable × Ty) : Bool := left.1.id ≤ right.1.id

/-- Sorting the entries by their variables gives them in increasing order, whatever their order
was. -/
theorem mergeSort_eq_entries (horder : order.Perm bindings.entries) :
    order.mergeSort keyLe = bindings.entries := by
  have hsorted : (order.mergeSort keyLe).Pairwise fun left right => keyLe left right = true := by
    refine List.pairwise_mergeSort ?_ ?_ order
    · intro first second third hfirst hsecond
      simp only [keyLe, decide_eq_true_eq] at hfirst hsecond ⊢
      omega
    · intro first second
      simp only [keyLe, Bool.or_eq_true, decide_eq_true_eq]
      omega
  have hentries : bindings.entries.Pairwise fun left right => keyLe left right = true :=
    bindings.ascending.imp fun hlt => decide_eq_true (Nat.le_of_lt hlt)
  have hperm : (order.mergeSort keyLe).Perm bindings.entries :=
    (List.mergeSort_perm order keyLe).trans horder
  refine hperm.eq_of_pairwise ?_ hsorted hentries
  intro left right hleft hright hle hge
  simp only [keyLe, decide_eq_true_eq] at hle hge
  have hvariable : left.1 = right.1 :=
    Variable.eq_of_not_lt (Nat.not_lt_of_le hge) (Nat.not_lt_of_le hle)
  exact List.inj_on_of_nodup_map (nodup_of_perm (.refl _)) (hperm.mem_iff.mp hleft) hright
    hvariable

end Bindings

namespace Table

/-! ## Going through the bindings in some order -/

/-- Whether the table has as many bindings as are listed, and every listed one. -/
def matchesAlong (table : Table) (order : List (Variable × Ty)) : Bool :=
  order.length = table.size && order.all fun (subject, ty) => table.get? subject = some ty

/-- What a table hashes to whose bindings come in this order. -/
def fingerprintAlong (hash : Variable → UInt64) (order : List (Variable × Ty)) : Nat × UInt64 :=
  (order.length, (order.map fun entry => hash entry.1).foldl (· + ·) 0)

/-- The text of a table whose bindings come in this order. They are sorted by their variables before
they are shown. -/
def renderAlong? (graph : Graph) (order : List (Variable × Ty)) : Option String :=
  ((order.mergeSort Bindings.keyLe).mapM fun entry =>
    (graph.render? entry.2).map (Graph.renderEntry entry.1)).map String.join

/-- Going through the bindings of the table in this order gives what is said of the table. -/
structure SeenAlong (order : List (Variable × Ty)) (table : Table) : Prop where
  equal : ∀ other : Table, other.matchesAlong order = (table == other)
  equivalent : ∀ other : Table, other.confirms order = table.isEquivalent other
  fingerprint : ∀ hash, fingerprintAlong hash order = table.fingerprintWith hash
  text : ∀ graph : Graph, renderAlong? graph order = graph.renderTable? table

/-- The ways in which a table is made of listed bindings. -/
inductive Made (listed : List (Variable × Ty)) : Table → Prop where
  | literal {table : Table} : ofLiteral listed = .ok table → Made listed table
  | map {bindings : Bindings} : bindings.entries.Perm listed → Made listed (ofBindings bindings)
  | list : Made listed (ofList listed)

variable {table other first second : Table} {order others listed : List (Variable × Ty)}

/-- A table with as many bindings and all of these is equal to the one that has them. -/
theorem matchesAlong_iff (horder : order.Perm table.entries) :
    other.matchesAlong order = true ↔ (table == other) = true := by
  rw [beq_iff_get?_eq, matchesAlong, Bool.and_eq_true, decide_eq_true_eq, List.all_eq_true]
  simp only [decide_eq_true_eq, Prod.forall]
  constructor
  · rintro ⟨hlength, hfound⟩
    have hsubset : table.entries ⊆ other.entries := by
      rintro ⟨subject, ty⟩ hentry
      exact Bindings.mem_entries_iff.mpr (hfound subject ty (horder.mem_iff.mpr hentry))
    have hnodup : table.entries.Nodup := (Bindings.nodup_of_perm (.refl _)).of_map
    have hle : other.entries.length ≤ table.entries.length := by
      rw [← horder.length_eq, hlength]
      exact Nat.le_of_eq (Bindings.length_entries other.bindings)
    have hperm : table.entries.Perm other.entries :=
      (hnodup.subperm hsubset).perm_of_length_le hle
    intro subject
    ext ty
    exact (Bindings.mem_entries_iff.symm.trans hperm.mem_iff).trans Bindings.mem_entries_iff
  · intro hget
    have hbindings : table.bindings = other.bindings := Bindings.ext hget
    refine ⟨?_, fun subject ty hentry => ?_⟩
    · rw [horder.length_eq, entries, hbindings, Bindings.length_entries, size]
    · rw [← hget]
      exact Bindings.mem_entries_iff.mp (horder.mem_iff.mp hentry)

theorem fingerprintAlong_eq (hash : Variable → UInt64) (horder : order.Perm table.entries) :
    fingerprintAlong hash order = table.fingerprintWith hash := by
  have hhashes : (order.map fun entry => hash entry.1).Perm (table.bindings.keys.map hash) := by
    rw [Bindings.keys, List.map_map]
    exact horder.map _
  rw [fingerprintAlong, fingerprintWith, horder.length_eq, List.foldl_eq_foldr,
    hhashes.foldr_eq, entries, Bindings.length_entries, size]

/-- The order in which the bindings of a table come is not seen. -/
theorem seenAlong (horder : order.Perm table.entries) : SeenAlong order table where
  equal other := Bool.eq_iff_iff.mpr (matchesAlong_iff horder)
  equivalent other := by
    rw [Bool.eq_iff_iff, confirms_iff horder, isEquivalent_iff_agrees]
  fingerprint hash := fingerprintAlong_eq hash horder
  text graph := by
    rw [renderAlong?, Bindings.mergeSort_eq_entries horder]
    rfl

/-- Tables that bind the same variables have the same keys. -/
theorem keys_eq (hkeys : ∀ subject, (first.get? subject).isSome = (second.get? subject).isSome) :
    first.bindings.keys = second.bindings.keys := by
  have hascending : ∀ bindings : Bindings, bindings.keys.Pairwise (· < ·) :=
    fun bindings => List.pairwise_map.mpr bindings.ascending
  refine Ascending.eq_of_mem_iff (fun subject => Nat.lt_irrefl subject.id)
    (fun {first second third} (h : first.id < second.id) (h' : second.id < third.id) =>
      Nat.lt_trans h h') (hascending first.bindings) (hascending second.bindings) ?_
  intro subject
  rw [mem_keys_iff, mem_keys_iff, ← Option.isSome_iff_exists, ← Option.isSome_iff_exists, hkeys]

/-- A hash depends on the variables alone. -/
theorem fingerprintWith_eq_of_keys (hash : Variable → UInt64)
    (hkeys : ∀ subject, (first.get? subject).isSome = (second.get? subject).isSome) :
    first.fingerprintWith hash = second.fingerprintWith hash := by
  have hsame := keys_eq hkeys
  have hlength := congrArg List.length hsame
  simp only [Bindings.keys, List.length_map, Bindings.length_entries] at hlength
  rw [fingerprintWith, fingerprintWith, hsame, size, hlength, size]

/-- Every way to make a table of distinct variables gives the table of the list. -/
theorem Made.eq_ofList (hmade : Made listed table) (hdistinct : (listed.map Prod.fst).Nodup) :
    table = ofList listed := by
  cases hmade with
  | literal hok => exact (ofLiteral_eq_ok_iff.mp hok).2
  | map hperm => rw [(Bindings.perm_entries_iff hdistinct).mp hperm, ofList]
  | list => rfl

/-- The text has a line for each of the bindings, in increasing order of their variables: the number
of the variable, an arrow, the text of its type, and a line feed. -/
def HasLines (graph : Graph) (listed : List (Variable × Ty)) (text : String) : Prop :=
  ∃ sorted lines, sorted.Perm listed ∧ sorted.Pairwise (fun left right => left.1 < right.1) ∧
    List.Forall₂ (fun entry line => ∃ shown, graph.render? entry.2 = some shown ∧
      line = "$T" ++ toString entry.1.id ++ " => " ++ shown ++ "\n") sorted lines ∧
    text = String.join lines

theorem renderEntry_eq (subject : Variable) (text : String) :
    Graph.renderEntry subject text = "$T" ++ toString subject.id ++ " => " ++ text ++ "\n" :=
  rfl

theorem hasLines_of_renderTable? {graph : Graph} {text : String} (horder : order.Perm table.entries)
    (htext : graph.renderTable? table = some text) : HasLines graph order text := by
  simp only [Graph.renderTable?, Graph.renderTableListed?, Option.map_eq_some_iff,
    mapM_eq_some_iff_forall₂] at htext
  obtain ⟨lines, hlines, rfl⟩ := htext
  refine ⟨table.entries, lines, horder.symm, table.bindings.ascending, ?_, rfl⟩
  refine hlines.imp ?_
  intro entry line hline
  obtain ⟨shown, hshown, rfl⟩ := hline
  exact ⟨shown, hshown, renderEntry_eq entry.1 shown⟩

/-- Tables that are made of the same bindings for distinct variables, whichever way and in whatever
order they are listed, are equal, are equivalent, hash to the same and have the same text in every
graph, with one line for each binding in the order of the variables. The order in which comparing,
hashing and showing a table go through its bindings is not seen. Tables that bind the same variables
hash to the same, whatever they bind them to. -/
theorem observed_in_any_order {left right : List (Variable × Ty)}
    (hdistinct : (left.map Prod.fst).Nodup) (hperm : left.Perm right) :
    (∃ first second, ofLiteral left = .ok first ∧ ofLiteral right = .ok second) ∧
    (∀ first second, Made left first → Made right second →
      (first == second) = true ∧ first.isEquivalent second = true ∧
      (∀ hash, first.fingerprintWith hash = second.fingerprintWith hash) ∧
      ∀ graph : Graph, graph.renderTable? first = graph.renderTable? second ∧
        (∀ text, graph.renderTable? first = some text → HasLines graph left text) ∧
        (graph.WellFormed → ∃ text, graph.renderTable? first = some text)) ∧
    (∀ order table, order.Perm table.entries → SeenAlong order table) ∧
    ∀ first second : Table, (∀ subject, (first.get? subject).isSome = (second.get? subject).isSome) →
      ∀ hash, first.fingerprintWith hash = second.fingerprintWith hash := by
  have hother : (right.map Prod.fst).Nodup := (hperm.map Prod.fst).nodup_iff.mp hdistinct
  have hentries : (ofList left).entries.Perm left := (Bindings.perm_entries_iff hdistinct).mpr rfl
  have hsame : ofList right = ofList left := by
    rw [ofList, ← (Bindings.perm_entries_iff hother).mp (hentries.trans hperm)]
    rfl
  refine ⟨?_, ?_, fun _ _ => seenAlong, fun _ _ hkeys hash => fingerprintWith_eq_of_keys hash hkeys⟩
  · exact ⟨ofList left, ofList right, ofLiteral_eq_ok_iff.mpr ⟨hdistinct, rfl⟩,
      ofLiteral_eq_ok_iff.mpr ⟨hother, rfl⟩⟩
  · intro first second hfirst hsecond
    obtain rfl := hfirst.eq_ofList hdistinct
    obtain rfl := (hsecond.eq_ofList hother).trans hsame
    refine ⟨beq_iff_get?_eq.mpr fun _ => rfl, ?_, fun _ => rfl, fun graph => ⟨rfl, ?_, ?_⟩⟩
    · rw [isEquivalent_iff_agrees]
      intro subject bound other hbound hother
      exact Option.some.inj (hbound.symm.trans hother)
    · exact fun text htext => hasLines_of_renderTable? hentries.symm htext
    · exact fun hgraph => renderTableListed?_returns hgraph (fun _ _ => id) _

/-- One table is written out, and the other one is made of a map with the bindings in another
order. Both have the same three lines. -/
theorem observed_in_any_order_permuted : ∃ first second,
    ofLiteral [(⟨2⟩, .union 0), (⟨0⟩, .primitive .int), (⟨1⟩, .var ⟨2⟩)] = .ok first ∧
    second = ofBindings (.ofList [(⟨1⟩, .var ⟨2⟩), (⟨2⟩, .union 0), (⟨0⟩, .primitive .int)]) ∧
    (first == second) = true ∧ first.isEquivalent second = true ∧
    first.fingerprint = second.fingerprint ∧
    Graph.looped.renderTable? first = Graph.looped.renderTable? second ∧
    Graph.looped.renderTable? first =
      some "$T0 => Int\n$T1 => $T2\n$T2 => $T2 | ($T1) -> Node\n" ∧
    HasLines .looped [(⟨2⟩, .union 0), (⟨0⟩, .primitive .int), (⟨1⟩, .var ⟨2⟩)]
      "$T0 => Int\n$T1 => $T2\n$T2 => $T2 | ($T1) -> Node\n" := by
  have hmap : (Bindings.ofList
      [(⟨1⟩, .var ⟨2⟩), (⟨2⟩, .union 0), (⟨0⟩, .primitive .int)]).entries.Perm
      [(⟨1⟩, .var ⟨2⟩), (⟨2⟩, .union 0), (⟨0⟩, .primitive .int)] := by decide
  obtain ⟨⟨first, -, hfirst, -⟩, hmade, -, -⟩ := @observed_in_any_order
    [(⟨2⟩, .union 0), (⟨0⟩, .primitive .int), (⟨1⟩, .var ⟨2⟩)] _ (by decide)
    (by decide : List.Perm _ [(⟨1⟩, .var ⟨2⟩), (⟨2⟩, .union 0), (⟨0⟩, .primitive .int)])
  obtain ⟨hequal, hequivalent, hhash, htext⟩ := hmade first _ (.literal hfirst) (.map hmap)
  obtain ⟨hsame, hlines, -⟩ := htext .looped
  have hshown : Graph.looped.renderTable? (ofBindings (.ofList
      [(⟨1⟩, .var ⟨2⟩), (⟨2⟩, .union 0), (⟨0⟩, .primitive .int)])) =
      some "$T0 => Int\n$T1 => $T2\n$T2 => $T2 | ($T1) -> Node\n" := by decide
  rw [← hsame] at hshown
  exact ⟨first, _, hfirst, rfl, hequal, hequivalent, hhash _, hsame, hshown, hlines _ hshown⟩

end Table

end Inference
