import Inference.Proofs.Enumeration
import Inference.Registry

/-!
# First insertions

What a registry holds after any requests is the list of its first insertions:
the requested keys, each where it was requested first, with the item of that
request. `Represents` says how the index and the arena of a registry hold such a
list. Every request keeps them together (`Represents.perform`), so they hold the list
after every run (`represents_after`), and everything that a registry answers can be
read off the list (`holds_first_insertions`).
-/

namespace Inference

/-- A request to a registry. Items are interned where they are keys as well. -/
inductive Request : Type → Type → Type 1 where
  | insert {κ α : Type} (key : κ) (item : α) : Request κ α
  | intern {α : Type} (item : α) : Request α α

/-- The answer to a request: what the insertion returns, or the interned id. -/
inductive Answer (α : Type) where
  | inserted (result : Except (Nat × α) Nat)
  | interned (id : Nat)

variable {κ α : Type}

namespace Request

/-- The key of a request with its item. -/
def entry : {κ α : Type} → Request κ α → κ × α
  | _, _, insert key item => (key, item)
  | _, _, intern item => (item, item)

/-- The answer to a request whose key has an id already. -/
def taken (id : Nat) : {κ α : Type} → Request κ α → Answer α
  | _, _, insert _ item => .inserted (.error (id, item))
  | _, _, intern _ => .interned id

/-- The answer to a request whose key is given this id. -/
def stored (id : Nat) : {κ α : Type} → Request κ α → Answer α
  | _, _, insert _ _ => .inserted (.ok id)
  | _, _, intern _ => .interned id

end Request

/-- The list of first insertions after one more entry. -/
def addFirst [DecidableEq κ] (listed : List (κ × α)) (entry : κ × α) : List (κ × α) :=
  if entry.1 ∈ listed.map Prod.fst then listed else listed ++ [entry]

/-- The entries whose key was new when it was requested, in order. -/
def firstInsertions [DecidableEq κ] (requests : List (Request κ α)) : List (κ × α) :=
  requests.foldl (fun listed request => addFirst listed request.entry) []

namespace Registry

/-- The answer to a request, and the registry after it. The error for a key that is taken comes
without a registry, and the one before it stays. -/
def perform : {κ α : Type} → [DecidableEq κ] → Registry κ α → Request κ α → Answer α × Registry κ α
  | _, _, _, registry, .insert key item =>
      match registry.insert key item with
      | .ok (id, grown) => (.inserted (.ok id), grown)
      | .error taken => (.inserted (.error taken), registry)
  | _, _, _, registry, .intern item =>
      let (id, grown) := registry.intern item
      (.interned id, grown)

/-- The registry after requests to an empty one. -/
def after [DecidableEq κ] (requests : List (Request κ α)) : Registry κ α :=
  requests.foldl (fun registry request => (registry.perform request).2) ∅

/-! ## The listed entries -/

/-- The registry holds the listed entries: the index finds each key at its position, and the arena
has the items. -/
structure Represents (registry : Registry κ α) (listed : List (κ × α)) : Prop where
  distinct : (listed.map Prod.fst).Nodup
  index : registry.index.Perm (listed.map Prod.fst).zipIdx
  items : registry.items.items.toList = listed.map Prod.snd

variable {registry other : Registry κ α} {listed : List (κ × α)} {key : κ} {id : Nat}

theorem represents_empty : Represents (∅ : Registry κ α) [] :=
  ⟨List.nodup_nil, .refl _, rfl⟩

namespace Represents

theorem get?_eq (hlisted : Represents registry listed) (id : Nat) :
    registry.get? id = listed[id]?.map Prod.snd := by
  rw [get?, Arena.get?, ← Array.getElem?_toList, hlisted.items, List.getElem?_map]

theorem mem_index_iff (hlisted : Represents registry listed) :
    (key, id) ∈ registry.index ↔ (listed.map Prod.fst)[id]? = some key := by
  rw [hlisted.index.mem_iff, List.mk_mem_zipIdx_iff_getElem?]

theorem size_items (hlisted : Represents registry listed) :
    registry.items.size = listed.length := by
  rw [Arena.size, ← Array.length_toList, hlisted.items, List.length_map]

theorem length_index (hlisted : Represents registry listed) :
    registry.index.length = listed.length := by
  rw [hlisted.index.length_eq, List.length_zipIdx, List.length_map]

variable [DecidableEq κ]

/-- Keys are found at their positions in the list. -/
theorem find?_eq_some_iff (hlisted : Represents registry listed) :
    registry.find? key = some id ↔ (listed.map Prod.fst)[id]? = some key := by
  have hnodup : (registry.index.map Prod.fst).Nodup := by
    rw [(hlisted.index.map Prod.fst).nodup_iff, List.zipIdx_map_fst]
    exact hlisted.distinct
  rw [find?, lookup_eq_some_iff_mem hnodup, hlisted.mem_index_iff]

theorem find?_eq_none_iff (hlisted : Represents registry listed) :
    registry.find? key = none ↔ key ∉ listed.map Prod.fst := by
  simp only [Option.eq_none_iff_forall_ne_some, ne_eq, hlisted.find?_eq_some_iff,
    List.mem_iff_getElem?, not_exists]

/-- A key that is listed keeps its id, and the new item is handed back. -/
theorem insert_taken (hlisted : Represents registry listed)
    (htaken : (listed.map Prod.fst)[id]? = some key) (item : α) :
    registry.insert key item = .error (id, item) := by
  rw [insert, hlisted.find?_eq_some_iff.mpr htaken]

/-- A new key is listed behind all others. -/
theorem insert_new (hlisted : Represents registry listed)
    (hnew : key ∉ listed.map Prod.fst) (item : α) :
    ∃ grown, registry.insert key item = .ok (listed.length, grown) ∧
      Represents grown (listed ++ [(key, item)]) := by
  refine ⟨⟨(key, listed.length) :: registry.index, (registry.items.insert item).2⟩, ?_, ?_, ?_, ?_⟩
  · simp only [insert, hlisted.find?_eq_none_iff.mpr hnew, Arena.insert, hlisted.size_items]
  · rw [List.map_append, List.nodup_append_comm]
    exact List.nodup_cons.mpr ⟨hnew, hlisted.distinct⟩
  · rw [List.map_append, List.zipIdx_append, List.length_map, Nat.zero_add]
    exact (hlisted.index.cons _).trans (List.perm_append_singleton _ _).symm
  · simp only [Arena.insert, Array.toList_push, hlisted.items, List.map_append, List.map_cons,
      List.map_nil]

/-- Registries are equal exactly if they hold the same list. -/
theorem beq_iff [DecidableEq α] {others : List (κ × α)} (hlisted : Represents registry listed)
    (hothers : Represents other others) : (registry == other) = true ↔ listed = others := by
  show (decide (registry.items = other.items) && (_ && _)) = true ↔ _
  simp only [Bool.and_eq_true, decide_eq_true_eq, beq_iff_eq, List.all_eq_true]
  constructor
  · rintro ⟨hitems, hlength, hindex⟩
    have hsecond : listed.map Prod.snd = others.map Prod.snd := by
      rw [← hlisted.items, ← hothers.items, hitems]
    have hfirst : listed.map Prod.fst = others.map Prod.fst := by
      refine List.ext_getElem? fun id => ?_
      cases hkey : (listed.map Prod.fst)[id]? with
      | some key =>
          have hfound := hindex (key, id) (hlisted.mem_index_iff.mpr hkey)
          exact (hothers.find?_eq_some_iff.mp hfound).symm
      | none =>
          rw [List.getElem?_eq_none_iff, List.length_map] at hkey
          rw [hlisted.length_index, hothers.length_index] at hlength
          rw [eq_comm, List.getElem?_eq_none_iff, List.length_map, ← hlength]
          exact hkey
    exact (List.zip_of_prod hfirst hsecond).trans (List.zip_of_prod rfl rfl).symm
  · rintro rfl
    refine ⟨?_, ?_, ?_⟩
    · have hitems := hlisted.items.trans hothers.items.symm
      exact congrArg Arena.mk (Array.toList_inj.mp hitems)
    · rw [hlisted.length_index, hothers.length_index]
    · rintro ⟨key, id⟩ hentry
      exact hothers.find?_eq_some_iff.mpr (hlisted.mem_index_iff.mp hentry)

end Represents

/-! ## Runs of requests -/

variable [DecidableEq κ] {request : Request κ α}

/-- A request for a key that is listed is answered with its position and changes nothing. -/
theorem Represents.perform_taken (hlisted : Represents registry listed)
    (htaken : (listed.map Prod.fst)[id]? = some request.entry.1) :
    registry.perform request = (request.taken id, registry) := by
  cases request with
  | insert key item =>
      have hinsert : registry.insert key item = .error (id, item) :=
        hlisted.insert_taken htaken item
      simp only [perform, hinsert, Request.taken]
  | intern item =>
      have hinsert : registry.insert item item = .error (id, item) :=
        hlisted.insert_taken htaken item
      simp only [perform, intern, hinsert, Request.taken]

/-- A request for a new key is answered with the number of the listed entries and lists one
more. -/
theorem Represents.perform_new (hlisted : Represents registry listed)
    (hnew : request.entry.1 ∉ listed.map Prod.fst) :
    ∃ grown, registry.perform request = (request.stored listed.length, grown) ∧
      Represents grown (listed ++ [request.entry]) := by
  cases request with
  | insert key item =>
      obtain ⟨grown, hinsert, hgrown⟩ := hlisted.insert_new hnew item
      have hinsert : registry.insert key item = .ok (listed.length, grown) := hinsert
      exact ⟨grown, by simp only [perform, hinsert, Request.stored], hgrown⟩
  | intern item =>
      obtain ⟨grown, hinsert, hgrown⟩ := hlisted.insert_new hnew item
      have hinsert : registry.insert item item = .ok (listed.length, grown) := hinsert
      exact ⟨grown, by simp only [perform, intern, hinsert, Request.stored], hgrown⟩

/-- One more request lists its entry if the key is new. -/
theorem Represents.perform (hlisted : Represents registry listed) :
    Represents (registry.perform request).2 (addFirst listed request.entry) := by
  unfold addFirst
  split
  · rename_i hmem
    obtain ⟨id, hid⟩ := List.mem_iff_getElem?.mp hmem
    rw [hlisted.perform_taken hid]
    exact hlisted
  · rename_i hnew
    obtain ⟨grown, hperform, hgrown⟩ := hlisted.perform_new hnew
    rw [hperform]
    exact hgrown

theorem firstInsertions_concat (requests : List (Request κ α)) (request : Request κ α) :
    firstInsertions (requests ++ [request]) =
      addFirst (firstInsertions requests) request.entry := by
  simp only [firstInsertions, List.foldl_append, List.foldl_cons, List.foldl_nil]

/-- After every run, the registry holds the first insertions. -/
theorem represents_after (requests : List (Request κ α)) :
    Represents (after requests) (firstInsertions requests) := by
  induction requests using List.reverseRecOn with
  | nil => exact represents_empty
  | append_singleton requests request ih =>
      rw [after, List.foldl_append, firstInsertions_concat]
      exact ih.perform

/-- The list of first insertions only grows at its end. -/
theorem prefix_firstInsertions (requests later : List (Request κ α)) :
    firstInsertions requests <+: firstInsertions (requests ++ later) := by
  induction later using List.reverseRecOn with
  | nil => exact (List.append_nil requests).symm ▸ List.prefix_refl _
  | append_singleton later request ih =>
      rw [← List.append_assoc, firstInsertions_concat, addFirst]
      split
      · exact ih
      · exact ih.trans (List.prefix_append _ _)

/-- A registry is the list of its first insertions. After any requests, a listed key has its
position as id, which every request for the key is answered with without a change; a new key is
given the number of the listed entries; an id names the item listed at its position, also after
later requests; and registries are equal exactly if their lists are. -/
theorem holds_first_insertions [DecidableEq α] (requests : List (Request κ α)) :
    (∀ (request : Request κ α) id,
      ((firstInsertions requests).map Prod.fst)[id]? = some request.entry.1 →
        (after requests).perform request = (request.taken id, after requests)) ∧
    (∀ request : Request κ α, request.entry.1 ∉ (firstInsertions requests).map Prod.fst →
      ((after requests).perform request).1 = request.stored (firstInsertions requests).length) ∧
    (∀ id, (after requests).get? id = (firstInsertions requests)[id]?.map Prod.snd) ∧
    (∀ (later : List (Request κ α)) id entry, (firstInsertions requests)[id]? = some entry →
      (after (requests ++ later)).get? id = some entry.2) ∧
    ∀ others : List (Request κ α), (after requests == after others) = true ↔
      firstInsertions requests = firstInsertions others := by
  have hlisted := represents_after requests
  refine ⟨fun request id htaken => hlisted.perform_taken htaken, ?_, hlisted.get?_eq, ?_,
    fun others => hlisted.beq_iff (represents_after others)⟩
  · intro request hnew
    obtain ⟨grown, hperform, -⟩ := hlisted.perform_new hnew
    rw [hperform]
  · intro later id entry hentry
    obtain ⟨new, hnew⟩ := prefix_firstInsertions requests later
    obtain ⟨hlt, -⟩ := List.getElem?_eq_some_iff.mp hentry
    rw [(represents_after (requests ++ later)).get?_eq, ← hnew, List.getElem?_append_left hlt,
      hentry, Option.map_some]

-- What is stored under a key is no key itself.
example : ((after [.insert 0 1]).perform (.intern 1)).1 = (.interned 1 : Answer Nat) := rfl

end Registry

end Inference
