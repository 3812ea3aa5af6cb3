import Inference.Ascending
import Inference.Ty

/-!
# Sets of cases

The cases of a union form a set: neither their order nor their repetitions
matter. A case set is the strictly ascending list of its members, so equal sets
are equal values.
-/

namespace Inference

/-- A finite set of types, as the strictly ascending list of its members. -/
structure CaseSet where
  toList : List Ty
  ascending : toList.Pairwise (· < ·)
  deriving DecidableEq

namespace CaseSet

/-- The set of the types in a list. -/
def ofList (cases : List Ty) : CaseSet :=
  ⟨Ascending.ofList cases, Ascending.pairwise_ofList cases⟩

instance : Membership Ty CaseSet := ⟨fun cases ty => ty ∈ cases.toList⟩

@[simp]
theorem mem_toList {ty : Ty} {cases : CaseSet} : ty ∈ cases.toList ↔ ty ∈ cases := Iff.rfl

@[simp]
theorem mem_ofList {ty : Ty} {cases : List Ty} : ty ∈ ofList cases ↔ ty ∈ cases :=
  Ascending.mem_ofList

@[ext]
theorem ext {left right : CaseSet} (hmem : ∀ ty, ty ∈ left ↔ ty ∈ right) : left = right := by
  obtain ⟨left, hleft⟩ := left
  obtain ⟨right, hright⟩ := right
  congr
  exact Ascending.eq_of_mem_iff (inferInstance : Std.Irrefl (α := Ty) (· < ·)).irrefl
    Trans.trans hleft hright hmem

/-- The order and the repetitions of the listed cases do not matter. -/
theorem ofList_eq_ofList_iff {left right : List Ty} :
    ofList left = ofList right ↔ ∀ ty, ty ∈ left ↔ ty ∈ right := by
  refine ⟨fun h ty => ?_, fun h => ext fun ty => by simpa using h ty⟩
  rw [← mem_ofList, h, mem_ofList]

/-- A set is built again from its own list. -/
@[simp]
theorem ofList_toList (cases : CaseSet) : ofList cases.toList = cases :=
  ext fun ty => by simp

/-- No member is listed twice. -/
theorem nodup (cases : CaseSet) : cases.toList.Nodup := by
  refine cases.ascending.imp ?_
  rintro case _ hlt rfl
  exact Std.Irrefl.irrefl case hlt

/-- Sets are ordered lexicographically by their ascending lists. -/
instance : Ord CaseSet := ⟨fun left right => List.compareLex compare left.toList right.toList⟩

end CaseSet

end Inference
