import Inference.Description
import Mathlib

/-!
# Descriptions tell handles apart

A description writes the kind and the number of a handle. The digits of a number end
at the bracket behind them (`repr_append_inj`), so no two handles have one description
(`Ty.describe_injective`).
-/

namespace Inference

/-- A number can be read off in front of a closing bracket. -/
theorem repr_append_inj {left right : Nat} {rest others : List Char}
    (h : left.repr.toList ++ ')' :: rest = right.repr.toList ++ ')' :: others) :
    left = right ∧ rest = others := by
  have hdigits : ∀ (number : Nat) (rest : List Char),
      (number.repr.toList ++ ')' :: rest).takeWhile Char.isDigit = number.repr.toList := by
    intro number rest
    have hall : ∀ char ∈ number.repr.toList, char.isDigit = true := by
      intro char hchar
      rw [Nat.toList_repr] at hchar
      exact Nat.isDigit_of_mem_toDigits (by decide) (by decide) hchar
    rw [List.takeWhile_append_of_pos hall, List.takeWhile_cons_of_neg (by decide), List.append_nil]
  have hsame := congrArg (List.takeWhile Char.isDigit) h
  rw [hdigits, hdigits] at hsame
  rw [hsame] at h
  exact ⟨Nat.repr_injective (String.toList_inj.mp hsame),
    (List.cons.inj (List.append_cancel_left h)).2⟩

theorem Variable.describe_eq (subject : Variable) :
    subject.describe = "Variable(" ++ subject.id.repr ++ ")" := rfl

/-- A variable can be read off in front of anything. -/
theorem Variable.describe_append_inj {left right : Variable} {rest others : List Char}
    (h : left.describe.toList ++ rest = right.describe.toList ++ others) :
    left = right ∧ rest = others := by
  simp only [describe_eq, String.toList_append, List.append_assoc] at h
  obtain ⟨hid, hrest⟩ := repr_append_inj (List.append_cancel_left h)
  exact ⟨congrArg Variable.mk hid, hrest⟩

theorem Variable.describe_injective : Function.Injective Variable.describe := by
  intro left right h
  exact (describe_append_inj (congrArg (·.toList ++ []) h)).1

theorem describeId_injective : Function.Injective describeId := by
  intro left right h
  have hid : ∀ id, (describeId id).toList = "ID(".toList ++ (id.repr.toList ++ [')']) := by
    intro id
    have heq : describeId id = "ID(" ++ id.repr ++ ")" := rfl
    rw [heq, String.toList_append, String.toList_append, List.append_assoc]
    rfl
  have hlists := congrArg String.toList h
  rw [hid, hid] at hlists
  exact (repr_append_inj (List.append_cancel_left hlists)).1

theorem Primitive.name_injective : Function.Injective Primitive.name := by
  intro left right h
  cases left <;> cases right <;> first | rfl | exact absurd h (by decide)

/-- No two handles have one description. Those of different kinds differ in the first letters. -/
theorem Ty.describe_injective : Function.Injective Ty.describe := by
  intro left right h
  rw [← String.toList_inj] at h
  cases left <;> cases right <;> simp [describe, ToString.toString, String.toList_inj] at h
  case var.var =>
    exact congrArg var (Variable.describe_injective h)
  case primitive.primitive =>
    exact congrArg primitive (Primitive.name_injective h)
  all_goals exact congrArg _ (describeId_injective h)

end Inference
