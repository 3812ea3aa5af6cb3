import Inference.Ascending
import Inference.Graph

/-!
# Shapes

The shape of a type is the tree that remains when functions, metatypes and
unions are unfolded and the numbers of their nodes are forgotten. Variables,
primitives, tuples, opaque named types and handles that name no node are leaves.
The cases of a union are a set, so a shape lists them without repetition and in
the order of their codes.

A code is a list of numbers from which the shape can be read back. It gives
shapes a decidable equality and a total order.
-/

namespace Inference

/-- The tree of a type. -/
inductive Shape where
  | leaf (ty : Ty)
  | function (domain codomain : Shape)
  | metatype (of : Shape)
  | union (cases : List Shape)

instance : Inhabited Shape := ⟨.leaf default⟩

namespace Shape

/-! ## Codes -/

mutual
/-- The code of a shape, in front of other numbers. -/
def codeOnto (after : List Nat) : Shape → List Nat
  | leaf ty => 0 :: ty.rank :: ty.number :: after
  | function domain codomain => 1 :: codeOnto (codeOnto after codomain) domain
  | metatype of => 2 :: codeOnto after of
  | union cases => 3 :: cases.length :: codesOnto after cases

/-- The codes of several shapes, one after the other and in front of other numbers. -/
def codesOnto (after : List Nat) : List Shape → List Nat
  | [] => after
  | first :: rest => codeOnto (codesOnto after rest) first
end

/-- The code of a shape. -/
def code (shape : Shape) : List Nat := codeOnto [] shape

mutual
/-- A code says where it ends, so it can be cut off from what follows it. -/
theorem eq_of_codeOnto {left right : Shape} {afterLeft afterRight : List Nat}
    (hcode : codeOnto afterLeft left = codeOnto afterRight right) :
    left = right ∧ afterLeft = afterRight := by
  match left, right with
  | leaf _, leaf _ =>
      simp only [codeOnto, List.cons.injEq, true_and] at hcode
      obtain ⟨hrank, hnumber, hafter⟩ := hcode
      exact ⟨congrArg leaf (Ty.eq_of_rank_of_number hrank hnumber), hafter⟩
  | function _ _, function _ _ =>
      simp only [codeOnto, List.cons.injEq, true_and] at hcode
      obtain ⟨rfl, hcodomain⟩ := eq_of_codeOnto hcode
      obtain ⟨rfl, hafter⟩ := eq_of_codeOnto hcodomain
      exact ⟨rfl, hafter⟩
  | metatype _, metatype _ =>
      simp only [codeOnto, List.cons.injEq, true_and] at hcode
      obtain ⟨rfl, hafter⟩ := eq_of_codeOnto hcode
      exact ⟨rfl, hafter⟩
  | union _, union _ =>
      simp only [codeOnto, List.cons.injEq, true_and] at hcode
      obtain ⟨rfl, hafter⟩ := eq_of_codesOnto hcode.1 hcode.2
      exact ⟨rfl, hafter⟩
  | leaf _, function _ _ | leaf _, metatype _ | leaf _, union _
  | function _ _, leaf _ | function _ _, metatype _ | function _ _, union _
  | metatype _, leaf _ | metatype _, function _ _ | metatype _, union _
  | union _, leaf _ | union _, function _ _ | union _, metatype _ =>
      simp [codeOnto] at hcode

/-- The codes of as many shapes can be cut off from what follows them. -/
theorem eq_of_codesOnto {left right : List Shape} {afterLeft afterRight : List Nat}
    (hlength : left.length = right.length)
    (hcodes : codesOnto afterLeft left = codesOnto afterRight right) :
    left = right ∧ afterLeft = afterRight := by
  match left, right with
  | [], [] => exact ⟨rfl, hcodes⟩
  | _ :: _, _ :: _ =>
      simp only [codesOnto] at hcodes
      simp only [List.length_cons, Nat.add_right_cancel_iff] at hlength
      obtain ⟨rfl, hrest⟩ := eq_of_codeOnto hcodes
      obtain ⟨rfl, hafter⟩ := eq_of_codesOnto hlength hrest
      exact ⟨rfl, hafter⟩
  | [], _ :: _ | _ :: _, [] => simp at hlength
end

/-- The code determines the shape. -/
theorem code_injective {left right : Shape} (hcode : left.code = right.code) : left = right :=
  (eq_of_codeOnto hcode).1

instance : DecidableEq Shape := fun left right =>
  decidable_of_iff (left.code = right.code) ⟨code_injective, congrArg code⟩

/-- Shapes are ordered lexicographically by their codes. -/
instance : LT Shape := ⟨fun left right => left.code < right.code⟩

instance : DecidableLT Shape := fun left right =>
  inferInstanceAs (Decidable (left.code < right.code))

instance : Std.Irrefl (α := Shape) (· < ·) :=
  ⟨fun shape => (inferInstance : Std.Irrefl (α := List Nat) (· < ·)).irrefl shape.code⟩

instance : Trans (α := Shape) (· < ·) (· < ·) (· < ·) where
  trans := fun {first second third} (h : first.code < second.code)
    (h' : second.code < third.code) => List.lt_trans h h'

instance : Std.Trichotomous (α := Shape) (· < ·) where
  trichotomous _ _ h h' := code_injective <|
    (inferInstance : Std.Trichotomous (α := List Nat) (· < ·)).trichotomous _ _ h h'

/-! ## Unions -/

/-- The union of a set of shapes, given by any list of them. -/
def unionOf (cases : List Shape) : Shape := union (Ascending.ofList cases)

/-- The order and the repetitions of the listed cases do not matter. -/
theorem unionOf_eq_unionOf_iff {left right : List Shape} :
    unionOf left = unionOf right ↔ ∀ shape, shape ∈ left ↔ shape ∈ right := by
  rw [unionOf, unionOf, union.injEq, Ascending.ofList_eq_ofList_iff]

/-! ## Text -/

/-- The text of a leaf. A handle that should name a branch but does not is marked. -/
def leafText : Ty → String
  | .var subject => s!"${subject.id}"
  | .function id => s!"fn?{id}"
  | .tuple id => s!"tuple#{id}"
  | .union id => s!"union?{id}"
  | .metatype id => s!"meta?{id}"
  | .primitive kind => kind.name
  | .named id => s!"named#{id}"

mutual
/-- The text of a shape, in which the texts of the cases of a union are sorted. -/
def text : Shape → String
  | leaf ty => leafText ty
  | function domain codomain => s!"fn({domain.text},{codomain.text})"
  | metatype of => s!"meta({of.text})"
  | union cases => "union[" ++ "|".intercalate (texts cases).mergeSort ++ "]"

/-- The texts of several shapes. -/
def texts : List Shape → List String
  | [] => []
  | first :: rest => first.text :: texts rest
end

end Shape

/-! ## Unfolding -/

/-- The shape of a branch, given the shapes of its children. -/
def Branch.shape : Branch → List Shape → Shape
  | function _, [domain, codomain] => .function domain codomain
  | metatype _, [of] => .metatype of
  | _, cases => .unionOf cases

namespace Graph

/-- The shape of a type, if it is less deep than the bound. -/
def shapeWithin (graph : Graph) : Nat → Ty → Option Shape
  | 0, _ => none
  | depth + 1, ty =>
      match graph.branch? ty with
      | none => some (.leaf ty)
      | some branch => (branch.children.mapM (graph.shapeWithin depth)).map branch.shape

/-- The shape of a type. A type that lies on a cycle of branches has none, and every other type
is at most as deep as there are branches, because no path meets a branch twice. -/
def shape? (graph : Graph) (ty : Ty) : Option Shape :=
  graph.shapeWithin (graph.branchCount + 1) ty

end Graph

end Inference
