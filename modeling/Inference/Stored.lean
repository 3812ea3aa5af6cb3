import Inference.Datum
import Inference.Node

/-!
# Types and nodes as stored data

Every handle and every kind of node has one written form. Reading accepts it and
the other forms of the same structure, so a value that is written is read back
unchanged.
-/

namespace Inference

/-- A position in an arena, stored as its number. -/
structure Position where
  index : Nat
  deriving DecidableEq

instance : Ord Position := ⟨fun left right => compare left.index right.index⟩

instance : Storable Position where
  toDatum position := .natural position.index
  ofDatum? datum := datum.number?.map Position.mk

instance : Storable Variable where
  toDatum subject := .record [("id", .natural subject.id)]
  ofDatum? datum :=
    match datum.fields? ["id"] with
    | some [some id] => id.number?.map Variable.mk
    | _ => none

instance : Storable Primitive where
  toDatum kind := .text kind.name
  ofDatum? datum :=
    match datum.alternative? with
    | some (name, none) => Primitive.ofName? name
    | some (name, some .null) => Primitive.ofName? name
    | _ => none

instance : Storable Ty where
  toDatum
    | .var subject => .record [("Variable", toDatum subject)]
    | .function id => .record [("Function", .natural id)]
    | .tuple id => .record [("Tuple", .natural id)]
    | .union id => .record [("Union", .natural id)]
    | .metatype id => .record [("Metatype", .natural id)]
    | .primitive kind => .record [("Primitive", toDatum kind)]
    | .named id => .record [("Named", .natural id)]
  ofDatum? datum :=
    match datum.alternative? with
    | some ("Variable", some content) => (ofDatum? content).map .var
    | some ("Function", some content) => content.number?.map .function
    | some ("Tuple", some content) => content.number?.map .tuple
    | some ("Union", some content) => content.number?.map .union
    | some ("Metatype", some content) => content.number?.map .metatype
    | some ("Primitive", some content) => (ofDatum? content).map .primitive
    | some ("Named", some content) => content.number?.map .named
    | _ => none

instance : Storable CaseSet where
  toDatum cases := toDatum cases.toList
  ofDatum? datum := (ofDatum? datum).map CaseSet.ofList

instance : Storable FunctionNode where
  toDatum node := .record [("domain", toDatum node.domain), ("codomain", toDatum node.codomain)]
  ofDatum? datum :=
    match datum.fields? ["domain", "codomain"] with
    | some [some domain, some codomain] => do
        pure ⟨← ofDatum? domain, ← ofDatum? codomain⟩
    | _ => none

instance : Storable MetatypeNode where
  toDatum node := .record [("of", toDatum node.of)]
  ofDatum? datum :=
    match datum.fields? ["of"] with
    | some [some of] => (ofDatum? of).map MetatypeNode.mk
    | _ => none

instance : Storable UnionNode where
  toDatum node := .record [("cases", toDatum node.cases)]
  ofDatum? datum :=
    match datum.fields? ["cases"] with
    | some [some cases] => (ofDatum? cases).map UnionNode.mk
    | _ => none

instance : Storable Element where
  toDatum element :=
    .record [("label", .ofOptionalText element.label), ("type", toDatum element.ty)]
  ofDatum? datum :=
    match datum.fields? ["label", "type"] with
    | some [label, some ty] => do pure ⟨← Datum.optionalText? label, ← ofDatum? ty⟩
    | _ => none

instance : Storable TupleNode where
  toDatum node :=
    .record [("name", .ofOptionalText node.name), ("elements", toDatum node.elements)]
  ofDatum? datum :=
    match datum.fields? ["name", "elements"] with
    | some [name, some elements] => do pure ⟨← Datum.optionalText? name, ← ofDatum? elements⟩
    | _ => none

instance : Storable NamedNode where
  toDatum node := .record [("name", .text node.name)]
  ofDatum? datum :=
    match datum.fields? ["name"] with
    | some [some name] => name.text?.map NamedNode.mk
    | _ => none

end Inference
