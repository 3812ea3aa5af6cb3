import Inference.Description
import Inference.Stored
import Inference.Text.Quoted

/-!
# Descriptions of nodes

A node is described by its kind and its fields, on one line. Labels and names are
quoted, and types are described without looking behind them.
-/

namespace Inference

/-- The description of a structure, given the descriptions of its fields. -/
def describeRecord (kind : String) (fields : List (String × String)) : String :=
  let shown := fields.map fun (name, text) => name ++ ": " ++ text
  kind ++ " \x7b " ++ ", ".intercalate shown ++ " \x7d"

/-- The description of a list, given the descriptions of its items. -/
def describeList (items : List String) : String := "[" ++ ", ".intercalate items ++ "]"

/-- The description of a set, given the descriptions of its members. -/
def describeSet (members : List String) : String :=
  "\x7b" ++ ", ".intercalate members ++ "\x7d"

/-- The description of a text that may be absent. -/
def describeOptional : Option String → String
  | none => "None"
  | some text => "Some(" ++ Text.quote text ++ ")"

/-- The description of a position. -/
def Position.describe (position : Position) : String := describeId position.index

/-- The description of a function node. -/
def FunctionNode.describe (node : FunctionNode) : String :=
  describeRecord "Function"
    [("domain", node.domain.describe), ("codomain", node.codomain.describe)]

/-- The description of a metatype node. -/
def MetatypeNode.describe (node : MetatypeNode) : String :=
  describeRecord "Metatype" [("of", node.of.describe)]

/-- The description of a union node. -/
def UnionNode.describe (node : UnionNode) : String :=
  describeRecord "Union" [("cases", describeSet (node.cases.toList.map Ty.describe))]

/-- The description of a tuple element. -/
def Element.describe (element : Element) : String :=
  describeRecord "TupleElement"
    [("label", describeOptional element.label), ("type", element.ty.describe)]

/-- The description of a tuple. -/
def TupleNode.describe (node : TupleNode) : String :=
  describeRecord "Tuple"
    [("name", describeOptional node.name),
      ("elements", describeList (node.elements.map Element.describe))]

/-- The description of an opaque named type. -/
def NamedNode.describe (node : NamedNode) : String :=
  describeRecord "Named" [("name", Text.quote node.name)]

end Inference
