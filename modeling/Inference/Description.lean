import Inference.Ty

/-!
# Descriptions of types

A description names a handle without looking behind it: its kind, and its number
or its primitive type. Error messages and journals identify types this way.
-/

namespace Inference

/-- The description of a position in an arena. -/
def describeId (id : Nat) : String := s!"ID({id})"

/-- The description of a variable. -/
def Variable.describe (subject : Variable) : String := s!"Variable({subject.id})"

/-- The description of a handle. -/
def Ty.describe : Ty → String
  | var subject => s!"Variable({subject.describe})"
  | function id => s!"Function({describeId id})"
  | tuple id => s!"Tuple({describeId id})"
  | union id => s!"Union({describeId id})"
  | metatype id => s!"Metatype({describeId id})"
  | primitive kind => s!"Primitive({kind.name})"
  | named id => s!"Named({describeId id})"

end Inference
