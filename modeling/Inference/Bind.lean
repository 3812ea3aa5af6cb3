import Inference.Occurrence

/-!
# Binding variables

A request asks that a variable stand for a type. It is judged against the ends
of both chains: the request may hold already, it may be refused, or it records
one new binding, of the variable at the end of the requested variable's chain to
the type as requested.

A refusal carries no table: whoever makes the request keeps the table as it was.
Nothing is recorded before the request is judged, so there is nothing to undo, and that
a refusal changes nothing holds by construction.
-/

namespace Inference

/-- Why a request is refused. -/
inductive BindError where
  | inconsistent (subject : Variable) (bound requested : Ty)
  | cyclic (subject : Variable) (replacement : Ty)
  deriving DecidableEq

/-- What an error tells the user. -/
def BindError.message : BindError → String
  | inconsistent subject bound requested =>
      s!"the type variable {subject.describe} is already substituted by {bound.describe}, " ++
        s!"which is inconsistent with {requested.describe}"
  | cyclic subject replacement =>
      s!"binding the type variable {subject.describe} to {replacement.describe} " ++
        "would make its substitution cyclic"

/-- The judgement of a request: it records a binding, it holds already, or it is refused. -/
inductive Verdict where
  | records (key : Variable) (ty : Ty)
  | holds
  | refuses (error : BindError)
  deriving DecidableEq

namespace Table

/-- Judge the request that a variable stand for a type.

If the variable's chain ends at a type that is no variable, then the chain of the requested type
has to end there too. If it ends at an unbound variable, the request holds when both chains end
at that variable, except when the unbound variable itself is requested; otherwise the variable
must not be seen in the requested type. -/
def judge (table : Table) (graph : Graph) (subject : Variable) (ty : Ty) : Verdict :=
  let replacement := table.walk ty
  match table.walk (.var subject) with
  | .var key =>
      if replacement = .var key ∧ key ≠ subject then .holds
      else if table.seesIn graph key replacement then .refuses (.cyclic key ty)
      else .records key ty
  | bound =>
      if bound = replacement then .holds
      else .refuses (.inconsistent subject bound ty)

/-- The table after a judgement, unless the request is refused; then the caller keeps the table. -/
def accept (table : Table) : Verdict → Except BindError Table
  | .records key ty => .ok (table.insert key ty)
  | .holds => .ok table
  | .refuses error => .error error

/-- Make a variable stand for a type. An error stands for the table as it was. -/
def bind (table : Table) (graph : Graph) (subject : Variable) (ty : Ty) :
    Except BindError Table :=
  table.accept (table.judge graph subject ty)

end Table

end Inference
