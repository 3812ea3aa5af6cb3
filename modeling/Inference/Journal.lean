import Inference.Bind

/-!
# The journal

The journal tells what was done to tables. A request that records a binding and
a request that is refused leave one entry each, and a request that already holds
leaves none.
-/

namespace Inference

/-- How much an entry matters. -/
inductive Level where
  | trace
  | debug
  deriving DecidableEq

/-- The name of the level. -/
def Level.name : Level → String
  | trace => "TRACE"
  | debug => "DEBUG"

/-- One entry of the journal. The entry for a reified table has the number of its bindings and
of the tuples that were visited. -/
inductive Entry where
  | recorded (key : Variable) (ty : Ty)
  | refused (error : BindError)
  | reified (bindings tuples : Nat)
  deriving DecidableEq

namespace Entry

/-- Refusals matter more than progress. -/
def level : Entry → Level
  | recorded _ _ => .trace
  | refused _ => .debug
  | reified _ _ => .trace

/-- What the entry says. -/
def text : Entry → String
  | recorded key ty => s!"binding {key.describe} to {ty.describe}"
  | refused (.inconsistent subject bound requested) =>
      s!"rejected binding {subject.describe} to {requested.describe}: " ++
        s!"already bound to {bound.describe}"
  | refused (.cyclic subject replacement) =>
      s!"rejected binding {subject.describe} to {replacement.describe}: occurs check"
  | reified bindings tuples => s!"reified {bindings} bindings through {tuples} tuples"

/-- The entry as a line of the journal. -/
def line (entry : Entry) : String := s!"{entry.level.name} {entry.text}"

end Entry

/-- The entries that a judgement leaves. -/
def Verdict.entries : Verdict → List Entry
  | records key ty => [.recorded key ty]
  | holds => []
  | refuses error => [.refused error]

/-- Make a variable stand for a type, with the entries that this leaves in the journal. -/
def Table.bindLogged (table : Table) (graph : Graph) (subject : Variable) (ty : Ty) :
    Except BindError Table × List Entry :=
  let verdict := table.judge graph subject ty
  (table.accept verdict, verdict.entries)

/-- Keeping a journal does not change what becomes of a request. -/
@[simp]
theorem Table.bindLogged_fst (table : Table) (graph : Graph) (subject : Variable) (ty : Ty) :
    (table.bindLogged graph subject ty).1 = table.bind graph subject ty := rfl

end Inference
