import Inference.Bindings
import Inference.Description

/-!
# Substitution tables

A substitution table says which types the variables of an inference problem
stand for. A variable may be bound to another variable, so what it stands for is
at the end of a chain of bindings, which `walk` follows.

Two tables are equal when they bind the same variables to the same types, and
equivalent when no variable that both of them bind tells them apart. How a table
searches a new binding for its own variable is not part of either comparison.
-/

namespace Inference

/-- How thoroughly a table searches a new binding for the variable being bound. -/
inductive OccursCheck where
  | eager
  | shallow
  deriving DecidableEq

/-- The name of the policy. -/
def OccursCheck.name : OccursCheck → String
  | eager => "Eager"
  | shallow => "Shallow"

/-- The types that variables are bound to, and the policy for new bindings. -/
structure Table where
  bindings : Bindings := ∅
  policy : OccursCheck := .eager
  deriving DecidableEq, Inhabited

/-- A hash of the variable that depends on every bit of its number, so that different sets of
variables hardly ever have hashes with the same sum. -/
def Variable.scatter (subject : Variable) : UInt64 :=
  let spread := subject.id.toUInt64 + 0x9e3779b97f4a7c15
  let once := (spread ^^^ (spread >>> 30)) * 0xbf58476d1ce4e5b9
  let twice := (once ^^^ (once >>> 27)) * 0x94d049bb133111eb
  twice ^^^ (twice >>> 31)

namespace Table

/-- A table without bindings that checks new ones as the policy says. -/
def withPolicy (policy : OccursCheck) : Table := { policy }

/-- The number of bound variables. -/
def size (table : Table) : Nat := table.bindings.size

/-- Whether no variable is bound. -/
def isEmpty (table : Table) : Bool := table.bindings.isEmpty

/-- The type that a variable is bound to directly. -/
def get? (table : Table) (subject : Variable) : Option Ty := table.bindings.get? subject

/-- The bindings in increasing order of the variables. -/
def entries (table : Table) : List (Variable × Ty) := table.bindings.entries

/-- Record one binding. -/
def insert (table : Table) (subject : Variable) (ty : Ty) : Table :=
  { table with bindings := table.bindings.insert subject ty }

theorem get?_insert (table : Table) (subject other : Variable) (ty : Ty) :
    (table.insert subject ty).get? other =
      if other = subject then some ty else table.get? other :=
  Bindings.get?_insert table.bindings subject other ty

/-! ## Construction -/

/-- The eager table with these bindings. -/
def ofBindings (bindings : Bindings) : Table := { bindings }

/-- The eager table of a list of bindings; the last one for a variable counts. -/
def ofList (listed : List (Variable × Ty)) : Table := ofBindings (.ofList listed)

/-- What is wrong with a table that is written out. -/
inductive LiteralError where
  | boundTwice (subject : Variable)
  deriving DecidableEq

/-- What an error tells the user. -/
def LiteralError.message : LiteralError → String
  | boundTwice subject => s!"the variable {subject.describe} is bound more than once"

/-- The eager table of a list of bindings for distinct variables. -/
def ofLiteral (listed : List (Variable × Ty)) : Except LiteralError Table :=
  match Bindings.ofDistinct listed with
  | .ok bindings => .ok (ofBindings bindings)
  | .error subject => .error (.boundTwice subject)

/-! ## Chains of variables -/

/-- Follow at most this many bindings from a type on, as long as it is a bound variable. -/
def follow (table : Table) : Nat → Ty → Ty
  | steps + 1, .var subject =>
      match table.get? subject with
      | some bound => table.follow steps bound
      | none => .var subject
  | _, ty => ty

/-- The end of the chain of bindings that starts at a type: the first type of the chain that is
no variable, or its last variable if that one is unbound. A chain that does not return to itself
follows no binding twice, so there are enough steps for as many bindings as the table has. -/
def walk (table : Table) (ty : Ty) : Ty := table.follow table.size ty

/-! ## Comparison -/

/-- Tables count as the same if their bindings are equal, whatever their policies. -/
instance : BEq Table := ⟨fun left right => left.bindings = right.bindings⟩

/-- Whether the tables agree on every variable that both of them bind. It is enough to go
through the bindings of the smaller table. -/
def isEquivalent (left right : Table) : Bool :=
  let (smaller, larger) := if left.size ≤ right.size then (left, right) else (right, left)
  smaller.entries.all fun (subject, ty) => (larger.get? subject).all (· = ty)

/-- What a table hashes to, given the hash of a variable: the number of the bound variables and
the sum of their hashes. -/
def fingerprintWith (hash : Variable → UInt64) (table : Table) : Nat × UInt64 :=
  (table.size, (table.bindings.keys.map hash).foldr (· + ·) 0)

/-- What a table hashes to. -/
def fingerprint (table : Table) : Nat × UInt64 := table.fingerprintWith Variable.scatter

end Table

end Inference
