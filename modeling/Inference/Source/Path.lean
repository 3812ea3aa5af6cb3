import Inference.Text.Quoted
import Inference.Text.Split

/-!
# Paths

A path keeps the text it was written as, and is compared by the places it goes
through. Separators that repeat or stand at the end go nowhere, and so does a
single dot, unless the path starts with it. Two dots are a place of their own,
because where they lead depends on links.
-/

namespace Inference.Source

/-- A path, as it was written. -/
structure Path where
  text : String

namespace Path

/-- The pieces of a path between its separators. -/
def pieces (path : Path) : List String :=
  (Text.split '/' path.text.toList).map String.ofList

/-- Whether the path starts at the root. -/
def isAbsolute (path : Path) : Bool := path.text.toList.head? = some '/'

/-- The places that a path goes through, from the root or from the directory it is used in. -/
def places (path : Path) : List String :=
  let goesOn := fun (piece : String) => piece ≠ "" ∧ piece ≠ "."
  match path.pieces with
  | "." :: rest => "." :: rest.filter goesOn
  | pieces => pieces.filter goesOn

/-- Paths are equal if they start at the same place and go through the same places. -/
instance : BEq Path :=
  ⟨fun left right => left.isAbsolute == right.isAbsolute && left.places == right.places⟩

/-- The path as it was written, between double quotes. -/
def describe (path : Path) : String := Text.quote path.text

end Path

end Inference.Source
