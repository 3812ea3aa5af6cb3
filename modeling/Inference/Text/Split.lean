/-!
# Splitting text

A separator character cuts a text into pieces, one more than the separators it
has. The pieces hold no separator, and a piece between two adjacent separators is
empty.
-/

namespace Inference.Text

/-- The pieces of a text between its separators. -/
def split (separator : Char) : List Char → List (List Char)
  | [] => [[]]
  | char :: chars =>
      if char = separator then [] :: split separator chars
      else
        match split separator chars with
        | [] => [[char]]
        | piece :: pieces => (char :: piece) :: pieces

end Inference.Text
