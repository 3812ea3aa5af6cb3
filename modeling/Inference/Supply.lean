import Inference.Ty

/-!
# Fresh variables

A supply hands out variables in the order of their numbers and never hands one
out twice.
-/

namespace Inference

/-- The variables that are not handed out yet: those from a number on. -/
structure Supply where
  next : Nat := 0
  deriving DecidableEq, Inhabited

namespace Supply

/-- Hand out one variable. -/
def fresh (supply : Supply) : Variable × Supply := (⟨supply.next⟩, ⟨supply.next + 1⟩)

/-- Hand out several variables. -/
def freshList (supply : Supply) : Nat → List Variable × Supply
  | 0 => ([], supply)
  | count + 1 =>
      let (subject, rest) := supply.fresh
      let (subjects, rest) := rest.freshList count
      (subject :: subjects, rest)

end Supply

end Inference
