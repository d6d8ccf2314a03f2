/-!
# Sets of code points

A character class is given by an ascending list of code point ranges. `CodeRange.mem` looks a code
point up and stops at the first range that lies above it.
-/

namespace DegreeScore.Text

/-- The code points from `first` to `last`, both included. -/
structure CodeRange where
  first : Nat
  last : Nat
deriving Repr, DecidableEq

namespace CodeRange

/-- Whether `n` lies in one of the ranges, which stand in ascending order. -/
def mem : List CodeRange → Nat → Bool
  | [], _ => false
  | r :: rest, n => if n < r.first then false else if n ≤ r.last then true else mem rest n

end CodeRange

end DegreeScore.Text
