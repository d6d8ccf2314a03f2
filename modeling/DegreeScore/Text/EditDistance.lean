import DegreeScore.Text.Numeral

/-!
# Edit distance

The least number of bytes to put in, take out or replace that turns one text into another.
-/

namespace DegreeScore.Text

/-- The distances of all prefixes of a text after one more byte `a` of the other, from those before
it. `left` is the distance just found, `corner` the one before it in the old row. -/
def editRow (a : UInt8) (left corner : Nat) : Bytes → List Nat → List Nat
  | b :: bs, above :: row =>
    let d := if a = b then corner else min (min left above) corner + 1
    d :: editRow a d above bs row
  | _, _ => []

/-- The distances of all prefixes of `t`, from those of the row above. -/
def nextEditRow (t : Bytes) (row : List Nat) (a : UInt8) : List Nat :=
  match row with
  | [] => []
  | corner :: above => (corner + 1) :: editRow a (corner + 1) corner t above

/-- The edit distance. -/
def editDistance (s t : Bytes) : Nat :=
  (s.foldl (nextEditRow t) (List.range (t.length + 1))).getLastD 0

end DegreeScore.Text
