import DegreeScore.Text.CodeRange

/-!
# White space

`isSpace` decides whether a character is white space.
Beyond ASCII it consults the code points with the property White_Space.
-/

namespace DegreeScore.Text

/-- Beyond ASCII: the code points with the property White_Space. -/
def spaceRanges : List CodeRange := [
  ⟨0x85, 0x85⟩, ⟨0xa0, 0xa0⟩, ⟨0x1680, 0x1680⟩, ⟨0x2000, 0x200a⟩, ⟨0x2028, 0x2029⟩,
  ⟨0x202f, 0x202f⟩, ⟨0x205f, 0x205f⟩, ⟨0x3000, 0x3000⟩]

/-- Whether `c` is white space. -/
def isSpace (c : Char) : Bool :=
  if c.toNat < 128 then c = ' ' ∨ ('\t' ≤ c ∧ c ≤ '\r') else CodeRange.mem spaceRanges c.toNat

end DegreeScore.Text
