/-!
# Sums and minima of words

Totals are kept in an unsigned 64-bit word, in which negative terms wrap round.
-/

namespace DegreeScore.Word

/-- The sum of signed words. -/
def total (ns : List Int64) : UInt64 := ns.foldl (fun sum n => sum + n.toUInt64) 0

/-- The smaller of two signed words. -/
def smaller (a b : Int64) : Int64 := if b < a then b else a

end DegreeScore.Word
