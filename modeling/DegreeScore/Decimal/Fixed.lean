import DegreeScore.Decimal.Binary64
import DegreeScore.Text.Numeral

/-!
# Fixed-point decimals

A double written with a fixed number of places. The digits are those of the exact value, rounded to
the nearest and on a tie to the even last digit; a negative sign stays even if only zeros remain.
-/

namespace DegreeScore.Decimal

/-- The whole number `n` read as hundredths, thousandths or the like, with a point. -/
def withPoint (places n : Nat) : String :=
  toString (n / Nat.pow 10 places) ++ "." ++
    Text.Numeral.alignRight places '0' (toString (n % Nat.pow 10 places))

/-- `x` with the given number of places, at least one. -/
def fixed (places : Nat) (x : Float) : String :=
  match Binary64.ofFloat x with
  | .nan => "NaN"
  | .infinite negative => if negative then "-Inf" else "+Inf"
  | .finite negative m q =>
    let scaled := m * Nat.pow 10 places
    let n := if 0 ≤ q then scaled <<< q.toNat else Binary64.roundDiv scaled (1 <<< (-q).toNat)
    (if negative then "-" else "") ++ withPoint places n

end DegreeScore.Decimal
