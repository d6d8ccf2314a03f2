import DegreeScore.Decimal.Shortest

/-!
# JSON values

Values as requests and answers carry them. A number is kept as its numeral, so that reading never
rounds; a double is written with the fewest digits that read back, and one that is no number has no
numeral.
-/

namespace DegreeScore.Json

/-- A JSON value. The fields of an object stand in order. -/
inductive Value
  | null
  | bool (b : Bool)
  | number (numeral : String)
  | text (s : String)
  | array (items : List Value)
  | object (fields : List (String × Value))
deriving Repr

/-- The digits and power of ten of a positive decimal as a numeral. From a millionth up to `10 ^ 21` it
is written out, otherwise with an exponent. -/
def magnitude (s : Decimal.Scientific) : String :=
  let digits := (toString s.digits).toList
  let top : Int := s.exponent + digits.length - 1
  let zeros (n : Int) : List Char := List.replicate n.toNat '0'
  if -6 ≤ top ∧ top < 21 then
    if 0 ≤ s.exponent then String.ofList (digits ++ zeros s.exponent)
    else if 0 ≤ top then
      String.ofList (digits.take (top + 1).toNat ++ '.' :: digits.drop (top + 1).toNat)
    else String.ofList ('0' :: '.' :: zeros (-top - 1) ++ digits)
  else
    let fraction := match digits.drop 1 with
      | [] => []
      | rest => '.' :: rest
    String.ofList (digits.take 1 ++ fraction) ++ "e" ++ (if 0 ≤ top then "+" else "") ++ toString top

/-- A double that has no numeral. -/
inductive NoNumeral
  | nan
  | infinite (negative : Bool)
deriving Repr, DecidableEq

/-- The text shown for a double that has no numeral. -/
def NoNumeral.message : NoNumeral → String
  | .nan => "json: unsupported value: NaN"
  | .infinite negative => "json: unsupported value: " ++ (if negative then "-Inf" else "+Inf")

/-- The numeral of a double. -/
def numeral (x : Float) : Except NoNumeral String :=
  match Binary64.ofFloat x with
  | .nan => .error .nan
  | .infinite negative => .error (.infinite negative)
  | .finite negative significand power =>
    let body := if significand = 0 then "0" else magnitude (Decimal.shortest significand power)
    .ok ((if negative then "-" else "") ++ body)

namespace Value

/-- A double. -/
def ofFloat (x : Float) : Except NoNumeral Value := (numeral x).map number

/-- A whole number. -/
def ofNat (n : Nat) : Value := number (toString n)

end Value

end DegreeScore.Json
