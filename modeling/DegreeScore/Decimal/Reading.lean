import DegreeScore.Decimal.Binary64
import DegreeScore.Decimal.Digits
import DegreeScore.Text.Hex
import DegreeScore.Text.Numeral

/-!
# Reading doubles

A double is written in decimal, with an optional exponent after `e`, or in hexadecimal after `0x`,
with a binary exponent after `p` that must be there; underscores may separate digits. `inf`,
`infinity` and `nan` are read in any case. The value is the nearest double. A number beyond the
largest double is out of range, one that is too small becomes zero.
-/

namespace DegreeScore.Decimal

open Text.Numeral (Fault)

namespace Reading

/-- The digits read so far. -/
structure Mantissa where
  /-- The last digit first. -/
  digits : List Nat := []
  /-- The number of digits after the point. -/
  places : Nat := 0
  point : Bool := false
deriving Repr

/-- Reads digits, at most one point and underscores, and returns what follows. -/
def mantissa (hex : Bool) (m : Mantissa) : Bytes → Mantissa × Bytes
  | [] => (m, [])
  | b :: rest =>
    if b = 95 then mantissa hex m rest
    else if b = 46 then
      if m.point then (m, b :: rest) else mantissa hex { m with point := true } rest
    else if Text.Numeral.isDigitOf hex b then
      mantissa hex
        { m with
          digits := (Text.Hex.value? b).getD 0 :: m.digits
          places := if m.point then m.places + 1 else m.places } rest
    else (m, b :: rest)

/-- The digits of an exponent. From ten thousand on its size no longer matters. -/
def exponentValue (n : Nat) : Bytes → Nat × Bytes
  | [] => (n, [])
  | b :: rest =>
    if b = 95 then exponentValue n rest
    else if Text.Numeral.isDigit b then
      exponentValue (if n < 10000 then n * 10 + (b.toNat - 48) else n) rest
    else (n, b :: rest)

/-- The exponent after its letter: an optional sign and digits, the first of which is one. -/
def exponent? (bs : Bytes) : Option (Int × Bytes) :=
  let body := Text.Numeral.unsigned bs
  match body with
  | b :: _ =>
    if Text.Numeral.isDigit b then
      let (n, rest) := exponentValue 0 body
      some (if bs.head? = some 45 then -(n : Int) else n, rest)
    else none
  | [] => none

/-- The nearest double to `value * base ^ power`. -/
def scaled (negative : Bool) (value base : Nat) (power : Int) : Except Fault Float :=
  if value = 0 then .ok (Binary64.assemble negative 0)
  else
    let nearest := if 0 ≤ power then Binary64.nearest negative (value * base.pow power.toNat) 1
      else Binary64.nearest negative value (base.pow (-power).toNat)
    match nearest with
    | some x => .ok x
    | none => .error .outOfRange

/-- A number without its sign. -/
def magnitude (negative hex : Bool) (bs : Bytes) : Except Fault Float :=
  let (m, rest) := mantissa hex {} bs
  if m.digits.isEmpty then .error .invalid
  else
    match rest with
    | [] =>
      if hex then .error .invalid
      else scaled negative (Digits.value 10 m.digits) 10 (-(m.places : Int))
    | b :: rest =>
      if Text.Numeral.lower b ≠ (if hex then 112 else 101) then .error .invalid
      else match exponent? rest with
        | some (e, []) =>
          if hex then scaled negative (Digits.value 16 m.digits) 2 (e - 4 * m.places)
          else scaled negative (Digits.value 10 m.digits) 10 (e - m.places)
        | _ => .error .invalid

/-- The number that a word in any case stands for. -/
def word? (negative signed : Bool) (bs : Bytes) : Option Float :=
  let w := bs.map Text.Numeral.lower
  if w = Bytes.ofString "inf" ∨ w = Bytes.ofString "infinity" then
    some (Binary64.infinity negative)
  else if w = Bytes.ofString "nan" ∧ !signed then some Binary64.nanValue
  else none

end Reading

/-- Reads a double. -/
def read (bs : Bytes) : Except Fault Float :=
  let negative := bs.head? = some 45
  let body := Text.Numeral.unsigned bs
  match Reading.word? negative (body.length ≠ bs.length) body with
  | some x => .ok x
  | none =>
    if bs.contains 95 && !Text.Numeral.underscoresSeparate bs then .error .invalid
    else match body with
      | 48 :: x :: b :: rest =>
        if Text.Numeral.lower x = 120 then Reading.magnitude negative true (b :: rest)
        else Reading.magnitude negative false body
      | _ => Reading.magnitude negative false body

end DegreeScore.Decimal
