/-!
# Doubles taken apart

A finite double is a whole number times a power of two. `Binary64.ofFloat` reads the sign, that
number and that power off the bits; `Binary64.ofInt64` and `Binary64.nearest` go the other way and
round a word or a quotient of whole numbers to the nearest double, a tie going to the even neighbour.
-/

namespace DegreeScore

/-- What the bits of a double stand for. -/
inductive Binary64
  | nan
  | infinite (negative : Bool)
  /-- The value `significand * 2 ^ power`, negated if `negative`. -/
  | finite (negative : Bool) (significand : Nat) (power : Int)
deriving Repr, DecidableEq

namespace Binary64

/-- The leading bit of a significand, the fifty-third, which the bits of a double leave out. -/
def hidden : Nat := 0x10000000000000

/-- Reads the fields of a double. -/
def ofFloat (x : Float) : Binary64 :=
  let bits := x.toBits.toNat
  let negative := 0x8000000000000000 ≤ bits
  let exponent : Nat := (bits >>> 52) % 0x800
  let fraction := bits % hidden
  if exponent = 2047 then
    if fraction = 0 then .infinite negative else .nan
  else if exponent = 0 then .finite negative fraction (-1074)
  else .finite negative (hidden + fraction) ((exponent : Int) - 1075)

/-- The nearest double to a word. -/
def ofInt64 (n : Int64) : Float :=
  if n < 0 then -(-n).toUInt64.toFloat else n.toUInt64.toFloat

/-- Whether the double is a number. -/
def isFinite (x : Float) : Bool :=
  match ofFloat x with
  | .finite .. => true
  | _ => false

/-- The quotient rounded to the nearest whole number, a tie going to the even one. -/
def roundDiv (num den : Nat) : Nat :=
  let q := num / den
  let r := num % den
  if 2 * r < den then q
  else if den < 2 * r then q + 1
  else q + q % 2

/-- The double with the given sign whose magnitude has these bits. -/
def assemble (negative : Bool) (bits : Nat) : Float :=
  Float.ofBits (UInt64.ofNat (if negative then 0x8000000000000000 + bits else bits))

/-- Not a number. -/
def nanValue : Float := Float.ofBits 0x7ff8000000000001

/-- The infinities. -/
def infinity (negative : Bool) : Float := assemble negative 0x7ff0000000000000

/-- The nearest double to `num / den`, both positive; `none` when that is beyond the largest one.
The power of two leaves the rounded quotient 53 bits, or fewer at the bottom of the range. A quotient
that rounds up to 54 bits carries into the exponent field by itself. -/
def nearest (negative : Bool) (num den : Nat) : Option Float :=
  let estimate : Int := num.log2 - den.log2
  let least (e : Int) : Bool :=
    if 0 ≤ e then den <<< e.toNat ≤ num else den ≤ num <<< (-e).toNat
  let top : Int := if least estimate then estimate else estimate - 1
  let power : Int := if top - 52 < -1074 then -1074 else top - 52
  let q := if 0 ≤ power then roundDiv num (den <<< power.toNat)
    else roundDiv (num <<< (-power).toNat) den
  let bits := if q < hidden then q else (power + 1074).toNat * hidden + q
  if bits < 0x7ff0000000000000 then some (assemble negative bits) else none

end Binary64

end DegreeScore
