import DegreeScore.Text.Utf8

/-!
# Hexadecimal numerals

Bytes and words in base sixteen: two digits a byte, with or without blanks between bytes, and words
padded with zeros to a given width.
-/

namespace DegreeScore.Text.Hex

/-- Whether the digits above nine are written `a`–`f` or `A`–`F`. -/
inductive Case
  | lower
  | upper
deriving Repr, DecidableEq

/-- The digit for `n`, which is below sixteen. -/
def digit (case : Case) (n : Nat) : Char :=
  if n < 10 then Char.ofNat (48 + n)
  else match case with
    | .lower => Char.ofNat (87 + n)
    | .upper => Char.ofNat (55 + n)

/-- The two digits of a byte. -/
def byteDigits (case : Case) (b : UInt8) : List Char :=
  [digit case (b.toNat / 16), digit case (b.toNat % 16)]

/-- Two lower-case digits a byte, nothing between them. -/
def ofBytes (bs : Bytes) : String := String.ofList (bs.flatMap (byteDigits .lower))

/-- Two digits a byte, one blank between bytes. -/
def spaced (case : Case) (bs : Bytes) : String :=
  " ".intercalate (bs.map fun b => String.ofList (byteDigits case b))

/-- The lower-case numeral of `n` with at least `width` digits. -/
def padded (width n : Nat) : String :=
  let digits := Nat.toDigits 16 n
  String.ofList (List.replicate (width - digits.length) '0' ++ digits)

/-- The value of a digit. -/
def value? (c : UInt8) : Option Nat :=
  let n := c.toNat
  if 48 ≤ n ∧ n ≤ 57 then some (n - 48)
  else if 97 ≤ n ∧ n ≤ 102 then some (n - 87)
  else if 65 ≤ n ∧ n ≤ 70 then some (n - 55)
  else none

end DegreeScore.Text.Hex
