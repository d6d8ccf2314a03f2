import DegreeScore.Text.Hex
import DegreeScore.Text.Numeral

/-!
# Numerals with a base

Whole numbers on the command line may name their base: `0x`, `0o` and `0b` do, and a bare `0` in front
means octal. Underscores may separate digits. Digits are read from the left, and the first thing wrong
decides the fault.
-/

namespace DegreeScore.Text.BasedNumeral

open Numeral (Fault)

/-- The value of a digit, with letters for those above nine. -/
def digit? (b : UInt8) : Option Nat :=
  if Numeral.isDigit b then some (b.toNat - 48)
  else
    let l := Numeral.lower b
    if 97 ≤ l ∧ l ≤ 122 then some (l.toNat - 87) else none

/-- Reads the digits left after a numeral worth `n`, which may not pass `most`. -/
def digitsFrom (base most n : Nat) : Bytes → Except Fault Nat
  | [] => .ok n
  | b :: rest =>
    if b = 95 then digitsFrom base most n rest
    else match digit? b with
      | none => .error .invalid
      | some d =>
        if base ≤ d then .error .invalid
        else if most < n * base + d then .error .outOfRange
        else digitsFrom base most (n * base + d) rest

/-- The base of a numeral and its digits. A mark of the base counts only if something follows it. -/
def split : Bytes → Nat × Bytes
  | 48 :: m :: d :: rest =>
    if Numeral.lower m = 98 then (2, d :: rest)
    else if Numeral.lower m = 111 then (8, d :: rest)
    else if Numeral.lower m = 120 then (16, d :: rest)
    else (8, m :: d :: rest)
  | 48 :: rest => (8, rest)
  | bs => (10, bs)

/-- Reads a number of at most `most`. -/
def nat (most : Nat) (bs : Bytes) : Except Fault Nat :=
  if bs = [] then .error .invalid
  else
    let (base, digits) := split bs
    match digitsFrom base most 0 digits with
    | .error fault => .error fault
    | .ok n =>
      if digits.contains 95 && !Numeral.underscoresSeparate bs then .error .invalid else .ok n

/-- Reads a number with at most one sign before it, which fits in a signed 64-bit word. -/
def int64 (bs : Bytes) : Except Fault Int :=
  match nat 0xffffffffffffffff (Numeral.unsigned bs) with
  | .error fault => .error fault
  | .ok n =>
    let value : Int := if bs.head? = some 45 then -n else n
    if Numeral.fits64 value then .ok value else .error .outOfRange

end DegreeScore.Text.BasedNumeral
