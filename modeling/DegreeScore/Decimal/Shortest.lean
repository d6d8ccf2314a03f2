import DegreeScore.Decimal.Binary64

/-!
# Shortest decimals

The decimal with the fewest digits that reads back as a given double, and of those the nearest one.
A double stands for all reals that round to it; a decimal reads back as the double exactly when it
lies in that interval, whose ends belong to it when the significand is even.
-/

namespace DegreeScore.Decimal

/-- The decimal `digits * 10 ^ exponent`. -/
structure Scientific where
  digits : Nat
  exponent : Int
deriving Repr, DecidableEq

namespace Shortest

/-- The reals that round to one double, in units of `num / den`: from `low` to `high`, around
`value`. -/
structure Interval where
  low : Nat
  value : Nat
  high : Nat
  closed : Bool
  /-- One unit is `num / den`. -/
  num : Nat
  den : Nat
deriving Repr

/-- The interval of `significand * 2 ^ power`, in quarters of the last place. Just below a power of
two the neighbour is only half as far away. -/
def interval (significand : Nat) (power : Int) : Interval :=
  let quarter := power - 2
  { low := 4 * significand - (if significand = Binary64.hidden ∧ -1074 < power then 1 else 2)
    value := 4 * significand
    high := 4 * significand + 2
    closed := significand % 2 = 0
    num := if 0 ≤ quarter then 1 <<< quarter.toNat else 1
    den := if 0 ≤ quarter then 1 else 1 <<< (-quarter).toNat }

/-- `n * 10 ^ e` and `m` units over one denominator. -/
def Interval.scale (i : Interval) (e : Int) (n m : Nat) : Nat × Nat :=
  if 0 ≤ e then (n * Nat.pow 10 e.toNat * i.den, m * i.num)
  else (n * i.den, m * i.num * Nat.pow 10 (-e).toNat)

/-- Whether `n * 10 ^ e` lies in the interval. -/
def Interval.contains (i : Interval) (e : Int) (n : Nat) : Bool :=
  let (x, low) := i.scale e n i.low
  let (_, high) := i.scale e n i.high
  if i.closed then low ≤ x && x ≤ high else low < x && x < high

/-- The largest `n` for which `n * 10 ^ e` is at most the value. -/
def Interval.below (i : Interval) (e : Int) : Nat :=
  let (unit, value) := i.scale e 1 i.value
  value / unit

/-- Whether `(n + 1) * 10 ^ e` is nearer to the value than `n * 10 ^ e`, or as near and even. -/
def Interval.upper (i : Interval) (e : Int) (n : Nat) : Bool :=
  let (sum, twice) := i.scale e (2 * n + 1) (2 * i.value)
  sum < twice || (sum = twice && n % 2 = 1)

/-- The neighbour of the value on the grid of multiples of `10 ^ e` that lies in the interval and is
nearer. -/
def Interval.hit? (i : Interval) (e : Int) : Option Nat :=
  let n := i.below e
  match i.contains e n && n ≠ 0, i.contains e (n + 1) with
  | true, true => some (if i.upper e n then n + 1 else n)
  | true, false => some n
  | false, true => some (n + 1)
  | false, false => none

/-- The first hit on ever finer grids, beginning with multiples of `10 ^ e`. -/
def search (i : Interval) : Nat → Int → Scientific
  | 0, e => ⟨i.below e, e⟩
  | tries + 1, e =>
    match i.hit? e with
    | some n => ⟨n, e⟩
    | none => search i tries (e - 1)

/-- Strips the zeros at the end of the digits. -/
def strip : Nat → Scientific → Scientific
  | 0, s => s
  | tries + 1, s =>
    if s.digits ≠ 0 ∧ s.digits % 10 = 0 then strip tries ⟨s.digits / 10, s.exponent + 1⟩ else s

end Shortest

/-- The shortest decimal for `significand * 2 ^ power`, which is positive. The search starts on a
grid whose step is above the value and has at most nineteen grids to try. -/
def shortest (significand : Nat) (power : Int) : Scientific :=
  let magnitude : Int := significand.log2 + power
  let start := (magnitude + 1) * 30103 / 100000 + 1
  Shortest.strip 400 (Shortest.search (Shortest.interval significand power) 20 start)

end DegreeScore.Decimal
