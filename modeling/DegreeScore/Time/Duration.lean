import DegreeScore.Text.Hex
import DegreeScore.Text.Numeral

/-!
# Durations in words

A duration is a sequence of decimals, each with a unit: `1h30m`, `2.5s`, `-300ms`. It is counted in
nanoseconds and must fit in a signed 64-bit word.
-/

namespace DegreeScore.Duration

/-- Why a text is not a duration. -/
inductive Fault
  | invalid
  | noUnit
  | unknownUnit (unit : Bytes)
deriving Repr, DecidableEq

/-- The units and the nanoseconds in each. -/
def units : List (String × UInt64) :=
  [("ns", 1), ("us", 1000), ("µs", 1000), ("μs", 1000), ("ms", 1000000), ("s", 1000000000),
    ("m", 60000000000), ("h", 3600000000000)]

/-- The nanoseconds in a unit. -/
def unit? (name : Bytes) : Option UInt64 :=
  (units.find? fun u => Bytes.ofString u.1 = name).map (·.2)

/-- The size of the least 64-bit number. -/
def limit : Nat := 0x8000000000000000

/-- Whether a byte belongs to a number. -/
def isNumeric (b : UInt8) : Bool := b = 46 || Text.Numeral.isDigit b

/-- Digits after a point: the value of those that count, and the power of ten that stands for one.
Digits count as long as the value stays within the range. -/
structure Fraction where
  value : Nat := 0
  scale : Float := 1
  full : Bool := false
deriving Repr

/-- Reads the next digit after the point. -/
def Fraction.push (f : Fraction) (b : UInt8) : Fraction :=
  let next := f.value * 10 + (b.toNat - 48)
  if f.full then f
  else if (limit - 1) / 10 < f.value ∨ limit < next then { f with full := true }
  else { f with value := next, scale := f.scale * 10 }

/-- The nanoseconds of one decimal with its unit. -/
def term (whole : Nat) (fraction : Fraction) (unit : UInt64) : Except Fault UInt64 :=
  if limit / unit.toNat < whole then .error .invalid
  else
    let rest : Float := fraction.value.toFloat * (unit.toFloat / fraction.scale)
    let n := UInt64.ofNat whole * unit + (if 0 < fraction.value then rest.toUInt64 else 0)
    if limit < n.toNat then .error .invalid else .ok n

/-- One decimal with its unit as it is written, and what follows. -/
structure Reading where
  whole : Bytes
  fraction : Bytes
  unit : Bytes
  rest : Bytes
deriving Repr

/-- Splits a point and the digits after it off. -/
def splitFraction : Bytes → Bytes × Bytes
  | 46 :: rest => (rest.takeWhile Text.Numeral.isDigit, rest.dropWhile Text.Numeral.isDigit)
  | bs => ([], bs)

/-- Splits the first decimal and its unit off. -/
def Reading.split (bs : Bytes) : Reading :=
  let f := splitFraction (bs.dropWhile Text.Numeral.isDigit)
  { whole := bs.takeWhile Text.Numeral.isDigit
    fraction := f.1
    unit := f.2.takeWhile (!isNumeric ·)
    rest := f.2.dropWhile (!isNumeric ·) }

theorem length_dropWhile_le (p : UInt8 → Bool) (bs : Bytes) : (bs.dropWhile p).length ≤ bs.length := by
  have h := congrArg List.length (List.takeWhile_append_dropWhile (p := p) (l := bs))
  rw [List.length_append] at h
  omega

theorem length_dropWhile_lt {p : UInt8 → Bool} {bs : Bytes} (h : bs.takeWhile p ≠ []) :
    (bs.dropWhile p).length < bs.length := by
  have hs := congrArg List.length (List.takeWhile_append_dropWhile (p := p) (l := bs))
  rw [List.length_append] at hs
  have := List.length_pos_iff.mpr h
  omega

theorem length_splitFraction_le (bs : Bytes) : (splitFraction bs).2.length ≤ bs.length := by
  unfold splitFraction
  split
  · next rest =>
    have := length_dropWhile_le Text.Numeral.isDigit rest
    simp only [List.length_cons]
    omega
  · exact Nat.le_refl _

/-- A unit takes up room, so what follows it is shorter. -/
theorem Reading.length_rest_lt {bs : Bytes} (h : (Reading.split bs).unit ≠ []) :
    (Reading.split bs).rest.length < bs.length :=
  calc (Reading.split bs).rest.length
      < (splitFraction (bs.dropWhile Text.Numeral.isDigit)).2.length := length_dropWhile_lt h
    _ ≤ (bs.dropWhile Text.Numeral.isDigit).length := length_splitFraction_le _
    _ ≤ bs.length := length_dropWhile_le _ _

/-- Adds up the decimals that are left. -/
def sumFrom (total : UInt64) (bs : Bytes) : Except Fault UInt64 :=
  if bs = [] then .ok total
  else
    let r := Reading.split bs
    if r.whole = [] ∧ r.fraction = [] then .error .invalid
    else if limit < Text.Numeral.valueUpTo limit r.whole then .error .invalid
    else if _unit : r.unit = [] then .error .noUnit
    else match unit? r.unit with
      | none => .error (.unknownUnit r.unit)
      | some unit =>
        let whole := Text.Numeral.valueUpTo limit r.whole
        match term whole (r.fraction.foldl Fraction.push {}) unit with
        | .error fault => .error fault
        | .ok n =>
          if limit < (total + n).toNat then .error .invalid else sumFrom (total + n) r.rest
termination_by bs.length
decreasing_by exact Reading.length_rest_lt _unit

/-- Reads a duration in nanoseconds. -/
def read (bs : Bytes) : Except Fault Int :=
  let negative := bs.head? = some 45
  let body := Text.Numeral.unsigned bs
  if body = [48] then .ok 0
  else if body = [] then .error .invalid
  else match sumFrom 0 body with
    | .error fault => .error fault
    | .ok n =>
      if negative then .ok (-(n.toNat : Int))
      else if limit ≤ n.toNat then .error .invalid
      else .ok n.toNat

/-- A byte inside the quotes of a message. -/
def quotedByte (b : UInt8) : String :=
  if b = 34 ∨ b = 92 then String.ofList ['\\', Char.ofNat b.toNat]
  else if b < 32 ∨ 128 ≤ b then "\\x" ++ Text.Hex.padded 2 b.toNat
  else String.ofList [Char.ofNat b.toNat]

/-- A text in double quotes with every byte that is not plain ASCII in hexadecimal. -/
def quoted (bs : Bytes) : String := "\"" ++ String.join (bs.map quotedByte) ++ "\""

/-- The text shown for a bad duration. -/
def Fault.message (bs : Bytes) : Fault → String
  | .invalid => "time: invalid duration " ++ quoted bs
  | .noUnit => "time: missing unit in duration " ++ quoted bs
  | .unknownUnit unit => "time: unknown unit " ++ quoted unit ++ " in duration " ++ quoted bs

end DegreeScore.Duration
