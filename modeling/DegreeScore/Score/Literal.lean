import DegreeScore.Score.Diagnostic

/-!
# Values of tokens

What numbers and durations stand for, and the bounds they have to keep.
-/

namespace DegreeScore.Literal

/-- The slash between the terms of a duration. -/
def slash : UInt8 := 47

/-- A term of a duration; a missing one is one. Terms fit in 31 bits. -/
def term? (digits : Bytes) : Option Nat :=
  if digits.isEmpty then some 1 else Text.Numeral.nat? 0x7fffffff digits

/-- The fraction that `_n/d` stands for. -/
def duration (text : Bytes) : Except ScoreFault Ratio :=
  let body := text.drop 1
  let num := body.takeWhile (· ≠ slash)
  let den := (body.dropWhile (· ≠ slash)).drop 1
  match term? num, term? den with
  | some n, some d =>
    if n = 0 ∨ d = 0 then .error .durationPositive
    else .ok (Ratio.reduce (Int64.ofNat n) (Int64.ofNat d))
  | _, _ => .error .durationRange

/-- A whole number from `-bound` to `bound`. -/
def bounded? (bound : Nat) (text : Bytes) : Option Int64 :=
  (Text.Numeral.int? bound text).map Int64.ofInt

/-- The key after the word `key`: sharps up to seven, flats down to minus seven. -/
def key (text : Bytes) : Except ScoreFault Int64 :=
  match bounded? 7 text with
  | some k => .ok k
  | none => .error .keyRange

/-- The semitones that signs after a degree stand for. -/
def accidental (signs : Bytes) : Int64 :=
  let n := Int64.ofNat signs.length
  if signs.head? = some 45 then -n else n

/-- The degree and accidental of a number with signs after it. -/
def degree (text : Bytes) : Except ScoreFault (Int64 × Int64) :=
  let body := withoutSigns text
  match bounded? 100 body with
  | some d => .ok (d, accidental (text.drop body.length))
  | none => .error .degreeRange

/-- A whole number of the metadata block, which fits in 64 bits. -/
def integer (text : Bytes) : Except ScoreFault Int64 :=
  match Text.Numeral.int64? text with
  | some n => .ok n
  | none => .error .integerRange

end DegreeScore.Literal
