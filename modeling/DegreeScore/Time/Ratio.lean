import DegreeScore.Decimal.Binary64

/-!
# Exact times

A time or duration is a fraction of a whole note with 64-bit terms. Sums and products are exact or
refused: when a term leaves the 64-bit range the operation reports an `Overflow`. Comparison and
`floor` are exact for all terms; they use 64-bit products where these fit and whole numbers where
they do not.
-/

namespace DegreeScore

/-- The fraction `num / den`. Zero is `0 / 1`. -/
structure Ratio where
  num : Int64
  den : Int64
deriving Repr, DecidableEq

namespace Ratio

/-- Zero whole notes. -/
def zero : Ratio := ⟨0, 1⟩

instance : Inhabited Ratio := ⟨zero⟩

/-- The last divisor in Euclid's algorithm. The remainder takes the sign of the dividend and is
smaller than the divisor. -/
def euclid (a b : Int64) : Int64 :=
  if _h : b = 0 then a else euclid b (a % b)
termination_by b.toInt.natAbs
decreasing_by
  have hb : b.toInt ≠ 0 := fun e => _h (Int64.toInt_inj.1 (by simpa using e))
  rw [Int64.toInt_mod]
  have := Int.natAbs_tmod a.toInt b.toInt
  have := Nat.mod_lt a.toInt.natAbs (Int.natAbs_pos.2 hb)
  omega

/-- The magnitude of a word; the least word is its own. -/
def magnitude (a : Int64) : Int64 := if a < 0 then -a else a

/-- The greatest common divisor of two magnitudes. -/
def gcd (a b : Int64) : Int64 := euclid (magnitude a) (magnitude b)

/-- The product of two words if it fits in a word: dividing it by one factor gives the other back. -/
def mul? (a b : Int64) : Option Int64 :=
  if a = 0 ∨ b = 0 then some 0
  else
    let c := a * b
    if c / b ≠ a ∨ (a = -1 ∧ b = Int64.minValue) ∨ (b = -1 ∧ a = Int64.minValue) then none
    else some c

/-- `num / den` in lowest terms with the sign on the numerator, for `den` other than zero. -/
def reduce (num den : Int64) : Ratio :=
  if num = 0 then zero
  else
    let (num, den) := if den < 0 then (-num, -den) else (num, den)
    let g := gcd num den
    if 1 < g then ⟨num / g, den / g⟩ else ⟨num, den⟩

/-- `num / den` in lowest terms; there is no fraction over zero. -/
def make? (num den : Int64) : Option Ratio := if den = 0 then none else some (reduce num den)

/-- The complaint about a fraction over zero. -/
def zeroDenominator : String := "model: zero denominator"

/-- A time as text: numerator, slash, denominator. -/
def toText (r : Ratio) : String := toString r.num.toInt ++ "/" ++ toString r.den.toInt

/-- The operations that can leave the range. -/
inductive Operation
  | add
  | sub
  | mul
deriving Repr, DecidableEq

/-- The sign of an operation. -/
def Operation.sign : Operation → String
  | .add => "+"
  | .sub => "-"
  | .mul => "*"

/-- An operation whose result has no 64-bit terms. -/
structure Overflow where
  left : Ratio
  operation : Operation
  right : Ratio
deriving Repr, DecidableEq

/-- The text shown for an overflow. -/
def Overflow.message (o : Overflow) : String :=
  o.left.toText ++ " " ++ o.operation.sign ++ " " ++ o.right.toText ++ ": time value overflows"

/-- Whether adding `b` to `a` wrapped round to `sum`. -/
def wrapped (a b sum : Int64) : Bool := (0 < b && sum < a) || (b < 0 && a < sum)

/-- The sum over the least common denominator. -/
def add (r o : Ratio) : Except Overflow Ratio :=
  let g := gcd r.den o.den
  let rm := o.den / g
  let om := r.den / g
  match mul? r.den rm, mul? r.num rm, mul? o.num om with
  | some den, some a, some b =>
    if wrapped a b (a + b) then .error ⟨r, .add, o⟩ else .ok (reduce (a + b) den)
  | _, _, _ => .error ⟨r, .add, o⟩

/-- The difference: the sum with the negated fraction, where that exists. -/
def sub (r o : Ratio) : Except Overflow Ratio :=
  if o.num = Int64.minValue then .error ⟨r, .sub, o⟩ else r.add ⟨-o.num, o.den⟩

/-- The product, cross-reduced before multiplying. -/
def mul (r o : Ratio) : Except Overflow Ratio :=
  let g₁ := gcd r.num o.den
  let g₂ := gcd o.num r.den
  match mul? (r.num / g₁) (o.num / g₂), mul? (r.den / g₂) (o.den / g₁) with
  | some num, some den => .ok (reduce num den)
  | _, _ => .error ⟨r, .mul, o⟩

/-- Numerator and denominator as whole numbers, the denominator made positive. -/
def exact (r : Ratio) : Int × Int :=
  if r.den < 0 then (-r.num.toInt, -r.den.toInt) else (r.num.toInt, r.den.toInt)

/-- The order of two fractions, by cross-multiplication. -/
def cmp (r o : Ratio) : Ordering :=
  match mul? r.num o.den, mul? o.num r.den with
  | some a, some b => compare a b
  | _, _ =>
    let (p, q) := r.exact
    let (s, t) := o.exact
    compare (p * t) (s * q)

/-- Whether one time comes before another. -/
def less (r o : Ratio) : Bool := r.cmp o = .lt

/-- The later of two times; the first if neither is later. -/
def max (a b : Ratio) : Ratio := if a.less b then b else a

/-- Whether the fraction is zero. -/
def isZero (r : Ratio) : Bool := r.num = 0

/-- The nearest word to a whole number. -/
def saturate (n : Int) : Int64 :=
  if n < Int64.minValue.toInt then Int64.minValue
  else if Int64.maxValue.toInt < n then Int64.maxValue
  else Int64.ofInt n

/-- The largest whole number not above `r` times `n`, kept within the 64-bit range. -/
def floor (r : Ratio) (n : Int64) : Int64 :=
  match mul? r.num n with
  | some p => if p < 0 ∧ p % r.den ≠ 0 then p / r.den - 1 else p / r.den
  | none => saturate (r.num.toInt * n.toInt / r.den.toInt)

/-- The nearest double to the quotient of the terms, each first taken to the nearest double. -/
def toFloat (r : Ratio) : Float := Binary64.ofInt64 r.num / Binary64.ofInt64 r.den

end Ratio

end DegreeScore
