import DegreeScore.Text.Utf8

/-!
# Decimal numerals

Reading numerals from bytes and setting them in columns. A reader takes the whole byte string or
refuses it, also if the value passes the bound that whoever asks sets. A run of digits is read in
one pass however long it is, because a value past the bound is not followed any further;
`valueUpTo_eq_min` says that this makes no difference below the bound.
-/

namespace DegreeScore.Text.Numeral

/-- Whether the byte is one of the digits `0`–`9`. -/
def isDigit (b : UInt8) : Bool := 48 ≤ b && b ≤ 57

/-- The value of a numeral worth `n` with one more digit. -/
def appended (n : Nat) (b : UInt8) : Nat := n * 10 + (b.toNat - 48)

/-- The value of a run of digits. -/
def value (digits : Bytes) : Nat := digits.foldl appended 0

/-- The value of a run of digits up to `most`; every greater value counts as `most + 1`. -/
def valueUpTo (most : Nat) (digits : Bytes) : Nat :=
  digits.foldl (fun n b => min (appended n b) (most + 1)) 0

theorem valueUpTo_eq_min (most : Nat) (digits : Bytes) :
    valueUpTo most digits = min (value digits) (most + 1) := by
  suffices h : ∀ n, digits.foldl (fun n b => min (appended n b) (most + 1)) (min n (most + 1)) =
      min (digits.foldl appended n) (most + 1) by
    have start := h 0
    rwa [Nat.zero_min] at start
  induction digits with
  | nil => intro n; rfl
  | cons b rest ih =>
    intro n
    have step : min (appended (min n (most + 1)) b) (most + 1) =
        min (appended n b) (most + 1) := by
      simp only [appended]
      omega
    rw [List.foldl_cons, List.foldl_cons, step, ih]

/-- The value of a non-empty run of digits, if it is at most `most`. -/
def nat? (most : Nat) (bs : Bytes) : Option Nat :=
  if bs ≠ [] ∧ bs.all isDigit ∧ valueUpTo most bs ≤ most then some (valueUpTo most bs) else none

/-- The value of a run of digits with at most one sign before it, if its size is at most `most`. -/
def int? (most : Nat) : Bytes → Option Int
  | 43 :: rest => (nat? most rest).map Int.ofNat
  | 45 :: rest => (nat? most rest).map fun n => -Int.ofNat n
  | bs => (nat? most bs).map Int.ofNat

/-- Whether a number fits in a signed 64-bit word. -/
def fits64 (n : Int) : Bool := -0x8000000000000000 ≤ n && n < 0x8000000000000000

/-- The value of a signed numeral that fits in 64 bits. -/
def int64? (bs : Bytes) : Option Int64 :=
  match int? 0x8000000000000000 bs with
  | some n => if fits64 n then some (Int64.ofInt n) else none
  | none => none

/-- Why a text is not the numeral that was asked for. -/
inductive Fault
  | invalid
  | outOfRange
deriving Repr, DecidableEq

/-- The text shown for a bad numeral. -/
def Fault.message : Fault → String
  | .invalid => "invalid syntax"
  | .outOfRange => "value out of range"

/-- What the last byte was when checking where underscores stand. -/
inductive Last
  | start
  | digit
  | underscore
  | other
deriving Repr, DecidableEq

/-- The byte in lower case, if it is a letter. -/
def lower (b : UInt8) : UInt8 := b ||| 32

/-- Whether the byte is one of the digits `0`–`9`, or of `a`–`f` in a hexadecimal numeral. -/
def isDigitOf (hex : Bool) (b : UInt8) : Bool :=
  isDigit b || (hex && 97 ≤ lower b && lower b ≤ 102)

/-- Whether each underscore, of those left, follows a digit and precedes one. -/
def underscoresFrom (hex : Bool) : Last → Bytes → Bool
  | last, [] => last ≠ .underscore
  | last, b :: rest =>
    if isDigitOf hex b then underscoresFrom hex .digit rest
    else if b = 95 then last = .digit && underscoresFrom hex .underscore rest
    else last ≠ .underscore && underscoresFrom hex .other rest

/-- A numeral without its sign. -/
def unsigned : Bytes → Bytes
  | 43 :: rest => rest
  | 45 :: rest => rest
  | bs => bs

/-- Whether each underscore separates digits. The mark of a base counts as a digit. -/
def underscoresSeparate (bs : Bytes) : Bool :=
  match unsigned bs with
  | 48 :: m :: rest =>
    if lower m = 120 then underscoresFrom true .digit rest
    else if lower m = 98 ∨ lower m = 111 then underscoresFrom false .digit rest
    else underscoresFrom false .start (48 :: m :: rest)
  | bs => underscoresFrom false .start bs

/-- Fills up with `pad` on the left to `width` characters. -/
def alignRight (width : Nat) (pad : Char) (s : String) : String :=
  String.ofList (List.replicate (width - s.length) pad) ++ s

/-- Fills up with blanks on the right to `width` characters. -/
def alignLeft (width : Nat) (s : String) : String :=
  s ++ String.ofList (List.replicate (width - s.length) ' ')

end DegreeScore.Text.Numeral
