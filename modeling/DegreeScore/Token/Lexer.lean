import DegreeScore.Text.Digit
import DegreeScore.Text.Letter
import DegreeScore.Text.Numeral
import DegreeScore.Text.Position
import DegreeScore.Text.Space
import DegreeScore.Token.Basic

/-!
# Splitting a source into tokens

Tokens are separated by gaps, which are runs of white space and of comments from `%` to the end of
the line. `Token.next` measures the gap and the token at the front of a source; `Token.scan` does so
until the source is used up and ends the list with one token for the end of input.
-/

namespace DegreeScore

namespace Lexer

/-- What the scan of a gap is inside of. -/
inductive Gap
  /-- White space; the next `owed` bytes belong to the blank before them. -/
  | blanks (owed : Nat)
  /-- A comment. -/
  | comment
deriving Repr, DecidableEq

/-- `n` plus the number of bytes of the gap at the front. -/
def gapLength : Gap → Nat → Bytes → Nat
  | _, n, [] => n
  | .comment, n, b :: rest =>
    gapLength (if b = Position.newline then .blanks 0 else .comment) (n + 1) rest
  | .blanks (owed + 1), n, _ :: rest => gapLength (.blanks owed) (n + 1) rest
  | .blanks 0, n, b :: rest =>
    match Utf8.first b rest with
    | some (c, k) =>
      if Text.isSpace c then gapLength (.blanks k) (n + 1) rest
      else if c = '%' then gapLength .comment (n + 1) rest
      else n
    | none => n

/-- The number of digits at the front. -/
def digitsLength (bs : Bytes) : Nat := (bs.takeWhile Text.Numeral.isDigit).length

/-- Whether the first byte is a digit. -/
def startsWithDigit : Bytes → Bool
  | b :: _ => Text.Numeral.isDigit b
  | [] => false

/-- Whether a mark may go on with `c`. -/
def isWordChar (c : Char) : Bool := c = '_' || Text.isLetter c || Text.isDigit c

/-- `n` plus the number of bytes of word characters at the front; the next `owed` bytes belong to
the character before them. -/
def wordLength : Nat → Nat → Bytes → Nat
  | _, n, [] => n
  | owed + 1, n, _ :: rest => wordLength owed (n + 1) rest
  | 0, n, b :: rest =>
    match Utf8.first b rest with
    | some (c, k) => if isWordChar c then wordLength k (n + 1) rest else n
    | none => n

/-- The quote around texts. -/
def quote : UInt8 := 39

/-- The contents of a quoted text after its opening quote, in which a doubled quote stands for one,
and `n` plus the number of bytes up to and with the closing quote. `acc` holds the contents so far
in reverse. -/
def quoted? (acc : Bytes) (n : Nat) : Bytes → Option (Bytes × Nat)
  | [] => none
  | [b] => if b = quote then some (acc.reverse, n + 1) else none
  | b :: c :: rest =>
    if b ≠ quote then quoted? (b :: acc) (n + 1) (c :: rest)
    else if c = quote then quoted? (quote :: acc) (n + 2) rest
    else some (acc.reverse, n + 1)

/-- The kind of the token at the front and its number of bytes. -/
abbrev Measure := TokenKind × Nat

/-- `_`, which stands before `rest`, an optional numerator and an optional `/` with a denominator. -/
def duration (rest : Bytes) : Measure :=
  let n := digitsLength rest
  match rest.drop n with
  | 47 :: after =>
    if startsWithDigit after then (.duration, n + 2 + digitsLength after)
    else (.invalid .missingDenominator, n + 2)
  | _ => (.duration, n + 1)

/-- An integer, whose first digit or sign stands before `rest`; one or two equal signs after it make
it a note with an accidental. -/
def number (rest : Bytes) : Measure :=
  let n := digitsLength rest
  match rest.drop n with
  | s :: after =>
    if s = 43 ∨ s = 45 then
      (.note, n + (if after.head? = some s then 3 else 2))
    else (.integer, n + 1)
  | [] => (.integer, n + 1)

/-- A quoted text, whose opening quote stands before `rest`; without a closing quote it takes the
rest of the source. -/
def text (rest : Bytes) : Measure :=
  match quoted? [] 1 rest with
  | some (value, n) => (.text value, n)
  | none => (.invalid .unterminatedText, rest.length + 1)

/-- A mark or one of the words `key` and `r`, of which the first byte is `b`. -/
def word (b : UInt8) (rest : Bytes) : Measure :=
  let n := if b = 36 then wordLength 0 1 rest else wordLength 0 0 (b :: rest)
  let w := (b :: rest).take n
  if w = [36] then (.invalid .missingMarkName, n)
  else if w = [107, 101, 121] then (.key, n)
  else if w = [114] then (.rest, n)
  else (.mark, n)

/-- The kind and length of the token whose first byte is `b`. -/
def measure (b : UInt8) (rest : Bytes) : Measure :=
  match b with
  | 91 => (.opening .sequence, 1)
  | 93 => (.closing .sequence, 1)
  | 123 => (.opening .chord, 1)
  | 125 => (.closing .chord, 1)
  | 44 => (.comma, 1)
  | 61 => (.equals, 1)
  | 95 => duration rest
  | 39 => text rest
  | b =>
    if Text.Numeral.isDigit b || (b = 45 && startsWithDigit rest) then number rest
    else match Utf8.first b rest with
      | some (c, k) =>
        if c = '$' || Text.isLetter c then word b rest else (.invalid (.unexpected c), k + 1)
      | none => (.invalid .invalidUtf8, 1)

end Lexer

namespace Token

/-- The first token of `src`, whose first byte stands at `offset`, and the number of bytes up to its
end. -/
def next (offset : Nat) (src : Bytes) : Token × Nat :=
  let gap := Lexer.gapLength (.blanks 0) 0 src
  match src.drop gap with
  | [] => ({ kind := .endOfInput, offset := offset + gap, text := [] }, gap)
  | b :: rest =>
    let (kind, n) := Lexer.measure b rest
    ({ kind, offset := offset + gap, text := (b :: rest).take n }, gap + n)

/-- The tokens of `src` in reverse, at most `fuel` of them before the end of input. -/
def scanFrom : Nat → List Token → Nat → Bytes → List Token
  | 0, acc, _, _ => acc
  | fuel + 1, acc, offset, src =>
    let (t, n) := next offset src
    match t.kind with
    | .endOfInput => t :: acc
    | _ => scanFrom fuel (t :: acc) (offset + n) (src.drop n)

/-- All tokens of `src`; the last one, and no other, is the end of input. A token takes at least one
byte, so there are at most as many before the end as there are bytes. -/
def scan (src : Bytes) : List Token := (scanFrom (src.length + 1) [] 0 src).reverse

/-- The first `count` tokens of `src`; past the end, the end of input again and again. -/
def takeFrom : Nat → Nat → Bytes → List Token
  | 0, _, _ => []
  | count + 1, offset, src =>
    let (t, n) := next offset src
    t :: takeFrom count (offset + n) (src.drop n)

end Token

end DegreeScore
