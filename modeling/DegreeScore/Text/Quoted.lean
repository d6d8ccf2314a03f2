import DegreeScore.Text.Hex
import DegreeScore.Text.Printable

/-!
# Quoted texts

The form in which messages show source text: in quotes, with printable characters as they are and
every other character or stray byte as a backslash escape.
-/

namespace DegreeScore.Text.Quoted

/-- The two-character escape of a character that has one, inside the quote `mark`. -/
def short? (mark c : Char) : Option Char :=
  if c = mark ∨ c = '\\' then some c
  else match c.toNat with
    | 7 => some 'a'
    | 8 => some 'b'
    | 12 => some 'f'
    | 10 => some 'n'
    | 13 => some 'r'
    | 9 => some 't'
    | 11 => some 'v'
    | _ => none

/-- A character inside the quote `mark`. -/
def char (mark c : Char) : String :=
  match short? mark c with
  | some e => String.ofList ['\\', e]
  | none =>
    if isPrintable c then c.toString
    else if c.toNat < 0x80 then "\\x" ++ Hex.padded 2 c.toNat
    else if c.toNat < 0x10000 then "\\u" ++ Hex.padded 4 c.toNat
    else "\\U" ++ Hex.padded 8 c.toNat

/-- A piece of a byte string inside double quotes. -/
def piece : Utf8.Piece → String
  | .char c => char '"' c
  | .stray b => "\\x" ++ Hex.padded 2 b.toNat

/-- A byte string in double quotes. -/
def text (bs : Bytes) : String := "\"" ++ String.join ((Utf8.pieces bs).map piece) ++ "\""

/-- A character in single quotes. -/
def single (c : Char) : String := "'" ++ char '\'' c ++ "'"

end DegreeScore.Text.Quoted
