import DegreeScore.Json.Basic
import DegreeScore.Text.Hex

/-!
# Writing JSON

A value on one line, or with each item and field on a line of its own, two blanks deeper than what it
belongs to. In texts the characters that have a meaning in HTML are escaped too.
-/

namespace DegreeScore.Json

/-- A character inside the quotes of a text. -/
def escaped (c : Char) : String :=
  match c with
  | '"' => "\\\""
  | '\\' => "\\\\"
  | '\n' => "\\n"
  | '\r' => "\\r"
  | '\t' => "\\t"
  | c =>
    if c.toNat < 32 ∨ c = '<' ∨ c = '>' ∨ c = '&' ∨ c.toNat = 0x2028 ∨ c.toNat = 0x2029 then
      "\\u" ++ Text.Hex.padded 4 c.toNat
    else c.toString

/-- A text in quotes. -/
def quoted (s : String) : String := "\"" ++ String.join (s.toList.map escaped) ++ "\""

/-- The break before an item, field or closing bracket at a depth; nothing if all is on one line. -/
def lineBreak : Option Nat → String
  | none => ""
  | some depth => "\n" ++ String.ofList (List.replicate (2 * depth) ' ')

/-- What stands between the name and the value of a field. -/
def fieldMark (depth : Option Nat) : String := if depth.isSome then ": " else ":"

mutual

/-- Writes a value after `acc`, at a depth or on one line. -/
def write (depth : Option Nat) (acc : String) : Value → String
  | .null => acc ++ "null"
  | .bool b => acc ++ (if b then "true" else "false")
  | .number numeral => acc ++ numeral
  | .text s => acc ++ quoted s
  | .array items =>
    if items.isEmpty then acc ++ "[]"
    else writeItems (depth.map (· + 1)) "" (acc ++ "[") items ++ lineBreak depth ++ "]"
  | .object fields =>
    if fields.isEmpty then acc ++ "\x7b\x7d"
    else writeFields (depth.map (· + 1)) "" (acc ++ "\x7b") fields ++ lineBreak depth ++ "\x7d"

/-- Writes the items of an array, `comma` before the first. -/
def writeItems (depth : Option Nat) (comma acc : String) : List Value → String
  | [] => acc
  | v :: rest => writeItems depth "," (write depth (acc ++ comma ++ lineBreak depth) v) rest

/-- Writes the fields of an object, `comma` before the first. -/
def writeFields (depth : Option Nat) (comma acc : String) : List (String × Value) → String
  | [] => acc
  | (name, v) :: rest =>
    writeFields depth ","
      (write depth (acc ++ comma ++ lineBreak depth ++ quoted name ++ fieldMark depth) v) rest

end

/-- A value on one line, with a line end. -/
def Value.line (v : Value) : String := write none "" v ++ "\n"

/-- A value on several lines, with a line end. -/
def Value.lines (v : Value) : String := write (some 0) "" v ++ "\n"

end DegreeScore.Json
