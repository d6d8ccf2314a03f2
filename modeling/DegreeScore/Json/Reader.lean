import DegreeScore.Json.Basic
import DegreeScore.Text.Hex
import DegreeScore.Text.Numeral

/-!
# Reading JSON

Bytes are cut into tokens and the tokens are put together on a stack of open arrays and objects. Both
machines take one input at a time and stop at the first that does not fit. In texts stray bytes and
halves of surrogate pairs are read as U+FFFD. Values may be nested ten thousand deep.
-/

namespace DegreeScore.Json

/-- A token. -/
inductive Token
  | openArray
  | closeArray
  | openObject
  | closeObject
  | comma
  | colon
  | scalar (v : Value)
deriving Repr

/-- The UTF-16 unit that four hexadecimal digits stand for. -/
def unit? (a b c d : UInt8) : Option Nat := do
  let w ← Text.Hex.value? a
  let x ← Text.Hex.value? b
  let y ← Text.Hex.value? c
  let z ← Text.Hex.value? d
  return ((w * 16 + x) * 16 + y) * 16 + z

/-- The scalar value of two units, if they are a surrogate pair. -/
def pair? (high low : Nat) : Option Nat :=
  if 0xd800 ≤ high ∧ high < 0xdc00 ∧ 0xdc00 ≤ low ∧ low < 0xe000 then
    some (0x10000 + (high - 0xd800) * 0x400 + (low - 0xdc00))
  else none

/-- The encoding of a scalar value, or of U+FFFD for a number that is none. -/
def encoded (n : Nat) : Bytes :=
  Bytes.ofString (if n.isValidChar then Char.ofNat n else '\uFFFD').toString

/-- The byte that a letter after a backslash stands for. -/
def escape? (b : UInt8) : Option UInt8 :=
  match b with
  | 34 | 92 | 47 => some b
  | 98 => some 8
  | 102 => some 12
  | 110 => some 10
  | 114 => some 13
  | 116 => some 9
  | _ => none

/-- A byte of a text, or a UTF-16 unit that it names. -/
inductive Atom
  | byte (b : UInt8)
  | unit (n : Nat)
deriving Repr, DecidableEq

/-- The atoms of the body of a text after those in `acc`. Both lists of atoms have the last one
first. -/
def atomsFrom (acc : List Atom) : Bytes → Option (List Atom)
  | [] => some acc
  | 92 :: 117 :: a :: b :: c :: d :: rest =>
    match unit? a b c d with
    | some n => atomsFrom (.unit n :: acc) rest
    | none => none
  | 92 :: b :: rest =>
    match escape? b with
    | some e => atomsFrom (.byte e :: acc) rest
    | none => none
  | [92] => none
  | b :: rest => atomsFrom (.byte b :: acc) rest

/-- Encodes atoms in front of `acc`; the atoms have the last one first. -/
def encodeAtoms (acc : Bytes) : List Atom → Bytes
  | [] => acc
  | .byte b :: rest => encodeAtoms (b :: acc) rest
  | .unit low :: .unit high :: rest =>
    match pair? high low with
    | some n => encodeAtoms (encoded n ++ acc) rest
    | none => encodeAtoms (encoded low ++ acc) (.unit high :: rest)
  | .unit n :: rest => encodeAtoms (encoded n ++ acc) rest

/-- The text with the given body. -/
def unescape? (body : Bytes) : Option String :=
  (atomsFrom [] body).map fun atoms => Utf8.toText (encodeAtoms [] atoms)

/-- Whether the bytes are an exponent, or nothing. -/
def isExponent : Bytes → Bool
  | [] => true
  | e :: rest =>
    let digits := Text.Numeral.unsigned rest
    (e = 101 || e = 69) && digits ≠ [] && digits.all Text.Numeral.isDigit

/-- Whether the bytes are a fraction and an exponent, each of which may be absent. -/
def isFraction : Bytes → Bool
  | 46 :: d :: rest => Text.Numeral.isDigit d && isExponent (rest.dropWhile Text.Numeral.isDigit)
  | bs => isExponent bs

/-- Whether the bytes are a number without its sign. No zero stands before another digit. -/
def isMagnitude : Bytes → Bool
  | 48 :: rest => isFraction rest
  | d :: rest => Text.Numeral.isDigit d && isFraction (rest.dropWhile Text.Numeral.isDigit)
  | [] => false

/-- Whether the bytes are a number. -/
def isNumber : Bytes → Bool
  | 45 :: rest => isMagnitude rest
  | bs => isMagnitude bs

/-- The value that a word or a numeral stands for. -/
def scalar? (bs : Bytes) : Option Value :=
  if bs = Bytes.ofString "null" then some .null
  else if bs = Bytes.ofString "true" then some (.bool true)
  else if bs = Bytes.ofString "false" then some (.bool false)
  else if isNumber bs then some (.number (Utf8.toText bs))
  else none

/-- Where a scan stands. The bytes held are the last ones first. -/
inductive Scan
  | between
  /-- In a text; `escaping` after a backslash. -/
  | text (body : Bytes) (escaping : Bool)
  /-- In a word or numeral. -/
  | word (body : Bytes)
deriving Repr

/-- Whether a byte may belong to a word or a numeral. -/
def isWordByte (b : UInt8) : Bool :=
  Text.Numeral.isDigit b || b = 43 || b = 45 || b = 46 || (97 ≤ b && b ≤ 122) || (65 ≤ b && b ≤ 90)

/-- Takes a byte that begins something new. -/
def begin (tokens : List Token) (b : UInt8) : Option (Scan × List Token) :=
  match b with
  | 32 | 9 | 10 | 13 => some (.between, tokens)
  | 91 => some (.between, .openArray :: tokens)
  | 93 => some (.between, .closeArray :: tokens)
  | 123 => some (.between, .openObject :: tokens)
  | 125 => some (.between, .closeObject :: tokens)
  | 44 => some (.between, .comma :: tokens)
  | 58 => some (.between, .colon :: tokens)
  | 34 => some (.text [] false, tokens)
  | b => if isWordByte b then some (.word [b], tokens) else none

/-- Ends a word or numeral. -/
def endWord (tokens : List Token) (body : Bytes) : Option (List Token) :=
  (scalar? body.reverse).map fun v => .scalar v :: tokens

/-- Takes the next byte. -/
def scanByte : Scan × List Token → UInt8 → Option (Scan × List Token)
  | (.between, tokens), b => begin tokens b
  | (.text body true, tokens), b => if b < 32 then none else some (.text (b :: body) false, tokens)
  | (.text body false, tokens), b =>
    if b = 34 then (unescape? body.reverse).map fun s => (.between, .scalar (.text s) :: tokens)
    else if b < 32 then none
    else some (.text (b :: body) (b = 92), tokens)
  | (.word body, tokens), b =>
    if isWordByte b then some (.word (b :: body), tokens)
    else (endWord tokens body).bind fun tokens => begin tokens b

/-- Ends a scan. -/
def scanEnd : Scan × List Token → Option (List Token)
  | (.between, tokens) => some tokens.reverse
  | (.word body, tokens) => (endWord tokens body).map List.reverse
  | (.text .., _) => none

/-- The tokens of a byte string. -/
def tokens? (bs : Bytes) : Option (List Token) :=
  (bs.foldlM scanByte (.between, [])).bind scanEnd

/-- An array or object that is still open, its contents the last ones first. -/
inductive Frame
  | array (items : List Value)
  /-- `name` is the name of the field that is being read. -/
  | object (fields : List (String × Value)) (name : String)
deriving Repr

/-- What may come next. -/
inductive Phase
  | value
  /-- A value, or the end of an empty array. -/
  | item
  | name
  /-- A name, or the end of an empty object. -/
  | field
  | colon
  /-- A value is complete. -/
  | complete
deriving Repr, DecidableEq

/-- A value that is being put together. -/
structure Assembly where
  phase : Phase := .value
  frames : List Frame := []
  /-- The number of frames. -/
  depth : Nat := 0
  /-- The outermost value, once it is complete. -/
  whole : Option Value := none
deriving Repr

namespace Assembly

/-- The deepest nesting. -/
def deepest : Nat := 10000

/-- Hands a complete value to the array or object around it, which is the innermost of `depth`. -/
def deliver (depth : Nat) (v : Value) : List Frame → Assembly
  | [] => { phase := .complete, whole := some v }
  | .array items :: rest => { phase := .complete, frames := .array (v :: items) :: rest, depth }
  | .object fields name :: rest =>
    { phase := .complete, frames := .object ((name, v) :: fields) name :: rest, depth }

/-- Opens an array or object. -/
def enter (a : Assembly) (frame : Frame) (phase : Phase) : Option Assembly :=
  if a.depth < deepest then some { phase, frames := frame :: a.frames, depth := a.depth + 1 }
  else none

/-- Takes the next token. -/
def push (a : Assembly) (t : Token) : Option Assembly :=
  match a.phase, t, a.frames with
  | .value, .scalar v, frames | .item, .scalar v, frames => some (deliver a.depth v frames)
  | .value, .openArray, _ | .item, .openArray, _ => a.enter (.array []) .item
  | .value, .openObject, _ | .item, .openObject, _ => a.enter (.object [] "") .field
  | .item, .closeArray, .array items :: rest | .complete, .closeArray, .array items :: rest =>
    some (deliver (a.depth - 1) (.array items.reverse) rest)
  | .field, .closeObject, .object fields _ :: rest
  | .complete, .closeObject, .object fields _ :: rest =>
    some (deliver (a.depth - 1) (.object fields.reverse) rest)
  | .field, .scalar (.text name), .object fields _ :: rest
  | .name, .scalar (.text name), .object fields _ :: rest =>
    some { a with phase := .colon, frames := .object fields name :: rest }
  | .colon, .colon, _ => some { a with phase := .value }
  | .complete, .comma, .array _ :: _ => some { a with phase := .value }
  | .complete, .comma, .object .. :: _ => some { a with phase := .name }
  | _, _, _ => none

end Assembly

/-- Reads a byte string that holds one value and nothing else but blanks. -/
def Value.ofBytes? (bs : Bytes) : Option Value :=
  (tokens? bs).bind fun ts => (ts.foldlM Assembly.push {}).bind Assembly.whole

end DegreeScore.Json
