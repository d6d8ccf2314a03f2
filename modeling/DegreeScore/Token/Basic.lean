import DegreeScore.Text.Quoted

/-!
# Tokens

The words of a score: brackets, durations, numbers, quoted texts and marks, each with the byte
offset at which it starts and the bytes it was written with.
-/

namespace DegreeScore

/-- Why a stretch of source is no word of the language. -/
inductive LexicalFault
  | missingDenominator
  | unterminatedText
  | missingMarkName
  | invalidUtf8
  | unexpected (c : Char)
deriving Repr, DecidableEq

/-- The text shown for a lexical fault. -/
def LexicalFault.message : LexicalFault → String
  | .missingDenominator => "expected a denominator after '/'"
  | .unterminatedText => "unterminated text"
  | .missingMarkName => "expected a mark name after '$'"
  | .invalidUtf8 => "invalid UTF-8"
  | .unexpected c => "unexpected character " ++ Text.Quoted.single c

/-- The two ways of grouping: brackets play their contents in turn, braces all at once. -/
inductive Grouping
  | sequence
  | chord
deriving Repr, DecidableEq

/-- The sort of a token. A quoted text carries what it says, an invalid token what is wrong. -/
inductive TokenKind
  | endOfInput
  | invalid (fault : LexicalFault)
  | opening (g : Grouping)
  | closing (g : Grouping)
  | comma
  | equals
  | duration
  | integer
  | note
  | text (value : Bytes)
  | key
  | rest
  | mark
deriving Repr, DecidableEq

namespace TokenKind

/-- The names of the kinds, in the order in which kinds are numbered. -/
def names : List String :=
  ["end of input", "invalid token", "'['", "']'", "'\x7b'", "'\x7d'", "','", "'='",
    "duration", "integer", "note", "text", "'key'", "rest", "mark"]

/-- The number of a kind. -/
def index : TokenKind → Nat
  | .endOfInput => 0
  | .invalid _ => 1
  | .opening .sequence => 2
  | .closing .sequence => 3
  | .opening .chord => 4
  | .closing .chord => 5
  | .comma => 6
  | .equals => 7
  | .duration => 8
  | .integer => 9
  | .note => 10
  | .text _ => 11
  | .key => 12
  | .rest => 13
  | .mark => 14

/-- The name of the kind numbered `n`; a number that belongs to no kind is shown as it is. -/
def nameOfIndex (n : Int) : String :=
  match (if n < 0 then none else names[n.toNat]?) with
  | some name => name
  | none => "Kind(" ++ toString n ++ ")"

/-- The name of a kind in messages. -/
def name (k : TokenKind) : String := nameOfIndex k.index

/-- What a token of this kind says: the contents of a text, the complaint of an invalid token. -/
def value : TokenKind → Bytes
  | .text v => v
  | .invalid fault => Bytes.ofString fault.message
  | _ => []

end TokenKind

/-- A word of the source. -/
structure Token where
  kind : TokenKind
  offset : Nat
  text : Bytes
deriving Repr, DecidableEq

namespace Token

/-- How a message refers to the token. -/
def describe (t : Token) : String :=
  match t.kind with
  | .endOfInput => t.kind.name
  | .invalid fault => Text.Quoted.text t.text ++ " (" ++ fault.message ++ ")"
  | _ => t.kind.name ++ " " ++ Text.Quoted.text t.text

end Token

end DegreeScore
