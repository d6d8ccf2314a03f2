import DegreeScore.Score.Basic
import DegreeScore.Text.Position

/-!
# Diagnostics

What is wrong with a source: the token at fault and the rule it breaks.
-/

namespace DegreeScore

/-- A rule of the language that a token breaks. -/
inductive ScoreFault
  | expectedNode
  | undefinedMark
  | repeatedKey
  | repeatedDuration
  | expectedKey
  | keyRange
  | durationRange
  | durationPositive
  | degreeRange
  | unclosed (g : Grouping)
  | mismatched (g : Grouping)
  | expectedEnd
  | expectedMetadata
  | expectedEntry
  | expectedEquals (key : Bytes)
  | expectedEntryEnd
  | expectedItemEnd
  | expectedValue
  | integerRange
deriving Repr, DecidableEq

/-- A broken rule and the token that breaks it. -/
structure Diagnostic where
  token : Token
  fault : ScoreFault
deriving Repr, DecidableEq

/-- A number without the signs at its end. -/
def withoutSigns (text : Bytes) : Bytes :=
  (text.reverse.dropWhile fun b => b = 43 || b = 45).reverse

namespace Diagnostic

/-- Where the token at fault starts. -/
def offset (d : Diagnostic) : Nat := d.token.offset

/-- The text shown for a diagnostic, without its position. -/
def message (d : Diagnostic) : String :=
  let found := d.token.describe
  let text := Utf8.toText d.token.text
  match d.fault with
  | .expectedNode =>
    match d.token.kind with
    | .invalid fault => fault.message
    | _ => "expected a collection, an operation, a rest, or a note, found " ++ found
  | .undefinedMark => "mark " ++ text ++ " is not defined"
  | .repeatedKey => "key is already set for this node"
  | .repeatedDuration => "duration is already set for this node"
  | .expectedKey => "expected an integer after 'key', found " ++ found
  | .keyRange => "key " ++ text ++ " is out of range -7..7"
  | .durationRange => "duration " ++ text ++ " is out of range"
  | .durationPositive => "duration " ++ text ++ " must be positive"
  | .degreeRange => "degree " ++ Utf8.toText (withoutSigns d.token.text) ++ " is out of range"
  | .unclosed g => "expected " ++ (TokenKind.closing g).name ++ " before end of input"
  | .mismatched g => "expected " ++ (TokenKind.closing g).name ++ ", found " ++ found
  | .expectedEnd => "expected end of input, found " ++ found
  | .expectedMetadata => "expected '\x7b' to start metadata, found " ++ found
  | .expectedEntry => "expected a metadata key, found " ++ found
  | .expectedEquals key =>
    "expected '=' after metadata key " ++ Text.Quoted.text key ++ ", found " ++ found
  | .expectedEntryEnd => "expected ',' or '\x7d' in metadata, found " ++ found
  | .expectedItemEnd => "expected ',' or ']' in metadata, found " ++ found
  | .expectedValue => "expected a metadata value, found " ++ found
  | .integerRange => "integer " ++ text ++ " is out of range"

/-- The node that stands for the passage at fault. -/
def node (d : Diagnostic) : Node := .error d.offset d.message

/-- The position of the token at fault. -/
def position (src : Bytes) (d : Diagnostic) : Position := Position.ofOffset src d.offset

/-- The message of a diagnostic after a position. -/
def messageAt (d : Diagnostic) (p : Position) : String :=
  toString p.line ++ ":" ++ toString p.column ++ ": " ++ d.message

/-- The message of a diagnostic after its position. -/
def located (src : Bytes) (d : Diagnostic) : String := d.messageAt (d.position src)

/-- Diagnostics with their positions. -/
def withPositions (src : Bytes) (ds : List Diagnostic) : List (Diagnostic × Position) :=
  ds.zip (Position.ofOffsets src (ds.map offset))

theorem withPositions_eq_map (src : Bytes) (ds : List Diagnostic) :
    withPositions src ds = ds.map fun d => (d, d.position src) := by
  rw [withPositions, Position.ofOffsets_eq_map, List.map_map, List.zip_map_right]
  induction ds with
  | nil => rfl
  | cons d ds ih => simpa [position] using ih

end Diagnostic

end DegreeScore
