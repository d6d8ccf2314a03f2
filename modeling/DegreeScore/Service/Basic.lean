import DegreeScore.Feed
import DegreeScore.Json.Reader
import DegreeScore.Preview
import DegreeScore.Service.Target

/-!
# Requests and answers

Compiling over HTTP. A request carries a source in a JSON object; the answer is the compiled file, its
playback feed, or what is wrong with the source.
-/

namespace DegreeScore

/-- A request. -/
structure Request where
  method : String
  target : Target
  body : Bytes := []
deriving Repr

/-- What an answer carries. -/
inductive Content
  | empty
  | midi (bytes : Bytes)
  | json (v : Json.Value)
  | page (text : String)
deriving Repr

/-- An answer. -/
structure Answer where
  status : Nat
  /-- The type of the content, empty if none is announced. -/
  contentType : String := ""
  /-- The id of the request, if the answer is marked with one. -/
  requestId : Option String := none
  location : Option String := none
  content : Content := .empty
deriving Repr

namespace Answer

/-- An answer in JSON. -/
def json (status : Nat) (v : Json.Value) : Answer :=
  { status, contentType := "application/json", content := .json v }

/-- An answer that says in words what is wrong. -/
def problem (status : Nat) (detail : String) : Answer :=
  json status (.object [("detail", .text detail)])

end Answer

namespace Request

/-- The letter that a character counts as when the names of fields are compared. -/
def foldCase (c : Char) : Char := if c = 'ſ' then 's' else c.toLower

/-- Takes the next field of the body into account. Only the field `source` counts, in any case; it
must be a text or null, and null changes nothing. -/
def takeField (source : String) (field : String × Json.Value) : Option String :=
  if field.1.toList.map foldCase = "source".toList then
    match field.2 with
    | .text s => some s
    | .null => some source
    | _ => none
  else some source

/-- The source in the body, which must be an object or null. -/
def source? (r : Request) : Option Bytes :=
  match Json.Value.ofBytes? r.body with
  | some .null => some []
  | some (.object fields) => (fields.foldlM takeField "").map Bytes.ofString
  | _ => none

/-- A diagnostic and its position as an answer shows them. -/
def diagnosticValue (d : Diagnostic) (p : Position) : Json.Value :=
  .object [("line", .ofNat p.line), ("column", .ofNat p.column), ("offset", .ofNat d.offset),
    ("message", .text d.message)]

/-- Compiles the source in the body, and otherwise gives the answer that says why not. -/
def compile (r : Request) (id : String) : Except Answer (Compilation × Performance × Midi.File) :=
  if maxSourceSize < r.body.length then .error (.problem 413 "source is too large")
  else match r.source? with
    | none => .error (.problem 400 "could not unmarshal request body: not an object with a source")
    | some source =>
      let c := DegreeScore.compile source
      match c.outcome with
      | .compiled p f => .ok (c, p, f)
      | .malformed _ =>
        .error (.json 422 (.object [("request_id", .text id),
          ("diagnostics", .array ((Diagnostic.withPositions source c.diagnostics).map fun (d, p) =>
            diagnosticValue d p))]))
      | _ => .error (.problem 422 (c.error?.getD ""))

/-- The tick given in a parameter. -/
def tick? (bs : Bytes) : Option UInt32 := (Text.Numeral.nat? 0xffffffff bs).map UInt32.ofNat

/-- The number of notes given in a parameter. -/
def count? (bs : Bytes) : Option Int :=
  match Text.Numeral.int64? bs with
  | some n => if 0 ≤ n then some n.toInt else none
  | none => none

/-- The limits of a preview that the parameters `from` and `notes` ask for; `none` inside if neither
is given. -/
def limits? (t : Target) : Option (Option PreviewLimits) :=
  match t.parameterValue? "from", t.parameterValue? "notes" with
  | none, none => some none
  | some start, none => (tick? start).map fun s => some ⟨s, 0⟩
  | none, some notes => (count? notes).map fun n => some ⟨0, n⟩
  | some start, some notes => do
    let s ← tick? start
    let n ← count? notes
    return some ⟨s, n⟩

/-- Answers with the compiled file, or a preview of it. -/
def answerCompile (r : Request) (id : String) : Answer :=
  match r.compile id with
  | .error answer => answer
  | .ok (_, _, f) =>
    match limits? r.target with
    | none => .problem 400 "from and notes must be non-negative integers"
    | some limits =>
      let file := match limits with
        | some limits => f.preview limits
        | none => f
      match file.encode with
      | .error _ => .problem 500 "could not encode midi file"
      | .ok bytes => { status := 200, contentType := "audio/midi", content := .midi bytes }

/-- The tempo that the parameter `bpm` asks for, otherwise that of the source. -/
def tempo? (t : Target) (own : Float) : Option Float :=
  match t.parameterValue? "bpm" with
  | none | some [] => some own
  | some bs =>
    match Decimal.read bs with
    | .ok x => if x ≤ 0 then none else some x
    | .error _ => none

/-- The feed of a performance with its tempo. -/
def feedValue (env : Environment) (id : String) (p : Performance) (bpm : Float) :
    Except Json.NoNumeral Json.Value := do
  let tempo ← Json.Value.ofFloat bpm
  let events ← Playback.feed (Playback.messages env p.events bpm)
  return .object [("request_id", .text id), ("bpm", tempo), ("events", events)]

/-- Answers with the playback feed. A feed with a time or tempo that has no numeral leaves the answer
empty. -/
def answerEvents (env : Environment) (r : Request) (id : String) : Answer :=
  match r.compile id with
  | .error answer => answer
  | .ok (c, p, _) =>
    match tempo? r.target (c.bpm env) with
    | none => .problem 400 "bpm must be a positive number"
    | some bpm =>
      match feedValue env id p bpm with
      | .ok v => .json 200 v
      | .error _ => { status := 200, contentType := "application/json" }

end Request

end DegreeScore
