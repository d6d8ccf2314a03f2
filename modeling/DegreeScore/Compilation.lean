import DegreeScore.Arrangement
import DegreeScore.Header
import DegreeScore.Score.Parse
import DegreeScore.Settings

/-!
# Compilation

From the bytes of a source to a MIDI file. A source with diagnostics is not played; one that cannot
be played or is too long gives no file.
-/

namespace DegreeScore

/-- How far a compilation came. -/
inductive Outcome
  /-- The source has diagnostics. -/
  | malformed (first : Diagnostic)
  /-- The score cannot be played. -/
  | unplanned (e : PlanError)
  /-- The performance does not fit in a file. -/
  | unarranged (p : Performance) (e : TooLong)
  | compiled (p : Performance) (f : Midi.File)
deriving Repr

/-- A source and what became of it. -/
structure Compilation where
  source : Bytes
  tree : Tree
  diagnostics : List Diagnostic
  outcome : Outcome
deriving Repr

/-- Why there are no bytes to write. -/
inductive OutputError
  | nothing
  | unencodable (fault : Midi.FileFault)
deriving Repr, DecidableEq

/-- The text shown when there are no bytes to write. -/
def OutputError.message : OutputError → String
  | .nothing => "nothing was compiled"
  | .unencodable fault => fault.message

/-- Plays and arranges a tree that has no diagnostics. -/
def Tree.compile (tree : Tree) : Outcome :=
  match tree.perform with
  | .error e => .unplanned e
  | .ok p =>
    match p.arrange (Header.events tree.metadata) with
    | .error e => .unarranged p e
    | .ok f => .compiled p f

/-- Compiles a source. -/
def compile (source : Bytes) : Compilation :=
  let (tree, diagnostics) := Tree.parse source
  let outcome := match diagnostics with
    | first :: _ => .malformed first
    | [] => tree.compile
  { source, tree, diagnostics, outcome }

namespace Compilation

/-- Why the compilation failed, if it did. -/
def error? (c : Compilation) : Option String :=
  match c.outcome with
  | .malformed d => some (d.located c.source ++ ": source has syntax errors")
  | .unplanned e => some ("could not plan events: " ++ e.message)
  | .unarranged _ e => some ("could not assemble tracks: " ++ e.message)
  | .compiled .. => none

/-- The performance, if the score could be played. -/
def performance? (c : Compilation) : Option Performance :=
  match c.outcome with
  | .unarranged p _ | .compiled p _ => some p
  | _ => none

/-- The compiled file, if there is one. -/
def file? (c : Compilation) : Option Midi.File :=
  match c.outcome with
  | .compiled _ f => some f
  | _ => none

/-- The bytes of the compiled file. -/
def bytes (c : Compilation) : Except OutputError Bytes :=
  match c.file? with
  | none => .error .nothing
  | some f =>
    match f.encode with
    | .error fault => .error (.unencodable fault)
    | .ok b => .ok b

/-- The warnings given while the header was made, which is once the score has been played. -/
def warnings (c : Compilation) : List Bytes :=
  match c.performance? with
  | some _ => Header.warnings c.tree.metadata
  | none => []

/-- The tempo: the `tempo` entry if it is a number above zero, otherwise the default. -/
def bpm (env : Environment) (c : Compilation) : Float :=
  match (c.tree.metadata.getD []).get? (Bytes.ofString "tempo") with
  | some (.number n) => if 0 < n then Binary64.ofInt64 n else env.defaultBpm
  | _ => env.defaultBpm

/-- The messages of the diagnostics, each after its position. -/
def located (c : Compilation) : List String :=
  (Diagnostic.withPositions c.source c.diagnostics).map fun (d, p) => d.messageAt p

end Compilation

end DegreeScore
