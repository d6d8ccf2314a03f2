import DegreeScore.Compilation
import DegreeScore.Files.Basic

/-!
# Sources among files

Finding the sources that paths name, compiling one, and writing what it compiles to.
-/

namespace DegreeScore

/-- Why a file could not be compiled at all. -/
inductive SourceError
  | unopened (e : FileError)
  | unread (path : String) (e : FileError)
  | tooLarge (path : String)
deriving Repr, DecidableEq

/-- The text shown for a file that could not be compiled at all. -/
def SourceError.message : SourceError → String
  | .unopened e => "could not open source: " ++ e.message
  | .unread path e => "could not read " ++ path ++ ": " ++ e.message
  | .tooLarge path => path ++ " is larger than " ++ toString maxSourceSize ++ " bytes"

/-- Why the compiled form of a source was not written. -/
inductive WriteError
  | unencodable (fault : Midi.FileFault)
  | unwritten (path : String) (e : FileError)
deriving Repr, DecidableEq

/-- The text shown when the compiled form of a source was not written. -/
def WriteError.message : WriteError → String
  | .unencodable fault => "error encoding midi file: " ++ fault.message
  | .unwritten path e => "error writing midi file " ++ path ++ ": " ++ e.message

/-- What became of a source among files. -/
inductive Delivery
  | unusable (e : SourceError)
  /-- The compilation failed. -/
  | failed (c : Compilation) (message : String)
  | unwritten (c : Compilation) (e : WriteError)
  /-- The file at `path` holds `content`. -/
  | written (path : String) (content : Bytes)

/-- Why a source has no compiled form, if it has none. -/
def Delivery.error? : Delivery → Option String
  | .unusable e => some e.message
  | .failed _ message => some message
  | .unwritten _ e => some e.message
  | .written .. => none

/-- The diagnostics of a source with the path before each. -/
def Delivery.lines (path : String) : Delivery → List String
  | .failed c _ => c.located.map fun line => path ++ ":" ++ line
  | _ => []

namespace Files

/-- Compiles the source at a path. -/
def compile (fs : Files) (path : String) : Except SourceError Compilation :=
  match fs.read path with
  | .error e => .error (if e.fault = .isDirectory then .unread path e else .unopened e)
  | .ok source =>
    if maxSourceSize < source.length then .error (.tooLarge path)
    else .ok (DegreeScore.compile source)

/-- Compiles the source at a path into the directory `dir`. -/
def deliver (fs : Files) (dir path : String) : Files × Delivery :=
  match fs.compile path with
  | .error e => (fs, .unusable e)
  | .ok c =>
    match c.outcome with
    | .compiled _ f =>
      match f.encode with
      | .error fault => (fs, .unwritten c (.unencodable fault))
      | .ok content =>
        let out := Path.output dir path
        match fs.write out content with
        | .error e => (fs, .unwritten c (.unwritten out e))
        | .ok written => (written, .written out content)
    | _ => (fs, .failed c (c.error?.getD ""))

/-- The paths of the sources below a directory. -/
def sourcesBelow (fs : Files) (path : String) (l : Location) : List String :=
  let found := (fs.below l).map fun names => Path.join path ("/".intercalate names)
  found.filter fun p => sourceExtension.toList.isSuffixOf p.toList

/-- Adds a path unless the limit is reached. A limit of zero is none. -/
def addSource (limit : Int) (found : List String) (path : String) : List String :=
  if limit ≠ 0 ∧ limit ≤ found.length then found else found ++ [path]

/-- Adds the sources that a path names: the file itself, or all sources below a directory. -/
def addSources (fs : Files) (limit : Int) (found : List String) (path : String) :
    Except FileError (List String) :=
  match fs.resolve path with
  | .error fault => .error ⟨"stat", path, fault⟩
  | .ok l =>
    match fs.find? l with
    | some (.directory _) => .ok ((fs.sourcesBelow path l).foldl (addSource limit) found)
    | some (.file _) => .ok (addSource limit found path)
    | none => .error ⟨"stat", path, .missing⟩

/-- The sources that paths name, in order, at most `limit` of them. -/
def gather (fs : Files) (limit : Int) (paths : List String) : Except FileError (List String) :=
  paths.foldlM (fs.addSources limit) []

end Files

end DegreeScore
