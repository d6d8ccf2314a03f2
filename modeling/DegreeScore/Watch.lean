import DegreeScore.Sources

/-!
# Watching a source

A watched source is compiled at the start and after every change. While it is missing nothing happens:
what was compiled last stays where it is.
-/

namespace DegreeScore

/-- A source that is compiled into `dir` whenever it changes. -/
structure Watch where
  path : String
  dir : String
deriving Repr, DecidableEq

/-- What a change of a watched source led to. -/
inductive Sighting
  | removed
  | compiled (d : Delivery)

namespace Watch

/-- The text shown when there is nothing to watch. -/
def unwatchable (path : String) (fault : FileFault) : String :=
  "could not watch source: " ++ FileError.message ⟨"stat", path, fault⟩

/-- Why watching cannot start, if it cannot. -/
def obstacle? (w : Watch) (fs : Files) : Option String :=
  match fs.stat w.path with
  | .ok _ => none
  | .error fault => some (unwatchable w.path fault)

/-- Compiles the source as it is now. -/
def refresh (w : Watch) (fs : Files) : Files × Delivery := fs.deliver w.dir w.path

/-- Takes a change into account: new content of the source at `l`, or none if it is removed. -/
def observe (w : Watch) (l : Location) (fs : Files) : Option Bytes → Files × Sighting
  | none => (fs.remove l, .removed)
  | some content =>
    let (files, delivery) := w.refresh (fs.put l (.file content))
    (files, .compiled delivery)

/-- Takes changes into account one after the other. -/
def observeAll (w : Watch) (l : Location) (fs : Files) : List (Option Bytes) → Files × List Sighting
  | [] => (fs, [])
  | change :: rest =>
    let (files, sighting) := w.observe l fs change
    let (files, more) := w.observeAll l files rest
    (files, sighting :: more)

end Watch

end DegreeScore
