import DegreeScore.Text.Utf8

/-!
# Trees of files

A directory holds entries under names, in order of the names. `Entry.find?` is the view that tells what
stands at a location below an entry; `Entry.put` and `Entry.remove` change one location and leave the
others as they are.
-/

namespace DegreeScore

/-- The names on the way to a file or directory. -/
abbrev Location := List String

/-- A directory or a file. -/
inductive Entry
  | directory (children : List (String × Entry))
  | file (content : Bytes)
deriving Repr

namespace Entry

/-- A directory without anything in it. -/
def empty : Entry := .directory []

/-- The entries in a directory, with their names. -/
def children : Entry → List (String × Entry)
  | .directory cs => cs
  | .file _ => []

/-- The entry with a name in a directory. -/
def child? (e : Entry) (name : String) : Option Entry := e.children.lookup name

/-- What stands at a location below an entry. -/
def find? : Entry → Location → Option Entry
  | e, [] => some e
  | e, name :: rest => (e.child? name).bind fun c => c.find? rest

/-- Puts an entry under a name, in place of the one that had it. -/
def setChild (name : String) (new : Entry) : List (String × Entry) → List (String × Entry)
  | [] => [(name, new)]
  | (n, e) :: rest =>
    if n = name then (name, new) :: rest
    else if name < n then (name, new) :: (n, e) :: rest
    else (n, e) :: setChild name new rest

/-- Puts an entry at a location, in place of what stood there. Directories on the way are made. -/
def put (new : Entry) : Location → Entry → Entry
  | [], _ => new
  | name :: rest, e =>
    .directory (setChild name (put new rest ((e.child? name).getD empty)) e.children)

/-- Takes away what stands at a location. -/
def remove : Location → Entry → Entry
  | [], e => e
  | [name], e => .directory (e.children.filter (·.1 ≠ name))
  | name :: rest, e =>
    match e.child? name with
    | some c => .directory (setChild name (remove rest c) e.children)
    | none => e

mutual

/-- The files below an entry with their locations, depth first. -/
def files : Entry → List (Location × Bytes)
  | .file content => [([], content)]
  | .directory cs => filesAmong cs

/-- The files below the entries of a directory. -/
def filesAmong : List (String × Entry) → List (Location × Bytes)
  | [] => []
  | (name, e) :: rest => (files e).map (fun (l, content) => (name :: l, content)) ++ filesAmong rest

end

mutual

/-- The locations of the directories below an entry, each after those on the way to it. -/
def directories : Entry → List Location
  | .file _ => []
  | .directory cs => [] :: directoriesAmong cs

/-- The locations of the directories below the entries of a directory. -/
def directoriesAmong : List (String × Entry) → List Location
  | [] => []
  | (name, e) :: rest => (directories e).map (name :: ·) ++ directoriesAmong rest

end

/-- Whether an entry is a file that holds the given bytes. -/
def holds (content : Bytes) : Entry → Bool
  | .file c => c = content
  | .directory _ => false

end Entry

end DegreeScore
