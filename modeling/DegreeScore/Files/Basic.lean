import DegreeScore.Files.Entry
import DegreeScore.Files.Path

/-!
# Files

A tree of files with a working directory, and what can be done to it by paths. A path is followed name
by name: each name but the last must lead to a directory. Paths and names have a greatest length.
-/

namespace DegreeScore

/-- A tree of files and directories. -/
structure Files where
  root : Entry := .empty
  /-- The working directory, from which relative paths start. -/
  here : Location := []
deriving Repr

/-- Why a path could not be used. -/
inductive FileFault
  | missing
  | notDirectory
  | isDirectory
  | present
  /-- The path holds a NUL. -/
  | malformed
  | tooLong
deriving Repr, DecidableEq

/-- The text shown for a path that could not be used. -/
def FileFault.message : FileFault → String
  | .missing => "no such file or directory"
  | .notDirectory => "not a directory"
  | .isDirectory => "is a directory"
  | .present => "file exists"
  | .malformed => "invalid argument"
  | .tooLong => "file name too long"

/-- An action on a path that failed. -/
structure FileError where
  action : String
  path : String
  fault : FileFault
deriving Repr, DecidableEq

/-- The text shown for a failed action. -/
def FileError.message (e : FileError) : String :=
  e.action ++ " " ++ e.path ++ ": " ++ e.fault.message

namespace Files

/-- The greatest number of bytes in a name. -/
def longestName : Nat := 255

/-- The greatest number of bytes in a path. -/
def longestPath : Nat := 4095

/-- What stands at a location. -/
def find? (fs : Files) (l : Location) : Option Entry := fs.root.find? l

/-- Puts an entry at a location, in place of what stood there. -/
def put (fs : Files) (l : Location) (e : Entry) : Files := { fs with root := e.put l fs.root }

/-- Takes away what stands at a location. -/
def remove (fs : Files) (l : Location) : Files := { fs with root := fs.root.remove l }

/-- The names passed on the way along a path and the entries they led to, the last one first. -/
abbrev Trail := List (String × Entry)

/-- The location that a trail has led to. -/
def Trail.location (t : Trail) : Location := (t.map (·.1)).reverse

/-- What stands at the end of a trail. -/
def reached (fs : Files) : Trail → Entry
  | [] => fs.root
  | (_, e) :: _ => e

/-- Follows one name. -/
def enter (fs : Files) (t : Trail) (name : String) : Except FileFault Trail :=
  match fs.reached t with
  | .file _ => .error .notDirectory
  | .directory children =>
    if name = "" ∨ name = "." then .ok t
    else if name = ".." then .ok t.tail
    else if longestName < name.utf8ByteSize then .error .tooLong
    else match children.lookup name with
      | some e => .ok ((name, e) :: t)
      | none => .error .missing

/-- Why a path cannot be followed at all, if it cannot. -/
def unusable? (path : String) : Option FileFault :=
  if path.toList.contains (Char.ofNat 0) then some .malformed
  else if path = "" then some .missing
  else if longestPath < path.utf8ByteSize then some .tooLong
  else none

/-- Follows names from the root, or from the working directory. -/
def walk (fs : Files) (absolute : Bool) (names : List String) : Except FileFault Trail := do
  let start ← if absolute then pure [] else fs.here.foldlM fs.enter []
  names.foldlM fs.enter start

/-- Follows a path. -/
def follow (fs : Files) (path : String) : Except FileFault Trail :=
  match unusable? path with
  | some fault => .error fault
  | none => fs.walk (Path.isAbsolute path) (Path.names path)

/-- The location that a path leads to. -/
def resolve (fs : Files) (path : String) : Except FileFault Location :=
  (fs.follow path).map Trail.location

/-- What a path leads to. -/
def stat (fs : Files) (path : String) : Except FileFault Entry := (fs.follow path).map fs.reached

/-- The location that names stand for, though nothing may be there yet. -/
def locateNames (fs : Files) (absolute : Bool) (names : List String) : Except FileFault Location := do
  let t ← fs.walk absolute names.dropLast
  match fs.reached t with
  | .file _ => .error .notDirectory
  | .directory _ =>
    match names.getLastD "" with
    | "" | "." => return t.location
    | ".." => return Trail.location t.tail
    | name => if longestName < name.utf8ByteSize then .error .tooLong else return t.location ++ [name]

/-- The location that a path stands for, though nothing may be there yet. -/
def locate (fs : Files) (path : String) : Except FileFault Location :=
  match unusable? path with
  | some fault => .error fault
  | none => fs.locateNames (Path.isAbsolute path) (Path.names path)

/-- The content of the file that a path leads to. -/
def read (fs : Files) (path : String) : Except FileError Bytes :=
  match fs.stat path with
  | .error fault => .error ⟨"open", path, fault⟩
  | .ok (.directory _) => .error ⟨"read", path, .isDirectory⟩
  | .ok (.file content) => .ok content

/-- Writes a file, over what it held before. -/
def write (fs : Files) (path : String) (content : Bytes) : Except FileError Files :=
  match fs.locate path with
  | .error fault => .error ⟨"open", path, fault⟩
  | .ok l =>
    match fs.find? l with
    | some (.directory _) => .error ⟨"open", path, .isDirectory⟩
    | _ => .ok (fs.put l (.file content))

/-- Makes one directory. Slashes at the end of its path do not count. -/
def makeDirectory (fs : Files) (path : String) : Except FileFault Files := do
  if let some fault := unusable? path then throw fault
  let names := ((Path.names path).reverse.dropWhile (· = "")).reverse
  let l ← fs.locateNames (Path.isAbsolute path) names
  if (fs.find? l).isSome then throw .present
  return fs.put l .empty

/-- The paths of the directories on the way to a path, the outermost first. `before` holds the
characters passed, the last one first. -/
def parents (before : List Char) : List Char → List String
  | [] => []
  | c :: rest =>
    if c = '/' ∧ before ≠ [] ∧ rest.headD '/' ≠ '/' then
      String.ofList before.reverse :: parents (c :: before) rest
    else parents (c :: before) rest

/-- Makes the first of some directories, each of which lies in the next one, unless it is there; what
is missing of the others is made before. -/
def ensureFirst (fs : Files) : List String → Files × Option FileError
  | [] => (fs, none)
  | path :: outer =>
    match fs.stat path with
    | .ok (.directory _) => (fs, none)
    | .ok (.file _) => (fs, some ⟨"mkdir", path, .notDirectory⟩)
    | .error _ =>
      match fs.ensureFirst outer with
      | (fs, some e) => (fs, some e)
      | (fs, none) =>
        match fs.makeDirectory path, fs.stat path with
        | .ok made, _ => (made, none)
        | .error _, .ok (.directory _) => (fs, none)
        | .error fault, _ => (fs, some ⟨"mkdir", path, fault⟩)

/-- Makes a directory and those on the way to it, as far as they are missing. Those that were made
before one could not be made stay. -/
def ensureDirectory (fs : Files) (path : String) : Files × Option FileError :=
  fs.ensureFirst (path :: (parents [] path.toList).reverse)

/-- The files below a location, each by the names that lead to it from there: depth first, names in
order. -/
def below (fs : Files) (l : Location) : List Location :=
  match fs.find? l with
  | some e => e.files.map (·.1)
  | none => []

/-- The files that hold something else than before. -/
def changedSince (before after : Files) : List (Location × Bytes) :=
  after.root.files.filter fun (l, content) => !(before.find? l).any (Entry.holds content)

/-- The directories that were not there before. -/
def madeSince (before after : Files) : List Location :=
  after.root.directories.filter fun l => (before.find? l).isNone

end Files

end DegreeScore
