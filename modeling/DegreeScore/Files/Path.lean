import DegreeScore.Text.Split

/-!
# Paths

Paths as texts. The names in a path are divided by slashes; empty names and `.` stand for nothing,
`..` takes back the name before it, and a leading slash makes the path absolute. The operations here
do not look at any file.
-/

namespace DegreeScore.Path

/-- The names in a path, with the empty ones. -/
def names (path : String) : List String := (Text.Split.pieces '/' path.toList).map String.ofList

/-- Whether the path begins with a slash. -/
def isAbsolute (path : String) : Bool := path.toList.head? = some '/'

section Shortest

variable {α : Type} [DecidableEq α]

/-- Adds a name to the names passed so far, the last one first. In an absolute path two dots at the
front stand for nothing. -/
def pass (dot : α) (absolute : Bool) (passed : List (List α)) (name : List α) : List (List α) :=
  if name = [] ∨ name = [dot] then passed
  else if name = [dot, dot] then
    match passed with
    | [] => if absolute then [] else [[dot, dot]]
    | last :: rest => if last = [dot, dot] then [dot, dot] :: last :: rest else rest
  else name :: passed

/-- The shortest path with the same meaning, in whatever units slash and dot are written. -/
def shortest (slash dot : α) (path : List α) : List α :=
  let absolute := path.head? = some slash
  let passed := (Text.Split.pieces slash path).foldl (pass dot absolute) []
  let body := [slash].intercalate passed.reverse
  if absolute then slash :: body
  else if body = [] then [dot] else body

end Shortest

/-- The shortest path with the same meaning. -/
def clean (path : String) : String := String.ofList (shortest '/' '.' path.toList)

/-- The path of `name` in the directory `dir`. -/
def join (dir name : String) : String :=
  if dir = "" ∧ name = "" then ""
  else if dir = "" then clean name
  else clean (dir ++ "/" ++ name)

/-- The last name of a path: `/` for a path of slashes and `.` for the empty path. -/
def base (path : String) : String :=
  if path = "" then "."
  else
    match (names path).reverse.find? (· ≠ "") with
    | some name => name
    | none => "/"

/-- What follows the last full stop of a name, with the stop; nothing if there is none. -/
def extensionOf (name : List Char) : List Char :=
  match name.reverse.span (· ≠ '.') with
  | (_, []) => []
  | (after, stop :: _) => stop :: after.reverse

/-- The extension of the last name of a path, which is empty after a slash at the end. -/
def extension (path : String) : String :=
  String.ofList (extensionOf ((Text.Split.pieces '/' path.toList).getLastD []))

/-- A text without `suffix` at its end. -/
def withoutSuffix (suffix text : String) : String :=
  if suffix.toList.isSuffixOf text.toList then
    String.ofList (text.toList.take (text.length - suffix.length))
  else text

/-- Where the compiled form of a source goes: into `dir`, under the name of the source, with the
extension `.mid` in place of its own. -/
def output (dir source : String) : String :=
  join dir (withoutSuffix (extension source) (base source) ++ ".mid")

end DegreeScore.Path
