import DegreeScore.Files.Path
import DegreeScore.Text.Hex
import DegreeScore.Text.Numeral

/-!
# Request targets

A target is a path and, after a question mark, a query. Before the path it may name a scheme and the
host that is asked, as in `http://host/path`. In a path `%` and two hexadecimal digits stand for a byte,
so that paths are byte strings. A query is a list of parameters divided by `&`, each a name and a value
divided by `=`; in both a plus sign stands for a blank.

A target is written as it was read, except that every byte that may not stand in its part of the target
is escaped.
-/

namespace DegreeScore

/-- Who is asked: a host with its port, and a user with or without a password. -/
structure Authority where
  user : Option (Bytes × Option Bytes) := none
  host : Bytes := []
deriving Repr, DecidableEq

/-- What a request is addressed to. -/
structure Target where
  scheme : Option Bytes := none
  authority : Option Authority := none
  /-- What follows a scheme without a slash between them; such a target has no path. -/
  rootless : Bytes := []
  path : Bytes
  query : Option Bytes := none
  fragment : Bytes := []
deriving Repr, DecidableEq

namespace Target

/-- A part of a target in which some bytes stand for themselves. -/
inductive Part
  | user
  | host
  | path
  | fragment
deriving Repr, DecidableEq

/-- The marks that stand for themselves in a part, besides those that do so in every part. -/
def Part.marks : Part → Bytes
  | .user => Bytes.ofString "$&+,;="
  | .host => Bytes.ofString "!$&'()*+,;=:[]<>\""
  | .path => Bytes.ofString "$&+,/:;=@"
  | .fragment => Bytes.ofString "$&+,/:;=?@!()*"

/-- Whether a byte stands for itself in a part. -/
def Part.isPlain (p : Part) (b : UInt8) : Bool :=
  (97 ≤ b && b ≤ 122) || (65 ≤ b && b ≤ 90) || (48 ≤ b && b ≤ 57) ||
    (Bytes.ofString "-_.~").contains b || p.marks.contains b

/-- A percent sign and the hexadecimal digits of a byte. -/
def escapeByte (case : Text.Hex.Case) (b : UInt8) : Bytes :=
  37 :: (Text.Hex.byteDigits case b).map fun c => UInt8.ofNat c.toNat

/-- A part with the bytes escaped that do not stand for themselves in it. -/
def escape (p : Part) (bs : Bytes) : Bytes :=
  bs.flatMap fun b => if p.isPlain b then [b] else escapeByte .upper b

/-- A byte string with every byte beyond ASCII escaped. -/
def escapeNonAscii (bs : Bytes) : Bytes :=
  bs.flatMap fun b => if b < 128 then [b] else escapeByte .lower b

/-- Replaces the escapes of a byte string, and plus signs by blanks if `plus` is set. `none` if a
percent sign is not followed by two hexadecimal digits. -/
def unescape? (plus : Bool) : Bytes → Option Bytes
  | [] => some []
  | 37 :: a :: b :: rest => do
    let x ← Text.Hex.value? a
    let y ← Text.Hex.value? b
    let more ← unescape? plus rest
    return UInt8.ofNat (x * 16 + y) :: more
  | b :: rest =>
    if b = 37 then none
    else (unescape? plus rest).map ((if plus && b = 43 then 32 else b) :: ·)

/-- Replaces the escapes of a part. One in which they are wrong is taken as it is. -/
def unescape (bs : Bytes) : Bytes := (unescape? false bs).getD bs

/-- Whether a byte may belong to the name of a scheme. -/
def isSchemeByte (b : UInt8) : Bool :=
  let l := Text.Numeral.lower b
  (97 ≤ l && l ≤ 122) || Text.Numeral.isDigit b || b = 43 || b = 45 || b = 46

/-- The scheme at the front of a target, in lower case, and what follows its colon. A scheme begins with
a letter. -/
def scheme? (bs : Bytes) : Option (Bytes × Bytes) :=
  match bs.span isSchemeByte with
  | (b :: word, 58 :: rest) =>
    let l := Text.Numeral.lower b
    if 97 ≤ l ∧ l ≤ 122 then some ((b :: word).map Text.Numeral.lower, rest) else none
  | _ => none

end Target

namespace Authority

/-- The user before the last `@`, if there is one, and the host. -/
def ofBytes (bs : Bytes) : Authority :=
  match Text.Split.last 64 bs with
  | (none, host) => { host := Target.unescape host }
  | (some user, host) =>
    let (name, password) := Text.Split.first 58 user
    { user := some (Target.unescape name, password.map Target.unescape)
      host := Target.unescape host }

/-- An authority as it is written. -/
def written (a : Authority) : Bytes :=
  let user := match a.user with
    | none => []
    | some (name, none) => Target.escape .user name ++ [64]
    | some (name, some password) =>
      Target.escape .user name ++ [58] ++ Target.escape .user password ++ [64]
  user ++ Target.escape .host a.host

end Authority

namespace Target

/-- Reads a target. After a scheme, two slashes begin an authority, which ends before the next slash. -/
def ofString (s : String) : Target :=
  let (rest, query) := Text.Split.first 63 (Bytes.ofString s)
  match scheme? rest with
  | none => { path := unescape rest, query }
  | some (scheme, rest) =>
    match rest with
    | [] => { scheme := some scheme, authority := some {}, path := [], query }
    | 47 :: 47 :: rest =>
      let (authority, path) := rest.span (· ≠ 47)
      { scheme := some scheme, authority := some (.ofBytes authority), path := unescape path, query }
    | 47 :: _ => { scheme := some scheme, path := unescape rest, query }
    | _ => { scheme := some scheme, rootless := rest, path := [], query }

/-- Reads the target of a request. A request to connect names an authority alone. -/
def ofRequest (method target : String) : Target :=
  if method = "CONNECT" ∧ ¬ Path.isAbsolute target then
    { ofString ("http://" ++ target) with scheme := none }
  else ofString target

/-- The name and the value of a parameter. One with a semicolon or a wrong escape does not count. -/
def parameter? (bs : Bytes) : Option (Bytes × Bytes) :=
  if bs = [] ∨ bs.contains 59 then none
  else
    let (name, value) := Text.Split.first 61 bs
    match unescape? true name, unescape? true (value.getD []) with
    | some name, some value => some (name, value)
    | _, _ => none

/-- The parameters of the query, in order. -/
def parameters (t : Target) : List (Bytes × Bytes) :=
  (Text.Split.pieces 38 (t.query.getD [])).filterMap parameter?

/-- The first value of a parameter. -/
def parameterValue? (t : Target) (name : String) : Option Bytes :=
  t.parameters.lookup (Bytes.ofString name)

/-- Whether a byte may stand in a fragment, alone or as part of an escape. -/
def isFragmentByte (b : UInt8) : Bool :=
  Part.fragment.isPlain b || (Bytes.ofString "'[]%").contains b

/-- A fragment as it is written: as it was read if it may stand so, otherwise escaped anew. -/
def writtenFragment (bs : Bytes) : Bytes :=
  if bs.all isFragmentByte then bs else escape .fragment (unescape bs)

/-- What stands before the path of a target. -/
def writtenOrigin (t : Target) : Bytes :=
  let scheme := match t.scheme with
    | some s => s ++ [58]
    | none => []
  match t.authority with
  | some a =>
    if t.scheme.isSome ∨ a.host ≠ [] ∨ a.user.isSome then scheme ++ [47, 47] ++ a.written else scheme
  | none => scheme

/-- The target as it is written. -/
def written (t : Target) : Bytes :=
  t.writtenOrigin ++ (if t.rootless = [] then escape .path t.path else t.rootless) ++
    (match t.query with
      | some query => 63 :: query
      | none => []) ++
    (if t.fragment = [] then [] else 35 :: writtenFragment t.fragment)

/-- The target with what follows a number sign in its query as a fragment. -/
def splitFragment (t : Target) : Target :=
  match t.query with
  | none => t
  | some query =>
    let (query, fragment) := Text.Split.first 35 query
    { t with query := some query, fragment := fragment.getD [] }

/-- The path without superfluous names and slashes; a slash at its end stays. -/
def cleanPath (path : Bytes) : Bytes :=
  let rooted := if path.head? = some 47 then path else 47 :: path
  let cleaned := Path.shortest 47 46 rooted
  if rooted.getLast? = some 47 ∧ cleaned ≠ [47] then cleaned ++ [47] else cleaned

end Target

end DegreeScore
