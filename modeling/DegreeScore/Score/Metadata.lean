import DegreeScore.Text.Numeral
import Std.Data.TreeMap

/-!
# Metadata

The block after the score: a table of numbers, texts, lists and further tables. A table keeps its
entries in the order of their keys, and a later entry replaces an earlier one under the same key.
-/

namespace DegreeScore

/-- A value of the metadata block. -/
inductive Metadata
  | number (n : Int64)
  | text (t : Bytes)
  | list (items : List Metadata)
  | table (entries : List (Bytes × Metadata))
deriving Repr

/-- Entries in ascending order of their keys, which are ordered byte by byte. -/
abbrev Table := List (Bytes × Metadata)

/-- Entries being collected. A later one replaces an earlier one under the same key. -/
abbrev Entries := Std.TreeMap Bytes Metadata

namespace Table

/-- The value under a key. -/
def get? (key : Bytes) (t : Table) : Option Metadata := t.lookup key

/-- The table with these entries, of which the last one under a key counts. -/
def ofList (entries : List (Bytes × Metadata)) : Table :=
  (entries.foldl (fun t e => t.insert e.1 e.2) (∅ : Entries)).toList

end Table

namespace Metadata

mutual

/-- A value as messages show it, in front of the bytes `rest`. -/
def shownBefore : Metadata → Bytes → Bytes
  | .number n, rest => Bytes.ofString (toString n.toInt) ++ rest
  | .text t, rest => t ++ rest
  | .list items, rest => 91 :: itemsBefore items (93 :: rest)
  | .table entries, rest => Bytes.ofString "map[" ++ entriesBefore entries (93 :: rest)

/-- The items of a list with blanks between them, in front of `rest`. -/
def itemsBefore : List Metadata → Bytes → Bytes
  | [], rest => rest
  | [v], rest => shownBefore v rest
  | v :: w :: more, rest => shownBefore v (32 :: itemsBefore (w :: more) rest)

/-- The entries of a table with blanks between them, in front of `rest`. -/
def entriesBefore : List (Bytes × Metadata) → Bytes → Bytes
  | [], rest => rest
  | [(k, v)], rest => k ++ 58 :: shownBefore v rest
  | (k, v) :: e :: more, rest => k ++ 58 :: shownBefore v (32 :: entriesBefore (e :: more) rest)

end

/-- A value as messages show it: texts as they are, lists and tables in brackets. -/
def shown (v : Metadata) : Bytes := v.shownBefore []

end Metadata

end DegreeScore
