/-!
# Splitting

A list is cut at every occurrence of a mark. `Split.pieces` keeps the empty pieces, so that the pieces
with the mark between them are the list again.
-/

namespace DegreeScore.Text.Split

variable {α : Type} [DecidableEq α]

/-- The pieces between the marks, at least one. -/
def pieces (mark : α) : List α → List (List α)
  | [] => [[]]
  | a :: rest =>
    if a = mark then [] :: pieces mark rest
    else match pieces mark rest with
      | first :: more => (a :: first) :: more
      | [] => [[a]]

/-- What stands before the first mark, and what follows it if there is one. -/
def first (mark : α) (l : List α) : List α × Option (List α) :=
  match l.span (· ≠ mark) with
  | (before, []) => (before, none)
  | (before, _ :: after) => (before, some after)

/-- What stands before the last mark if there is one, and what follows it. -/
def last (mark : α) (l : List α) : Option (List α) × List α :=
  match first mark l.reverse with
  | (after, none) => (none, after.reverse)
  | (after, some before) => (some before.reverse, after.reverse)

end DegreeScore.Text.Split
