/-!
# Sorting

A stable sort by a test: `le a b` says that `a` may stay before `b`. Runs of `runLength` elements
are sorted by insertion, and neighbouring runs are merged until one is left. Two runs are merged by
halves: both are cut so that their first parts hold half of all elements and nothing in the first
parts has to come after anything in the second.

The test need not be transitive; then the result depends on which elements are compared, and these
are the comparisons described here. Whatever the test, `sort_perm` says that no element is lost or
added.
-/

namespace DegreeScore.Sorting

variable {α : Type}

/-- The index from `lo` to `hi` at which `p` stops to hold, found by halving. -/
def search (p : Nat → Bool) (lo hi : Nat) : Nat :=
  if lo < hi then
    let middle := (lo + hi) / 2
    if p middle then search p (middle + 1) hi else search p lo middle
  else lo
termination_by hi - lo

theorem le_search (p : Nat → Bool) (lo hi : Nat) : lo ≤ search p lo hi := by
  fun_induction search p lo hi with
  | case1 => omega
  | case2 _ _ _ _ _ ih => exact ih
  | case3 => exact Nat.le_refl _

theorem search_le (p : Nat → Bool) {lo hi : Nat} (h : lo ≤ hi) : search p lo hi ≤ hi := by
  fun_induction search p lo hi with
  | case1 _ _ _ _ _ ih => exact ih (by omega)
  | case2 _ _ _ _ _ ih => exact Nat.le_trans (ih (by omega)) (by omega)
  | case3 => exact h

/-- Whether one element may stay before another, where both are there. -/
def inOrder (le : α → α → Bool) : Option α → Option α → Bool
  | some a, some b => le a b
  | _, _ => true

/-- Where to cut `xs` so that it gives its share to the first `half` elements of the two runs. The
test compares the elements that meet at the cut: the further one run goes, the less the other
does. -/
def cut (le : α → α → Bool) (xs ys : Array α) (half : Nat) : Nat :=
  search (fun i => inOrder le xs[i]? ys[half - 1 - i]?) (half - ys.size) (min xs.size half)

theorem cut_le (le : α → α → Bool) (xs ys : Array α) (half : Nat) (h : half ≤ xs.size + ys.size) :
    cut le xs ys half ≤ min xs.size half :=
  search_le _ (by omega)

theorem sub_cut_le (le : α → α → Bool) (xs ys : Array α) (half : Nat) :
    half - cut le xs ys half ≤ ys.size := by
  have h : half - ys.size ≤ cut le xs ys half := le_search _ _ _
  omega

/-- Merges two runs. Among elements that may stand in either order those of `xs` come first. -/
def merge (le : α → α → Bool) (xs ys : Array α) : Array α :=
  if xs.size = 0 ∨ ys.size = 0 then xs ++ ys
  else if xs.size = 1 then
    let i := search (fun i => !inOrder le xs[0]? ys[i]?) 0 ys.size
    ys.take i ++ xs ++ ys.drop i
  else if ys.size = 1 then
    let i := search (fun i => inOrder le xs[i]? ys[0]?) 0 xs.size
    xs.take i ++ ys ++ xs.drop i
  else
    let half := (xs.size + ys.size) / 2
    let i := cut le xs ys half
    merge le (xs.take i) (ys.take (half - i)) ++ merge le (xs.drop i) (ys.drop (half - i))
termination_by xs.size + ys.size
decreasing_by
  all_goals
    have := cut_le le xs ys ((xs.size + ys.size) / 2) (by omega)
    have := sub_cut_le le xs ys ((xs.size + ys.size) / 2)
    simp only [Array.take_eq_extract, Array.drop_eq_extract, Array.size_extract]
    omega

theorem toList_take (xs : Array α) (i : Nat) : (xs.take i).toList = xs.toList.take i := by
  rw [Array.take_eq_extract, Array.toList_extract, List.extract_eq_take_drop, List.drop_zero,
    Nat.sub_zero]

theorem toList_drop (xs : Array α) (i : Nat) : (xs.drop i).toList = xs.toList.drop i := by
  rw [Array.drop_eq_extract, Array.toList_extract, List.extract_eq_take_drop]
  exact List.take_of_length_le (Nat.le_of_eq (by rw [List.length_drop, Array.length_toList]))

theorem take_append_drop (xs : Array α) (i : Nat) :
    (xs.take i).toList ++ (xs.drop i).toList = xs.toList := by
  rw [toList_take, toList_drop, List.take_append_drop]

theorem merge_perm (le : α → α → Bool) (xs ys : Array α) :
    (merge le xs ys).toList.Perm (xs.toList ++ ys.toList) := by
  fun_induction merge le xs ys with
  | case1 xs ys => simp
  | case2 xs ys _ _ i =>
    rw [← take_append_drop ys i, ← List.append_assoc, Array.toList_append, Array.toList_append]
    exact List.perm_append_comm.append_right _
  | case3 xs ys _ _ _ i =>
    rw [← take_append_drop xs i, List.append_assoc, Array.toList_append, Array.toList_append,
      List.append_assoc]
    exact List.perm_append_comm.append_left _
  | case4 xs ys _ _ _ half i first second =>
    rw [← take_append_drop xs i, ← take_append_drop ys (half - i), Array.toList_append]
    refine (first.append second).trans ?_
    simp only [List.append_assoc]
    exact (List.perm_append_comm_assoc _ _ _).append_left _

/-- How many elements are sorted by insertion before runs are merged. -/
def runLength : Nat := 20

/-- Puts an element into a run that is written last element first: it moves past those that it may
not stay behind. -/
def place (le : α → α → Bool) (a : α) : List α → List α
  | [] => [a]
  | b :: run => if le b a then a :: b :: run else b :: place le a run

/-- The sorted runs of a list, given the run being filled, last element first, and the room left
in it. -/
def runsFrom (le : α → α → Bool) : List α → Nat → List α → List (Array α)
  | [], _, run => [run.reverse.toArray]
  | a :: rest, 0, run => run.reverse.toArray :: runsFrom le rest (runLength - 1) [a]
  | a :: rest, room + 1, run => runsFrom le rest room (place le a run)

/-- Merges each run at an even place with the one after it. -/
def mergePairs (le : α → α → Bool) : List (Array α) → List (Array α)
  | xs :: ys :: rest => merge le xs ys :: mergePairs le rest
  | runs => runs

theorem length_mergePairs (le : α → α → Bool) (runs : List (Array α)) :
    (mergePairs le runs).length = (runs.length + 1) / 2 := by
  fun_induction mergePairs le runs with
  | case1 _ _ _ ih => simp only [List.length_cons, ih]; omega
  | case2 runs h =>
    match runs, h with
    | [], _ => simp
    | [_], _ => simp
    | _ :: _ :: _, h => exact absurd rfl (h _ _ _)

/-- Merges runs in passes until one is left. -/
def mergeAll (le : α → α → Bool) (runs : List (Array α)) : Array α :=
  match runs with
  | [] => #[]
  | [run] => run
  | xs :: ys :: rest => mergeAll le (mergePairs le (xs :: ys :: rest))
termination_by runs.length
decreasing_by
  rw [length_mergePairs]
  simp only [List.length_cons]
  omega

/-- The elements of a list, sorted. -/
def sort (le : α → α → Bool) (as : List α) : List α :=
  (mergeAll le (runsFrom le as runLength [])).toList

theorem place_perm (le : α → α → Bool) (a : α) (run : List α) :
    (place le a run).Perm (a :: run) := by
  induction run with
  | nil => exact .refl _
  | cons b run ih =>
    rw [place]
    split
    · exact .refl _
    · exact (ih.cons b).trans (.swap a b run)

theorem runsFrom_perm (le : α → α → Bool) (as : List α) (room : Nat) (run : List α) :
    ((runsFrom le as room run).flatMap Array.toList).Perm (run ++ as) := by
  induction as generalizing room run with
  | nil => simp [runsFrom, List.reverse_perm]
  | cons a rest ih =>
    match room with
    | 0 =>
      simp only [runsFrom, List.flatMap_cons]
      exact (List.reverse_perm run).append (ih _ _)
    | room + 1 =>
      refine (ih _ _).trans (((place_perm le a run).append_right rest).trans ?_)
      exact List.perm_middle.symm

theorem mergePairs_perm (le : α → α → Bool) (runs : List (Array α)) :
    ((mergePairs le runs).flatMap Array.toList).Perm (runs.flatMap Array.toList) := by
  fun_induction mergePairs le runs with
  | case1 xs ys rest ih =>
    simp only [List.flatMap_cons, ← List.append_assoc]
    exact (merge_perm le xs ys).append ih
  | case2 => exact .refl _

theorem mergeAll_perm (le : α → α → Bool) (runs : List (Array α)) :
    (mergeAll le runs).toList.Perm (runs.flatMap Array.toList) := by
  fun_induction mergeAll le runs with
  | case1 => exact .refl _
  | case2 run => simp
  | case3 xs ys rest ih => exact ih.trans (mergePairs_perm le _)

theorem sort_perm (le : α → α → Bool) (as : List α) : (sort le as).Perm as :=
  (mergeAll_perm le _).trans (runsFrom_perm le as runLength [])

end DegreeScore.Sorting
