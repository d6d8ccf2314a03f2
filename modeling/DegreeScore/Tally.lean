import Std.Data.TreeMap

/-!
# Tallies

A tally says how often each of some things is there, and lists those that are there in their order.
`count` is the view: `count_more` and `count_less` say what the operations do to it.
-/

namespace DegreeScore

/-- How often things are there. What is not there has no entry. -/
structure Tally (α : Type) (cmp : α → α → Ordering) where
  entries : Std.TreeMap α Nat cmp := ∅
deriving Repr

namespace Tally

variable {α : Type} {cmp : α → α → Ordering}

/-- How often a thing is there. -/
def count (t : Tally α cmp) (a : α) : Nat := t.entries.getD a 0

/-- One more of a thing. -/
def more (t : Tally α cmp) (a : α) : Tally α cmp := ⟨t.entries.insert a (t.count a + 1)⟩

/-- One less of a thing, if it is there. -/
def less (t : Tally α cmp) (a : α) : Tally α cmp :=
  ⟨if t.count a ≤ 1 then t.entries.erase a else t.entries.insert a (t.count a - 1)⟩

/-- The things that are there, in ascending order. -/
def toList (t : Tally α cmp) : List α := t.entries.keys

/-- Whether nothing is there. -/
def isEmpty (t : Tally α cmp) : Bool := t.entries.isEmpty

theorem count_more [Std.TransCmp cmp] (t : Tally α cmp) (a b : α) :
    (t.more a).count b = if cmp a b = .eq then t.count a + 1 else t.count b := by
  simp only [count, more, Std.TreeMap.getD_insert]

theorem count_less [Std.TransCmp cmp] (t : Tally α cmp) (a b : α) :
    (t.less a).count b = if cmp a b = .eq then t.count a - 1 else t.count b := by
  unfold less
  by_cases h : t.count a ≤ 1
  · rw [if_pos h, Nat.sub_eq_zero_of_le h]
    exact Std.TreeMap.getD_erase
  · rw [if_neg h]
    exact Std.TreeMap.getD_insert

end Tally

end DegreeScore
