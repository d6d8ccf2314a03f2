import DegreeScore.Chord
import Mathlib.Data.List.Basic

/-!
# Chords that have one text

The text of a chord is made of the numerals of its keys in ascending order, with hyphens between them.
A numeral is neither empty nor has it a hyphen in it, so the numerals can be told from the text
(`Chord.hyphenated_injective`), and a list in ascending order is determined by how often each key is in
it. So two lists of keys have one text exactly if one is the other in another order
(`Chord.keyText_eq_iff`), in which a key that is there twice counts twice.
-/

namespace DegreeScore.Chord

-- ════════════════════════════════════════════════════════════════════════
-- Numerals with hyphens between them
-- ════════════════════════════════════════════════════════════════════════

/-- Numerals with hyphens between them. -/
def hyphenated (ns : List Nat) : String := "-".intercalate (ns.map toString)

theorem toList_numeral (n : Nat) : (toString n).toList = Nat.toDigits 10 n := by
  rw [Nat.toString_eq_repr, Nat.toList_repr]

theorem hyphen_notMem_toDigits (n : Nat) : '-' ∉ Nat.toDigits 10 n := by
  intro hmem
  have hdigit := Nat.isDigit_of_mem_toDigits (by decide) (by decide) hmem
  exact absurd hdigit (by decide)

theorem toDigits_injective : Function.Injective (Nat.toDigits 10) :=
  Function.LeftInverse.injective (g := fun digits => Nat.ofDigitChars 10 digits 0)
    fun _ => Nat.ofDigitChars_toDigits (by decide) (by decide)

theorem toList_hyphenated (ns : List Nat) :
    (hyphenated ns).toList = ['-'].intercalate (ns.map (Nat.toDigits 10)) := by
  rw [hyphenated, String.toList_intercalate, List.map_map]
  congr 1
  exact List.map_congr_left fun n _ => toList_numeral n

/-- The numerals are what stands between the hyphens. -/
theorem splitOn_hyphenated {ns : List Nat} (h : ns ≠ []) :
    (hyphenated ns).toList.splitOn '-' = ns.map (Nat.toDigits 10) := by
  rw [toList_hyphenated]
  apply List.splitOn_intercalate
  · intro digits hdigits
    obtain ⟨n, -, rfl⟩ := List.mem_map.1 hdigits
    exact hyphen_notMem_toDigits n
  · exact fun hnil => h (List.map_eq_nil_iff.1 hnil)

/-- There is no text without a numeral but the empty one. -/
theorem hyphenated_eq_empty_iff {ns : List Nat} : hyphenated ns = "" ↔ ns = [] := by
  constructor
  · intro hempty
    by_contra hne
    have hsplit := splitOn_hyphenated hne
    rw [hempty] at hsplit
    obtain ⟨n, rest, rfl⟩ := List.exists_cons_of_ne_nil hne
    exact Nat.toDigits_ne_nil (List.cons.inj hsplit).1.symm
  · rintro rfl
    rfl

theorem hyphenated_injective : Function.Injective hyphenated := by
  intro ms ns h
  by_cases hms : ms = []
  · rw [hms, eq_comm, ← hyphenated_eq_empty_iff, ← h, hyphenated_eq_empty_iff, hms]
  · have hns : ns ≠ [] := by
      rwa [Ne, ← hyphenated_eq_empty_iff, ← h, hyphenated_eq_empty_iff]
    apply List.map_injective_iff.2 toDigits_injective
    rw [← splitOn_hyphenated hms, ← splitOn_hyphenated hns, h]

-- ════════════════════════════════════════════════════════════════════════
-- Keys in ascending order
-- ════════════════════════════════════════════════════════════════════════

/-- The keys in ascending order. -/
def ascending (keys : List UInt8) : List UInt8 := keys.mergeSort fun a b => a ≤ b

theorem pairwise_ascending (keys : List UInt8) : (ascending keys).Pairwise (· ≤ ·) := by
  have hsorted : (ascending keys).Pairwise fun a b => decide (a ≤ b) = true := by
    apply List.pairwise_mergeSort
    · intro a b c hab hbc
      rw [decide_eq_true_iff] at *
      exact UInt8.le_trans hab hbc
    · intro a b
      rw [Bool.or_eq_true, decide_eq_true_iff, decide_eq_true_iff]
      exact UInt8.le_total a b
  exact hsorted.imp of_decide_eq_true

theorem ascending_eq_iff {a b : List UInt8} : ascending a = ascending b ↔ a.Perm b := by
  have ha : (ascending a).Perm a := List.mergeSort_perm ..
  have hb : (ascending b).Perm b := List.mergeSort_perm ..
  constructor
  · intro h
    rw [h] at ha
    exact ha.symm.trans hb
  · intro h
    refine List.Perm.eq_of_pairwise ?_ (pairwise_ascending a) (pairwise_ascending b)
      (ha.trans (h.trans hb.symm))
    exact fun x y _ _ hxy hyx => UInt8.le_antisymm hxy hyx

theorem keyText_eq_hyphenated (keys : List UInt8) :
    keyText keys = hyphenated ((ascending keys).map (·.toNat)) := by
  rw [hyphenated, List.map_map]
  rfl

/-- Two lists of keys have one text exactly if they have the same keys, each equally often. -/
theorem keyText_eq_iff (a b : List UInt8) : keyText a = keyText b ↔ a.Perm b := by
  have hnumbers : Function.Injective fun k : UInt8 => k.toNat := fun _ _ => UInt8.toNat_inj.1
  rw [keyText_eq_hyphenated, keyText_eq_hyphenated, hyphenated_injective.eq_iff,
    (List.map_injective_iff.2 hnumbers).eq_iff, ascending_eq_iff]

end DegreeScore.Chord
