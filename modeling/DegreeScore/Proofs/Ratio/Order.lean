import DegreeScore.Proofs.Ratio
import Mathlib.Order.Bounds.Basic
import Mathlib.Order.Defs.Unbundled

/-!
# The order of fractions

Fractions with a positive denominator are compared as the rational numbers they stand for, whether
their cross products fit in words or not. So `less` is a strict weak order, in which fractions of
one value are equivalent; on fractions in lowest terms it is a strict total order. The later of two
fractions is their least upper bound (`Ratio.orders_exactly`).
-/

namespace DegreeScore

namespace Ratio

/-- The fractions with a positive denominator. -/
def Fraction : Type := {r : Ratio // r.Proper}

/-- The fractions in lowest terms. -/
def LowestFraction : Type := {r : Ratio // r.IsLowest}

theorem proper_max {r o : Ratio} (hr : r.Proper) (ho : o.Proper) : (r.max o).Proper := by
  obtain ⟨h | h, -⟩ := max_spec hr ho
  · rw [h]
    exact hr
  · rw [h]
    exact ho

namespace Fraction

variable {r o : Fraction}

theorem less_iff : r.val.less o.val = true ↔ r.val.value < o.val.value :=
  Ratio.less_iff r.property o.property

/-- One fraction is at most another if the other does not come before it. -/
instance : Preorder Fraction where
  le r o := ¬o.val.less r.val
  lt r o := r.val.less o.val
  le_refl r := by
    rw [less_iff]
    exact lt_irrefl _
  le_trans r o s hro hos := by
    rw [less_iff, not_lt] at hro hos ⊢
    exact hro.trans hos
  lt_iff_le_not_ge r o := by
    rw [less_iff, less_iff, not_lt, not_not]
    exact ⟨fun h => ⟨h.le, h⟩, fun h => h.2⟩

theorem le_iff : r ≤ o ↔ r.val.value ≤ o.val.value := by
  rw [← not_lt, ← less_iff]
  exact Iff.rfl

/-- The later of two fractions. -/
def later (r o : Fraction) : Fraction := ⟨r.val.max o.val, proper_max r.property o.property⟩

theorem value_later (r o : Fraction) :
    (r.later o).val.value = Max.max r.val.value o.val.value :=
  (max_spec r.property o.property).2

theorem isLUB_later (r o : Fraction) : IsLUB {r, o} (r.later o) := by
  refine ⟨?_, fun s hs => ?_⟩
  · rintro s (rfl | rfl)
    · rw [le_iff, value_later]
      exact le_max_left ..
    · rw [le_iff, value_later]
      exact le_max_right ..
  · have hr := hs (Set.mem_insert r _)
    have ho := hs (Set.mem_insert_of_mem r (Set.mem_singleton o))
    rw [le_iff] at hr ho ⊢
    rw [value_later]
    exact max_le hr ho

/-- Fractions of which neither comes first have one value, so this is an equivalence. -/
theorem isStrictWeakOrder_less :
    IsStrictWeakOrder Fraction fun r o => r.val.less o.val = true where
  irrefl r := by
    rw [less_iff]
    exact lt_irrefl _
  trans r o s := by
    rw [less_iff, less_iff, less_iff]
    exact lt_trans
  incomp_trans r o s := by
    simp only [less_iff, not_lt]
    exact fun hro hos => ⟨hos.1.trans hro.1, hro.2.trans hos.2⟩

end Fraction

theorem isStrictTotalOrder_less :
    IsStrictTotalOrder LowestFraction fun r o => r.val.less o.val = true where
  trichotomous r o hro hor := by
    rw [less_iff r.property.proper o.property.proper, not_lt] at hro
    rw [less_iff o.property.proper r.property.proper, not_lt] at hor
    exact Subtype.ext (r.property.eq_of_value_eq o.property (le_antisymm hor hro))
  irrefl r := by
    rw [less_iff r.property.proper r.property.proper]
    exact lt_irrefl _
  trans r o s := by
    rw [less_iff r.property.proper o.property.proper, less_iff o.property.proper s.property.proper,
      less_iff r.property.proper s.property.proper]
    exact lt_trans

/-- Comparison gives the sign of the difference. By it fractions are in a strict weak order, those
in lowest terms in a strict total one, and the later of two fractions is their least upper bound. -/
theorem orders_exactly :
    (∀ r o : Fraction, r.val.cmp o.val = compare (r.val.value - o.val.value) 0) ∧
    IsStrictWeakOrder Fraction (fun r o => r.val.less o.val = true) ∧
    IsStrictTotalOrder LowestFraction (fun r o => r.val.less o.val = true) ∧
    ∀ r o : Fraction, IsLUB {r, o} (r.later o) := by
  refine ⟨fun r o => ?_, Fraction.isStrictWeakOrder_less, isStrictTotalOrder_less,
    Fraction.isLUB_later⟩
  rw [cmp_eq_compare_value r.property o.property]
  rcases lt_trichotomy r.val.value o.val.value with h | h | h
  · rw [compare_lt_iff_lt.2 h, compare_lt_iff_lt.2 (sub_neg.2 h)]
  · rw [compare_eq_iff_eq.2 h, compare_eq_iff_eq.2 (sub_eq_zero.2 h)]
  · rw [compare_gt_iff_gt.2 h, compare_gt_iff_gt.2 (sub_pos.2 h)]

/-- The cross products do not fit in words and differ by one. -/
example : cmp ⟨4611686018427387905, 4611686018427387904⟩
    ⟨4611686018427387906, 4611686018427387905⟩ = .gt := by decide +kernel

end Ratio

end DegreeScore
