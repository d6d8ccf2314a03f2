import DegreeScore.Proofs.Ratio
import Mathlib.RingTheory.Coprime.Lemmas

/-!
# Sums, differences and products are exact or refused

The operations find a fraction exactly if every number on the way to it fits in a word: for a sum or
a difference over the least common denominator, for a product in lowest terms. What they find has
the exact value and is again in lowest terms, unless its numerator is the least word, which has no
magnitude (`Ratio.exact_or_refused`). A difference is the sum with the opposite fraction and is
refused as such.
-/

namespace DegreeScore

namespace Ratio

/-- A fraction as the operations take it: zero, or in lowest terms, over a positive denominator. Its
numerator has an opposite. -/
structure Canonical (r : Ratio) : Prop where
  least : -2 ^ 63 < r.num.toInt
  proper : r.Proper
  lowest : r.num = 0 ∨ r.IsLowest

/-- An operation finds a fraction with a value exactly if `fits` holds, and otherwise refuses. The
fraction has a positive denominator and, but for an exception, is in lowest terms. -/
structure ExactIf (fits : Prop) (value : ℚ) (exception : Prop) (refusal : Overflow)
    (result : Except Overflow Ratio) : Prop where
  found : fits → ∃ s, result = .ok s ∧ s.value = value ∧ s.Proper ∧ (¬exception → s.IsLowest)
  refused : ¬fits → result = .error refusal

variable {r o : Ratio}

-- ════════════════════════════════════════════════════════════════════════
-- Sums and differences
-- ════════════════════════════════════════════════════════════════════════

theorem exactIf_add (hr : r.Proper) (ho : o.Proper) :
    ExactIf (r.TermsFit o) (r.value + o.value) (r.commonNum o = -2 ^ 63) ⟨r, .add, o⟩
      (r.add o) where
  found h := by
    obtain ⟨num, den, hnum, hden, hok⟩ := add_of_termsFit hr ho h
    have hpos : 0 < den.toInt := hden ▸ commonDen_pos hr ho
    refine ⟨_, hok, ?_, proper_reduce hpos, fun hleast => isLowest_reduce ?_ hpos⟩
    · rw [value_reduce hpos, value_add_value hr ho, hnum, hden]
    · have := num.le_toInt
      omega
  refused := add_of_not_termsFit hr ho

/-- The fraction with the opposite numerator. -/
def opposite (r : Ratio) : Ratio := ⟨-r.num, r.den⟩

theorem toInt_neg_of_least {a : Int64} (h : -2 ^ 63 < a.toInt) : (-a).toInt = -a.toInt := by
  have := a.toInt_lt
  rw [Int64.toInt_neg, Fits.bmod_eq ⟨by omega, by omega⟩]

theorem value_opposite (h : -2 ^ 63 < r.num.toInt) : r.opposite.value = -r.value := by
  rw [value, value, opposite, toInt_neg_of_least h, Int.cast_neg, neg_div]

theorem sub_eq_add_opposite (h : -2 ^ 63 < o.num.toInt) : r.sub o = r.add o.opposite := by
  have hne : o.num ≠ Int64.minValue := by
    intro hmin
    rw [hmin] at h
    exact absurd h (by decide)
  rw [sub, if_neg hne, opposite]

theorem exactIf_sub (hr : r.Proper) (ho : o.Proper) (hleast : -2 ^ 63 < o.num.toInt) :
    ExactIf (r.TermsFit o.opposite) (r.value - o.value) (r.commonNum o.opposite = -2 ^ 63)
      ⟨r, .add, o.opposite⟩ (r.sub o) := by
  rw [sub_eq_add_opposite hleast, sub_eq_add_neg, ← value_opposite hleast]
  exact exactIf_add hr ho

-- ════════════════════════════════════════════════════════════════════════
-- Products
-- ════════════════════════════════════════════════════════════════════════

/-- The numerator of a product, after what it has in common with the denominators is taken out
crosswise. -/
def crossNum (r o : Ratio) : ℤ :=
  r.num.toInt / Int.gcd r.num.toInt o.den.toInt * (o.num.toInt / Int.gcd o.num.toInt r.den.toInt)

/-- The denominator of a product, after what it has in common with the numerators is taken out
crosswise. -/
def crossDen (r o : Ratio) : ℤ :=
  r.den.toInt / Int.gcd o.num.toInt r.den.toInt * (o.den.toInt / Int.gcd r.num.toInt o.den.toInt)

theorem gcd_den_pos (a : ℤ) (hr : r.Proper) : (0 : ℤ) < Int.gcd a r.den.toInt := by
  exact_mod_cast Int.gcd_pos_of_ne_zero_right a (ne_of_gt hr)

theorem crossDen_pos (hr : r.Proper) (ho : o.Proper) : 0 < r.crossDen o :=
  mul_pos
    (Int.ediv_pos_of_pos_of_dvd hr (gcd_den_pos _ hr).le (Int.gcd_dvd_right ..))
    (Int.ediv_pos_of_pos_of_dvd ho (gcd_den_pos _ ho).le (Int.gcd_dvd_right ..))

theorem value_mul_value (hr : r.Proper) (ho : o.Proper) :
    r.value * o.value = r.crossNum o / r.crossDen o := by
  have hg : (Int.gcd r.num.toInt o.den.toInt : ℚ) ≠ 0 := by
    exact_mod_cast (gcd_den_pos r.num.toInt ho).ne'
  have hg' : (Int.gcd o.num.toInt r.den.toInt : ℚ) ≠ 0 := by
    exact_mod_cast (gcd_den_pos o.num.toInt hr).ne'
  have hrd := hr.cast_pos.ne'
  have hod := ho.cast_pos.ne'
  rw [value, value, crossNum, crossDen, Int.cast_mul, Int.cast_mul,
    Int.cast_div (Int.gcd_dvd_left ..) (by exact_mod_cast hg),
    Int.cast_div (Int.gcd_dvd_left ..) (by exact_mod_cast hg'),
    Int.cast_div (Int.gcd_dvd_right ..) (by exact_mod_cast hg'),
    Int.cast_div (Int.gcd_dvd_right ..) (by exact_mod_cast hg)]
  push_cast
  field_simp

/-- Taken crosswise out of lowest terms, the terms of a product have nothing in common. -/
theorem isCoprime_cross (hr : r.IsLowest) (ho : o.IsLowest) :
    IsCoprime (r.crossNum o) (r.crossDen o) := by
  have hrc : IsCoprime r.num.toInt r.den.toInt := Int.isCoprime_iff_gcd_eq_one.2 hr.lowest
  have hoc : IsCoprime o.num.toInt o.den.toInt := Int.isCoprime_iff_gcd_eq_one.2 ho.lowest
  have hcross : ∀ {a d : ℤ}, d ≠ 0 → IsCoprime (a / Int.gcd a d) (d / Int.gcd a d) := fun hd =>
    Int.isCoprime_iff_gcd_eq_one.2 (Int.gcd_div_gcd_div_gcd (Int.gcd_pos_of_ne_zero_right _ hd))
  have hpart : ∀ {a b : ℤ} {m n : ℤ}, m ∣ a → n ∣ b → IsCoprime a b → IsCoprime (a / m) (b / n) :=
    fun hm hn h =>
      (h.of_isCoprime_of_dvd_left (Int.ediv_dvd_of_dvd hm)).of_isCoprime_of_dvd_right
        (Int.ediv_dvd_of_dvd hn)
  refine IsCoprime.mul_left (IsCoprime.mul_right ?_ ?_) (IsCoprime.mul_right ?_ ?_)
  · exact hpart (Int.gcd_dvd_left ..) (Int.gcd_dvd_right ..) hrc
  · exact hcross (ne_of_gt ho.proper)
  · exact hcross (ne_of_gt hr.proper)
  · exact hpart (Int.gcd_dvd_left ..) (Int.gcd_dvd_right ..) hoc

/-- The factors that are multiplied in words. -/
theorem toInt_cross (hr : r.Canonical) (ho : o.Canonical) :
    (r.num / gcd r.num o.den).toInt * (o.num / gcd o.num r.den).toInt = r.crossNum o ∧
      (r.den / gcd o.num r.den).toInt * (o.den / gcd r.num o.den).toInt = r.crossDen o := by
  have hlow : ∀ {x : Ratio}, x.Proper → -2 ^ 63 < x.den.toInt := fun hx =>
    lt_trans (by decide) hx
  have hg := toInt_gcd hr.least (hlow ho.proper)
  have hg' := toInt_gcd ho.least (hlow hr.proper)
  have hpos : 0 < (gcd r.num o.den).toInt := hg ▸ gcd_den_pos _ ho.proper
  have hpos' : 0 < (gcd o.num r.den).toInt := hg' ▸ gcd_den_pos _ hr.proper
  constructor
  · rw [toInt_div_of_dvd hpos (hg ▸ Int.gcd_dvd_left ..),
      toInt_div_of_dvd hpos' (hg' ▸ Int.gcd_dvd_left ..), hg, hg', crossNum]
  · rw [toInt_div_of_dvd hpos' (hg' ▸ Int.gcd_dvd_right ..),
      toInt_div_of_dvd hpos (hg ▸ Int.gcd_dvd_right ..), hg, hg', crossDen]

theorem mul_of_fits (hr : r.Canonical) (ho : o.Canonical) (hnum : Fits (r.crossNum o))
    (hden : Fits (r.crossDen o)) : ∃ num den : Int64,
      num.toInt = r.crossNum o ∧ den.toInt = r.crossDen o ∧ r.mul o = .ok (reduce num den) := by
  obtain ⟨hnums, hdens⟩ := toInt_cross hr ho
  obtain ⟨num, hn⟩ := hnum.exists_toInt
  obtain ⟨den, hd⟩ := hden.exists_toInt
  have hn? := mul?_eq_some_iff.2 (hn.trans hnums.symm)
  have hd? := mul?_eq_some_iff.2 (hd.trans hdens.symm)
  refine ⟨num, den, hn, hd, ?_⟩
  simp only [mul, hn?, hd?]

theorem mul_of_not_fits (hr : r.Canonical) (ho : o.Canonical)
    (h : ¬(Fits (r.crossNum o) ∧ Fits (r.crossDen o))) : r.mul o = .error ⟨r, .mul, o⟩ := by
  obtain ⟨hnums, hdens⟩ := toInt_cross hr ho
  rw [mul]
  split
  · next num den hn hd =>
    rw [mul?_eq_some_iff, hnums] at hn
    rw [mul?_eq_some_iff, hdens] at hd
    exact absurd ⟨hn ▸ fits_toInt num, hd ▸ fits_toInt den⟩ h
  · rfl

theorem crossNum_comm (r o : Ratio) : r.crossNum o = o.crossNum r := mul_comm ..

theorem crossDen_comm (r o : Ratio) : r.crossDen o = o.crossDen r := mul_comm ..

/-- Against a numerator of zero a denominator is taken out whole. -/
theorem cross_of_num_eq_zero (hr : r.Proper) (ho : o.Proper) (h : r.num = 0) :
    r.crossNum o = 0 ∧ Fits (r.crossDen o) := by
  have hwhole : o.den.toInt / Int.gcd 0 o.den.toInt = 1 := by
    rw [Int.gcd_zero_left, Int.natCast_natAbs, abs_of_pos ho, Int.ediv_self (ne_of_gt ho)]
  rw [crossNum, crossDen, h, Int64.toInt_zero, Int.zero_ediv, zero_mul, hwhole, mul_one]
  exact ⟨rfl, (fits_toInt r.den).ediv (gcd_den_pos _ hr)⟩

/-- The terms that are worked out are those of zero or have nothing in common. -/
theorem cross_cases (hr : r.Canonical) (ho : o.Canonical) :
    r.crossNum o = 0 ∧ Fits (r.crossDen o) ∨ Int.gcd (r.crossNum o) (r.crossDen o) = 1 := by
  rcases hr.lowest with hnum | hrl
  · exact .inl (cross_of_num_eq_zero hr.proper ho.proper hnum)
  rcases ho.lowest with hnum | hol
  · rw [crossNum_comm, crossDen_comm]
    exact .inl (cross_of_num_eq_zero ho.proper hr.proper hnum)
  · exact .inr (Int.isCoprime_iff_gcd_eq_one.1 (isCoprime_cross hrl hol))

/-- The terms that are worked out fit in words exactly if those of the product in lowest terms
do. -/
theorem fits_cross_iff (hr : r.Canonical) (ho : o.Canonical) :
    Fits (r.crossNum o) ∧ Fits (r.crossDen o) ↔
      Fits (r.value * o.value).num ∧ Fits (r.value * o.value).den := by
  rw [value_mul_value hr.proper ho.proper]
  rcases cross_cases hr ho with ⟨hnum, hden⟩ | hcoprime
  · rw [hnum, Int.cast_zero, zero_div]
    exact iff_of_true ⟨⟨by decide, by decide⟩, hden⟩
      ⟨⟨by decide, by decide⟩, ⟨by decide, by decide⟩⟩
  · have hpos := crossDen_pos hr.proper ho.proper
    rw [Rat.num_div_eq_of_coprime hpos hcoprime, Rat.den_div_eq_of_coprime hpos hcoprime]

/-- Terms with nothing in common stay as they are, also if the numerator has no magnitude. -/
theorem isLowest_reduce_of_coprime {num den : Int64} (hd : 0 < den.toInt)
    (h : num = 0 ∨ Int.gcd num.toInt den.toInt = 1) : (reduce num den).IsLowest := by
  by_cases h0 : num = 0
  · rw [reduce, if_pos h0]
    exact isTime_zero.isLowest
  have hgcd := h.resolve_left h0
  have hone : ¬1 < gcd num den := by
    have habs := natAbs_gcd num den
    rw [hgcd] at habs
    rw [Int64.lt_iff_toInt_lt, show (1 : Int64).toInt = 1 from rfl]
    omega
  rw [reduce_eq h0 hd, if_neg hone]
  exact ⟨hd, hgcd⟩

theorem exactIf_mul (hr : r.Canonical) (ho : o.Canonical) :
    ExactIf (Fits (r.value * o.value).num ∧ Fits (r.value * o.value).den) (r.value * o.value)
      False ⟨r, .mul, o⟩ (r.mul o) where
  found h := by
    obtain ⟨hfn, hfd⟩ := (fits_cross_iff hr ho).2 h
    obtain ⟨num, den, hnum, hden, hok⟩ := mul_of_fits hr ho hfn hfd
    have hpos : 0 < den.toInt := hden ▸ crossDen_pos hr.proper ho.proper
    refine ⟨_, hok, ?_, proper_reduce hpos, fun _ => isLowest_reduce_of_coprime hpos ?_⟩
    · rw [value_reduce hpos, value_mul_value hr.proper ho.proper, hnum, hden]
    · rw [hnum, hden, ← Int64.toInt_inj, hnum]
      exact (cross_cases hr ho).imp_left And.left
  refused h := mul_of_not_fits hr ho fun hfits => h ((fits_cross_iff hr ho).1 hfits)

/-- Sums and differences are found exactly if the least common denominator, both numerators over it
and their sum fit in words, and products exactly if their terms do in lowest terms. What is found
has the exact value and is in lowest terms, unless the sum of the numerators is the least word;
otherwise the operation overflows. -/
theorem exact_or_refused (hr : r.Canonical) (ho : o.Canonical) :
    ExactIf (r.TermsFit o) (r.value + o.value) (r.commonNum o = -2 ^ 63) ⟨r, .add, o⟩ (r.add o) ∧
    ExactIf (r.TermsFit o.opposite) (r.value - o.value) (r.commonNum o.opposite = -2 ^ 63)
      ⟨r, .add, o.opposite⟩ (r.sub o) ∧
    ExactIf (Fits (r.value * o.value).num ∧ Fits (r.value * o.value).den) (r.value * o.value)
      False ⟨r, .mul, o⟩ (r.mul o) :=
  ⟨exactIf_add hr.proper ho.proper, exactIf_sub hr.proper ho.proper ho.least, exactIf_mul hr ho⟩

/-- Over a common denominator that still fits, the sum and the difference of two small fractions are
found; their product is too small. -/
theorem exact_or_refused_finest :
    let r : Ratio := ⟨1, 4611686018427387904⟩
    let o : Ratio := ⟨3, 2305843009213693952⟩
    r.Canonical ∧ o.Canonical ∧
      (∃ s, r.add o = .ok s ∧ s.value = r.value + o.value ∧ s.IsLowest) ∧
      (∃ s, r.sub o = .ok s ∧ s.value = r.value - o.value ∧ s.IsLowest) ∧
      r.mul o = .error ⟨r, .mul, o⟩ := by
  intro r o
  have hr : r.Canonical := ⟨by decide, show 0 < r.den.toInt by decide,
    .inr ⟨show 0 < r.den.toInt by decide, by decide +kernel⟩⟩
  have ho : o.Canonical := ⟨by decide, show 0 < o.den.toInt by decide,
    .inr ⟨show 0 < o.den.toInt by decide, by decide +kernel⟩⟩
  obtain ⟨hadd, hsub, hmul⟩ := exact_or_refused hr ho
  obtain ⟨s, hs, hvalue, -, hlowest⟩ := hadd.found
    ⟨by decide +kernel, by decide +kernel, by decide +kernel, by decide +kernel⟩
  obtain ⟨d, hd, hvalue', -, hlowest'⟩ := hsub.found
    ⟨by decide +kernel, by decide +kernel, by decide +kernel, by decide +kernel⟩
  exact ⟨hr, ho, ⟨s, hs, hvalue, hlowest (by decide +kernel)⟩,
    ⟨d, hd, hvalue', hlowest' (by decide +kernel)⟩, hmul.refused (by decide +kernel)⟩

end Ratio

end DegreeScore
