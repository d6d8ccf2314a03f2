import DegreeScore.Time.Ratio
import Mathlib.Data.Rat.Floor
import Mathlib.Tactic.FieldSimp
import Mathlib.Tactic.Linarith
import Mathlib.Tactic.Ring

/-!
# Exactness of times

`Ratio.value` is the rational number that a fraction stands for. For fractions with a positive
denominator (`Ratio.Proper`) this module shows that the 64-bit operations agree with it: a product is
found exactly if it fits (`mul?_eq_some_iff`), comparison is the order of the rationals
(`cmp_eq_compare_value`), `floor` is the floor of the exact multiple (`toInt_floor`), and `reduce`
leaves lowest terms (`Ratio.IsLowest`). A sum is worked out over the least common denominator and
refused exactly if a number on the way to it does not fit (`add_of_termsFit`, `add_of_not_termsFit`).
The times of a score (`Ratio.IsTime`) are closed under the sums and maxima that are found, and these
are exact; a sum of times is refused exactly if it does not fit (`IsTime.add_eq_error_iff`).
-/

namespace DegreeScore

/-- Whether a whole number is the value of a 64-bit word. -/
def Fits (n : ℤ) : Prop := -2 ^ 63 ≤ n ∧ n < 2 ^ 63

instance (n : ℤ) : Decidable (Fits n) := inferInstanceAs (Decidable (_ ∧ _))

theorem fits_toInt (a : Int64) : Fits a.toInt := ⟨a.le_toInt, a.toInt_lt⟩

theorem Fits.exists_toInt {n : ℤ} (h : Fits n) : ∃ a : Int64, a.toInt = n :=
  ⟨Int64.ofInt n, Int64.toInt_ofInt_of_le h.1 h.2⟩

theorem Fits.bmod_eq {n : ℤ} (h : Fits n) : n.bmod (2 ^ 64) = n :=
  Int.bmod_eq_of_le (by have := h.1; omega) (by have := h.2; omega)

/-- A quotient by a positive number is no larger than the dividend. -/
theorem Fits.ediv {m n : ℤ} (h : Fits m) (hn : 0 < n) : Fits (m / n) := by
  obtain ⟨h₁, h₂⟩ := h
  rcases le_or_gt 0 m with hm | hm
  · have := Int.ediv_le_self n hm
    have := Int.ediv_nonneg hm hn.le
    exact ⟨by omega, by omega⟩
  · have := Int.self_le_ediv_of_nonpos_of_nonneg hm.le hn.le
    have := Int.ediv_neg_of_neg_of_pos hm hn
    exact ⟨by omega, by omega⟩

namespace Ratio

theorem toInt_mul_of_fits {a b : Int64} (h : Fits (a.toInt * b.toInt)) :
    (a * b).toInt = a.toInt * b.toInt := by
  rw [Int64.toInt_mul, h.bmod_eq]

/-- The quotient of two words is exact unless the least word is divided by minus one. -/
theorem toInt_div_of_not_least {a b : Int64} (h : ¬(a = Int64.minValue ∧ b = -1)) :
    (a / b).toInt = a.toInt.tdiv b.toInt := by
  by_cases ha : a = Int64.minValue
  · exact Int64.toInt_div_of_ne_right a b (fun hb => h ⟨ha, hb⟩)
  · exact Int64.toInt_div_of_ne_left a b ha

/-- A wrapped product differs from the product by a multiple of `2 ^ 64`. -/
theorem exists_toInt_mul_eq (a b : Int64) :
    ∃ k, (a * b).toInt = a.toInt * b.toInt + 2 ^ 64 * k := by
  refine ⟨-((a.toInt * b.toInt - (a * b).toInt) / 2 ^ 64), ?_⟩
  rw [Int64.toInt_mul]
  generalize a.toInt * b.toInt = n
  simp only [Int.bmod]
  omega

/-- Dividing a product by a factor gives the other factor back only if the product did not wrap. -/
theorem toInt_mul_of_div_eq {a b : Int64} (hb : b.toInt ≠ 0) (hdiv : a * b / b = a)
    (hleast : ¬(b = -1 ∧ a = Int64.minValue)) : (a * b).toInt = a.toInt * b.toInt := by
  have hexact : ¬(a * b = Int64.minValue ∧ b = -1) := by
    rintro ⟨hm, rfl⟩
    rw [hm, Int64.minValue_div_neg_one] at hdiv
    exact hleast ⟨rfl, hdiv.symm⟩
  have hq : (a * b).toInt.tdiv b.toInt = a.toInt := by
    rw [← toInt_div_of_not_least hexact, hdiv]
  obtain ⟨k, hk⟩ := exists_toInt_mul_eq a b
  -- The remainder is smaller than the divisor, so it cannot hold a multiple of `2 ^ 64`.
  have hr := Int.mul_tdiv_add_tmod (a * b).toInt b.toInt
  have hlt := Nat.mod_lt (a * b).toInt.natAbs (Int.natAbs_pos.2 hb)
  rw [← Int.natAbs_tmod] at hlt
  have hb₁ := b.le_toInt
  have hb₂ := b.toInt_lt
  rw [hq, mul_comm] at hr
  omega

/-- A product is found exactly when it fits in a word. -/
theorem mul?_eq_some_iff {a b c : Int64} : mul? a b = some c ↔ c.toInt = a.toInt * b.toInt := by
  by_cases h0 : a = 0 ∨ b = 0
  · have hzero : a.toInt * b.toInt = 0 := by
      rcases h0 with rfl | rfl <;> simp
    rw [mul?, if_pos h0, hzero, Option.some.injEq, eq_comm, ← Int64.toInt_inj]
    rfl
  obtain ⟨ha, hb⟩ : a.toInt ≠ 0 ∧ b.toInt ≠ 0 :=
    ⟨fun h => h0 (.inl (Int64.toInt_inj.1 h)), fun h => h0 (.inr (Int64.toInt_inj.1 h))⟩
  rw [mul?, if_neg h0]
  dsimp only
  constructor
  · intro h
    split at h
    · cases h
    · next hk =>
      simp only [not_or, ne_eq, not_not] at hk
      obtain rfl : a * b = c := Option.some.inj h
      exact toInt_mul_of_div_eq hb hk.1 hk.2.2
  · intro h
    have hfits : Fits (a.toInt * b.toInt) := h ▸ fits_toInt c
    obtain rfl : a * b = c := Int64.toInt_inj.1 ((toInt_mul_of_fits hfits).trans h.symm)
    have hleast : Int64.minValue.toInt = -2 ^ 63 := rfl
    have hone : (-1 : Int64).toInt = -1 := rfl
    have hexact : ¬(a * b = Int64.minValue ∧ b = -1) := by
      rintro ⟨hm, rfl⟩
      rw [hm, hleast, hone] at h
      have := a.toInt_lt
      omega
    have hdiv : a * b / b = a := by
      apply Int64.toInt_inj.1
      rw [toInt_div_of_not_least hexact, h, Int.mul_tdiv_cancel _ hb]
    rw [if_neg]
    rintro (hne | ⟨rfl, rfl⟩ | ⟨rfl, rfl⟩)
    · exact hne hdiv
    · have := hfits.2
      rw [hleast, hone] at this
      omega
    · have := hfits.2
      rw [hleast, hone] at this
      omega

-- ════════════════════════════════════════════════════════════════════════
-- Values and their order
-- ════════════════════════════════════════════════════════════════════════

/-- The rational number that a fraction stands for. -/
def value (r : Ratio) : ℚ := r.num.toInt / r.den.toInt

/-- A fraction with a positive denominator, as all fractions of a score are. -/
def Proper (r : Ratio) : Prop := 0 < r.den.toInt

theorem Proper.cast_pos {r : Ratio} (h : r.Proper) : (0 : ℚ) < r.den.toInt := by
  exact_mod_cast h

theorem compare_toInt (a b : Int64) : compare a b = compare a.toInt b.toInt := by
  rcases lt_trichotomy a.toInt b.toInt with h | h | h
  · rw [compare_lt_iff_lt.2 h, Std.compare_eq_lt]
    exact Int64.lt_iff_toInt_lt.2 h
  · obtain rfl := Int64.toInt_inj.1 h
    rw [compare_eq_iff_eq.2 rfl, Std.compare_self]
  · rw [compare_gt_iff_gt.2 h, Std.compare_eq_gt]
    exact Int64.lt_iff_toInt_lt.2 h

/-- Comparison is cross-multiplication over the whole numbers, whichever path is taken. -/
theorem cmp_eq_compare {r o : Ratio} (hr : r.Proper) (ho : o.Proper) :
    r.cmp o = compare (r.num.toInt * o.den.toInt) (o.num.toInt * r.den.toInt) := by
  have hpos : ∀ {x : Ratio}, x.Proper → x.exact = (x.num.toInt, x.den.toInt) := by
    intro x hx
    rw [exact, if_neg]
    rw [Int64.lt_iff_toInt_lt]
    exact not_lt.2 hx.le
  rw [cmp]
  split
  · next a b ha hb =>
    rw [compare_toInt, mul?_eq_some_iff.1 ha, mul?_eq_some_iff.1 hb]
  · rw [hpos hr, hpos ho]

/-- Comparison is the order of the values. -/
theorem cmp_eq_compare_value {r o : Ratio} (hr : r.Proper) (ho : o.Proper) :
    r.cmp o = compare r.value o.value := by
  have hlt : ∀ {x y : Ratio}, x.Proper → y.Proper →
      (x.value < y.value ↔ x.num.toInt * y.den.toInt < y.num.toInt * x.den.toInt) := by
    intro x y hx hy
    rw [value, value, div_lt_div_iff₀ hx.cast_pos hy.cast_pos]
    exact_mod_cast Iff.rfl
  rw [cmp_eq_compare hr ho]
  rcases lt_trichotomy (r.num.toInt * o.den.toInt) (o.num.toInt * r.den.toInt) with h | h | h
  · rw [compare_lt_iff_lt.2 h, compare_lt_iff_lt.2 ((hlt hr ho).2 h)]
  · have hle : o.value ≤ r.value := by
      rw [← not_lt, hlt hr ho]
      exact h.ge.not_gt
    have hge : r.value ≤ o.value := by
      rw [← not_lt, hlt ho hr]
      exact h.le.not_gt
    rw [compare_eq_iff_eq.2 h, compare_eq_iff_eq.2 (le_antisymm hge hle)]
  · rw [compare_gt_iff_gt.2 h, compare_gt_iff_gt.2 ((hlt ho hr).2 h)]

theorem less_iff {r o : Ratio} (hr : r.Proper) (ho : o.Proper) :
    r.less o = true ↔ r.value < o.value := by
  rw [less, decide_eq_true_iff, cmp_eq_compare_value hr ho, compare_lt_iff_lt]

/-- The later of two fractions is one of them, and has the larger value. -/
theorem max_spec {a b : Ratio} (ha : a.Proper) (hb : b.Proper) :
    (a.max b = a ∨ a.max b = b) ∧ (a.max b).value = Max.max a.value b.value := by
  rw [Ratio.max]
  split
  · next h => exact ⟨.inr rfl, (max_eq_right ((less_iff ha hb).1 h).le).symm⟩
  · next h =>
    rw [less_iff ha hb, not_lt] at h
    exact ⟨.inl rfl, (max_eq_left h).symm⟩

-- ════════════════════════════════════════════════════════════════════════
-- Whole numbers below a multiple
-- ════════════════════════════════════════════════════════════════════════

/-- The nearest whole number that fits in a word. -/
def clamp (n : ℤ) : ℤ := Max.max (-2 ^ 63) (Min.min n (2 ^ 63 - 1))

theorem clamp_eq_self {n : ℤ} (h : Fits n) : clamp n = n := by
  obtain ⟨h₁, h₂⟩ := h
  unfold clamp
  omega

theorem toInt_saturate (n : ℤ) : (saturate n).toInt = clamp n := by
  have hmin : Int64.minValue.toInt = -2 ^ 63 := rfl
  have hmax : Int64.maxValue.toInt = 2 ^ 63 - 1 := rfl
  unfold saturate clamp
  split
  · omega
  split
  · omega
  · rw [Int64.toInt_ofInt_of_le (by omega) (by omega)]
    omega

/-- Cutting a quotient of words towards zero and correcting it below zero gives the floor. -/
theorem toInt_floorDiv {p q : Int64} (hq : 0 < q.toInt) :
    (if p < 0 ∧ p % q ≠ 0 then p / q - 1 else p / q).toInt = p.toInt / q.toInt := by
  have hone : ¬(p = Int64.minValue ∧ q = -1) := by
    rintro ⟨-, rfl⟩
    exact absurd hq (by decide)
  have hdiv := toInt_div_of_not_least hone
  rw [Int.tdiv_eq_ediv, Int.sign_eq_one_of_pos hq] at hdiv
  have hmod : p % q = 0 ↔ q.toInt ∣ p.toInt := by
    rw [Int.dvd_iff_tmod_eq_zero, ← Int64.toInt_mod, ← Int64.toInt_inj]
    rfl
  have hlt : p < 0 ↔ p.toInt < 0 := Int64.lt_iff_toInt_lt
  split
  · next h =>
    rw [hlt, ne_eq, hmod] at h
    rw [if_neg (by simp [h])] at hdiv
    rw [Int64.toInt_sub, hdiv]
    simpa using ((fits_toInt p).ediv hq).bmod_eq
  · next h =>
    rw [hlt, ne_eq, hmod] at h
    rwa [if_pos (by grind), add_zero] at hdiv

/-- `floor` is the exact floor, kept within the range of words. -/
theorem toInt_floor {r : Ratio} (hr : r.Proper) (n : Int64) :
    (r.floor n).toInt = clamp ⌊r.value * n.toInt⌋ := by
  have hfloor : ⌊r.value * n.toInt⌋ = r.num.toInt * n.toInt / r.den.toInt := by
    rw [value, div_mul_eq_mul_div, Int.floor_div_cast_of_nonneg (le_of_lt hr)]
    exact_mod_cast congrArg (· / r.den.toInt) (Int.floor_intCast (R := ℚ) _)
  rw [hfloor, floor]
  split
  · next p hp =>
    rw [toInt_floorDiv hr, ← mul?_eq_some_iff.1 hp, clamp_eq_self ((fits_toInt p).ediv hr)]
  · exact toInt_saturate _

-- ════════════════════════════════════════════════════════════════════════
-- Lowest terms
-- ════════════════════════════════════════════════════════════════════════

/-- On numbers that are not negative the algorithm gives the greatest common divisor. -/
theorem toInt_euclid {a b : Int64} (ha : 0 ≤ a.toInt) (hb : 0 ≤ b.toInt) :
    (euclid a b).toInt = Int.gcd a.toInt b.toInt := by
  fun_induction euclid a b with
  | case1 a =>
    rw [Int64.toInt_zero, Int.gcd_zero_right]
    omega
  | case2 a b hne ih =>
    have hmod : (a % b).toInt = a.toInt % b.toInt := by
      rw [Int64.toInt_mod, Int.tmod_eq_emod_of_nonneg ha]
    have hpos : b.toInt ≠ 0 := fun h => hne (Int64.toInt_inj.1 h)
    rw [ih hb (hmod ▸ Int.emod_nonneg _ hpos), hmod, Int.gcd_comm, Int.gcd_emod]

theorem toInt_magnitude {a : Int64} (h : -2 ^ 63 < a.toInt) : (magnitude a).toInt = |a.toInt| := by
  have hlt : a < 0 ↔ a.toInt < 0 := Int64.lt_iff_toInt_lt
  have := a.toInt_lt
  unfold magnitude
  split
  · next hneg =>
    rw [hlt] at hneg
    rw [abs_of_neg hneg, Int64.toInt_neg]
    exact Fits.bmod_eq ⟨by omega, by omega⟩
  · next hneg =>
    rw [hlt] at hneg
    rw [abs_of_nonneg (not_lt.1 hneg)]

theorem toInt_gcd {a b : Int64} (ha : -2 ^ 63 < a.toInt) (hb : -2 ^ 63 < b.toInt) :
    (gcd a b).toInt = Int.gcd a.toInt b.toInt := by
  have hma := toInt_magnitude ha
  have hmb := toInt_magnitude hb
  rw [gcd, toInt_euclid (hma ▸ abs_nonneg _) (hmb ▸ abs_nonneg _), hma, hmb]
  simp only [Int.gcd, Int.natAbs_abs]

/-- On all words it gives the greatest common divisor or its opposite. -/
theorem natAbs_euclid (a b : Int64) :
    (euclid a b).toInt.natAbs = a.toInt.natAbs.gcd b.toInt.natAbs := by
  fun_induction euclid a b with
  | case1 a => rw [Int64.toInt_zero, Int.natAbs_zero, Nat.gcd_zero_right]
  | case2 a b hne ih =>
    rw [ih, Int64.toInt_mod, Int.natAbs_tmod, Nat.gcd_comm, ← Nat.gcd_rec, Nat.gcd_comm]

theorem natAbs_magnitude (a : Int64) : (magnitude a).toInt.natAbs = a.toInt.natAbs := by
  by_cases h : -2 ^ 63 < a.toInt
  · rw [toInt_magnitude h, Int.natAbs_abs]
  · have hlow := a.le_toInt
    have hleast : a.toInt = Int64.minValue.toInt := by
      rw [Int64.toInt_minValue]
      omega
    obtain rfl := Int64.toInt_inj.1 hleast
    decide

/-- The divisor that is found is greatest up to its sign. -/
theorem natAbs_gcd (a b : Int64) : (gcd a b).toInt.natAbs = Int.gcd a.toInt b.toInt := by
  rw [gcd, natAbs_euclid, natAbs_magnitude, natAbs_magnitude, Int.gcd_def]

/-- Dividing by a positive common divisor is exact. -/
theorem toInt_div_of_dvd {a g : Int64} (hg : 0 < g.toInt) (h : g.toInt ∣ a.toInt) :
    (a / g).toInt = a.toInt / g.toInt := by
  rw [toInt_div_of_not_least, Int.tdiv_eq_ediv_of_dvd h]
  rintro ⟨-, rfl⟩
  exact absurd hg (by decide)

/-- Over a positive denominator `reduce` only takes out the divisor that is found. -/
theorem reduce_eq {num den : Int64} (h0 : num ≠ 0) (hd : 0 < den.toInt) :
    reduce num den =
      if 1 < gcd num den then ⟨num / gcd num den, den / gcd num den⟩ else ⟨num, den⟩ := by
  have hnd : ¬den < 0 := by
    rw [Int64.lt_iff_toInt_lt]
    exact not_lt.2 hd.le
  rw [reduce, if_neg h0, if_neg hnd]

/-- `reduce` divides both terms by their greatest common divisor. -/
theorem reduce_terms {num den : Int64} (hn : -2 ^ 63 < num.toInt) (hd : 0 < den.toInt) :
    (reduce num den).num.toInt = num.toInt / Int.gcd num.toInt den.toInt ∧
      (reduce num den).den.toInt = den.toInt / Int.gcd num.toInt den.toInt := by
  have hpos : (0 : ℤ) < Int.gcd num.toInt den.toInt := by
    exact_mod_cast Int.gcd_pos_of_ne_zero_right _ hd.ne'
  by_cases h0 : num = 0
  · subst h0
    have hg : (Int.gcd 0 den.toInt : ℤ) = den.toInt := by
      rw [Int.gcd_zero_left, Int.natCast_natAbs, abs_of_pos hd]
    rw [reduce, if_pos rfl, Int64.toInt_zero, hg, Int.ediv_self hd.ne']
    exact ⟨by simp [zero], rfl⟩
  have hg := toInt_gcd hn (by omega : -2 ^ 63 < den.toInt)
  rw [reduce_eq h0 hd]
  split
  · rw [toInt_div_of_dvd (hg ▸ hpos) (hg ▸ Int.gcd_dvd_left ..),
      toInt_div_of_dvd (hg ▸ hpos) (hg ▸ Int.gcd_dvd_right ..), hg]
    exact ⟨rfl, rfl⟩
  · next h1 =>
    have hone : (Int.gcd num.toInt den.toInt : ℤ) = 1 := by
      rw [Int64.lt_iff_toInt_lt, hg] at h1
      have : (1 : Int64).toInt = 1 := rfl
      omega
    rw [hone, Int.ediv_one, Int.ediv_one]
    exact ⟨rfl, rfl⟩

/-- The terms that `reduce` leaves have no common divisor. -/
theorem gcd_reduce {num den : Int64} (hn : -2 ^ 63 < num.toInt) (hd : 0 < den.toInt) :
    Int.gcd (reduce num den).num.toInt (reduce num den).den.toInt = 1 := by
  obtain ⟨hnum, hden⟩ := reduce_terms hn hd
  rw [hnum, hden]
  exact Int.gcd_div_gcd_div_gcd (Int.gcd_pos_of_ne_zero_right _ hd.ne')

/-- Taking out the divisor that is found keeps the value and a positive denominator, also where the
least word has no magnitude and the divisor may be negative. -/
theorem div_gcd_spec {num den : Int64} (hd : 0 < den.toInt) :
    let r : Ratio :=
      if 1 < gcd num den then ⟨num / gcd num den, den / gcd num den⟩ else ⟨num, den⟩
    r.Proper ∧ r.value = num.toInt / den.toInt := by
  dsimp only
  split
  · next hone =>
    have hg : 0 < (gcd num den).toInt := by
      rw [Int64.lt_iff_toInt_lt] at hone
      exact lt_trans (by decide) hone
    have hnum : (gcd num den).toInt ∣ num.toInt := by
      rw [← Int.natAbs_dvd_natAbs, natAbs_gcd]
      exact Nat.gcd_dvd_left ..
    have hden : (gcd num den).toInt ∣ den.toInt := by
      rw [← Int.natAbs_dvd_natAbs, natAbs_gcd]
      exact Nat.gcd_dvd_right ..
    have hne : ((gcd num den).toInt : ℚ) ≠ 0 := by exact_mod_cast hg.ne'
    rw [Proper, value, toInt_div_of_dvd hg hnum, toInt_div_of_dvd hg hden, Int.cast_div hnum hne,
      Int.cast_div hden hne]
    exact ⟨Int.ediv_pos_of_pos_of_dvd hd hg.le hden, div_div_div_cancel_right₀ hne _ _⟩
  · exact ⟨hd, rfl⟩

theorem proper_reduce {num den : Int64} (hd : 0 < den.toInt) : (reduce num den).Proper := by
  by_cases h0 : num = 0
  · rw [reduce, if_pos h0]
    exact show 0 < zero.den.toInt by decide
  · rw [reduce_eq h0 hd]
    exact (div_gcd_spec hd).1

/-- All fractions are proper, unless they are made over the least word, which has no magnitude. -/
theorem proper_of_make? {num den : Int64} {r : Ratio} (h : make? num den = some r)
    (hleast : den ≠ Int64.minValue) : r.Proper := by
  rw [make?] at h
  split at h
  · cases h
  next hzero =>
  have hneg : den < 0 ↔ den.toInt < 0 := Int64.lt_iff_toInt_lt
  have hne : den.toInt ≠ 0 := fun h => hzero (Int64.toInt_inj.1 h)
  have hlow : den.toInt ≠ -2 ^ 63 := fun h => hleast (Int64.toInt_inj.1 h)
  obtain rfl := Option.some.inj h
  rw [reduce]
  split
  · exact show 0 < zero.den.toInt by decide
  by_cases hd : den < 0
  · rw [if_pos hd]
    refine (div_gcd_spec ?_).1
    have hle := den.le_toInt
    have hlt := hneg.1 hd
    rw [Int64.toInt_neg, Fits.bmod_eq ⟨by omega, by omega⟩]
    omega
  · rw [if_neg hd]
    refine (div_gcd_spec ?_).1
    rw [hneg] at hd
    omega

theorem value_reduce {num den : Int64} (hd : 0 < den.toInt) :
    (reduce num den).value = num.toInt / den.toInt := by
  by_cases h0 : num = 0
  · rw [reduce, if_pos h0, h0, value, show zero.num.toInt = 0 from rfl, Int64.toInt_zero,
      Int.cast_zero, zero_div, zero_div]
  · rw [reduce_eq h0 hd]
    exact (div_gcd_spec hd).2

/-- A fraction in lowest terms over a positive denominator. -/
structure IsLowest (r : Ratio) : Prop where
  proper : r.Proper
  lowest : Int.gcd r.num.toInt r.den.toInt = 1

theorem isLowest_reduce {num den : Int64} (hn : -2 ^ 63 < num.toInt) (hd : 0 < den.toInt) :
    (reduce num den).IsLowest :=
  ⟨proper_reduce hd, gcd_reduce hn hd⟩

/-- Fractions in lowest terms with the same value are the same. -/
theorem IsLowest.eq_of_value_eq {r o : Ratio} (hr : r.IsLowest) (ho : o.IsLowest)
    (h : r.value = o.value) : r = o := by
  obtain ⟨hnum, hden⟩ := Rat.div_int_inj hr.proper ho.proper hr.lowest ho.lowest h
  cases r
  cases o
  exact congrArg₂ Ratio.mk (Int64.toInt_inj.1 hnum) (Int64.toInt_inj.1 hden)

-- ════════════════════════════════════════════════════════════════════════
-- Sums over the least common denominator
-- ════════════════════════════════════════════════════════════════════════

/-- The least common denominator of two fractions. -/
def commonDen (r o : Ratio) : ℤ := Int.lcm r.den.toInt o.den.toInt

/-- The numerator of a sum over the least common denominator. -/
def commonNum (r o : Ratio) : ℤ :=
  r.num.toInt * (r.commonDen o / r.den.toInt) + o.num.toInt * (r.commonDen o / o.den.toInt)

/-- A sum can be worked out in words: over the least common denominator both terms fit. -/
def SumFits (r o : Ratio) : Prop := Fits (r.commonNum o) ∧ Fits (r.commonDen o)

/-- The numerator of a fraction over its least common denominator with another. -/
def scaledNum (r o : Ratio) : ℤ := r.num.toInt * (r.commonDen o / r.den.toInt)

/-- Every number that is worked out on the way to a sum fits in a word. -/
structure TermsFit (r o : Ratio) : Prop where
  den : Fits (r.commonDen o)
  left : Fits (r.scaledNum o)
  right : Fits (o.scaledNum r)
  num : Fits (r.commonNum o)

theorem commonDen_comm (r o : Ratio) : r.commonDen o = o.commonDen r := by
  rw [commonDen, commonDen, Int.lcm_comm]

theorem commonNum_eq (r o : Ratio) : r.commonNum o = r.scaledNum o + o.scaledNum r := by
  rw [commonNum, scaledNum, scaledNum, commonDen_comm o r]

theorem den_dvd_commonDen (r o : Ratio) : r.den.toInt ∣ r.commonDen o := Int.dvd_lcm_left ..

theorem commonDen_pos {r o : Ratio} (hr : r.Proper) (ho : o.Proper) : 0 < r.commonDen o := by
  have hne : r.commonDen o ≠ 0 := by
    rw [commonDen]
    exact_mod_cast Int.lcm_ne_zero (ne_of_gt hr) (ne_of_gt ho)
  have hnonneg : 0 ≤ r.commonDen o := Int.natCast_nonneg _
  omega

theorem scale_pos {r o : Ratio} (hr : r.Proper) (ho : o.Proper) :
    0 < r.commonDen o / r.den.toInt :=
  Int.ediv_pos_of_pos_of_dvd (commonDen_pos hr ho) (le_of_lt hr) (den_dvd_commonDen r o)

theorem value_eq_scaledNum_div {r o : Ratio} (hr : r.Proper) (ho : o.Proper) :
    r.value = r.scaledNum o / r.commonDen o := by
  have hscale : ((r.commonDen o / r.den.toInt : ℤ) : ℚ) ≠ 0 := by
    exact_mod_cast (scale_pos hr ho).ne'
  have hden : r.commonDen o = r.den.toInt * (r.commonDen o / r.den.toInt) :=
    (Int.mul_ediv_cancel' (den_dvd_commonDen r o)).symm
  rw [scaledNum, hden, Int.mul_ediv_cancel_left _ (ne_of_gt hr), Int.cast_mul, Int.cast_mul,
    mul_div_mul_right _ _ hscale, value]

theorem value_add_value {r o : Ratio} (hr : r.Proper) (ho : o.Proper) :
    r.value + o.value = r.commonNum o / r.commonDen o := by
  rw [value_eq_scaledNum_div hr ho, value_eq_scaledNum_div ho hr, commonDen_comm o r, ← add_div,
    commonNum_eq, Int.cast_add]

/-- What the numerators are multiplied by. -/
theorem toInt_scale {r o : Ratio} (hr : r.Proper) (ho : o.Proper) :
    (o.den / gcd r.den o.den).toInt = r.commonDen o / r.den.toInt ∧
      (r.den / gcd r.den o.den).toInt = o.commonDen r / o.den.toInt := by
  have hr' : 0 < r.den.toInt := hr
  have ho' : 0 < o.den.toInt := ho
  have hg := toInt_gcd (by omega : -2 ^ 63 < r.den.toInt) (by omega : -2 ^ 63 < o.den.toInt)
  have hpos : 0 < (gcd r.den o.den).toInt := by
    rw [hg]
    exact_mod_cast Int.gcd_pos_of_ne_zero_right _ ho'.ne'
  have hgcd : (Int.gcd r.den.toInt o.den.toInt : ℤ) * r.commonDen o =
      r.den.toInt * o.den.toInt := by
    rw [commonDen, ← Int.natCast_mul, Int.gcd_mul_lcm, Int.natCast_mul, Int.natCast_natAbs,
      Int.natCast_natAbs, abs_of_pos hr', abs_of_pos ho']
  have hcancel : ∀ {m n k : ℤ}, n ≠ 0 → k ≠ 0 → k ∣ m → k * r.commonDen o = n * m →
      m / k = r.commonDen o / n := by
    intro m n k hn hk hdvd h
    refine (Int.ediv_eq_of_eq_mul_right hn ?_).symm
    apply mul_left_cancel₀ hk
    rw [h, mul_left_comm, Int.mul_ediv_cancel' hdvd]
  rw [toInt_div_of_dvd hpos (hg ▸ Int.gcd_dvd_right ..),
    toInt_div_of_dvd hpos (hg ▸ Int.gcd_dvd_left ..), hg, commonDen_comm o r]
  rw [hg] at hpos
  exact ⟨hcancel hr'.ne' hpos.ne' (Int.gcd_dvd_right ..) hgcd,
    hcancel ho'.ne' hpos.ne' (Int.gcd_dvd_left ..) (hgcd.trans (mul_comm _ _))⟩

/-- The sum of two words is seen to wrap exactly if it does not fit. -/
theorem wrapped_eq_false_iff {a b : Int64} :
    wrapped a b (a + b) = false ↔ Fits (a.toInt + b.toInt) := by
  have ha := a.le_toInt
  have ha' := a.toInt_lt
  have hb := b.le_toInt
  have hb' := b.toInt_lt
  have hsum := Int64.toInt_add a b
  simp only [wrapped, Bool.or_eq_false_iff, Bool.and_eq_false_iff, decide_eq_false_iff_not,
    Int64.lt_iff_toInt_lt, Int64.toInt_zero, Fits]
  simp only [Int.bmod] at hsum
  omega

/-- A sum whose terms fit is that of the numerators over the least common denominator. -/
theorem add_of_termsFit {r o : Ratio} (hr : r.Proper) (ho : o.Proper) (h : r.TermsFit o) :
    ∃ num den : Int64, num.toInt = r.commonNum o ∧ den.toInt = r.commonDen o ∧
      r.add o = .ok (reduce num den) := by
  obtain ⟨den, hden⟩ := h.den.exists_toInt
  obtain ⟨a, ha⟩ := h.left.exists_toInt
  obtain ⟨b, hb⟩ := h.right.exists_toInt
  obtain ⟨hrm, hom⟩ := toInt_scale hr ho
  have hsum : Fits (a.toInt + b.toInt) := by
    rw [ha, hb, ← commonNum_eq]
    exact h.num
  refine ⟨a + b, den, ?_, hden, ?_⟩
  · rw [Int64.toInt_add, hsum.bmod_eq, ha, hb, commonNum_eq]
  · have hden? : mul? r.den (o.den / gcd r.den o.den) = some den := by
      rw [mul?_eq_some_iff, hrm, hden, Int.mul_ediv_cancel' (den_dvd_commonDen r o)]
    have ha? : mul? r.num (o.den / gcd r.den o.den) = some a := by
      rw [mul?_eq_some_iff, hrm, ha, scaledNum]
    have hb? : mul? o.num (r.den / gcd r.den o.den) = some b := by
      rw [mul?_eq_some_iff, hom, hb, scaledNum]
    simp only [add, hden?, ha?, hb?]
    rw [wrapped_eq_false_iff.2 hsum, if_neg Bool.false_ne_true]

/-- A sum of which some term does not fit is refused. -/
theorem add_of_not_termsFit {r o : Ratio} (hr : r.Proper) (ho : o.Proper) (h : ¬r.TermsFit o) :
    r.add o = .error ⟨r, .add, o⟩ := by
  obtain ⟨hrm, hom⟩ := toInt_scale hr ho
  rw [add]
  split
  · next den a b hden ha hb =>
    rw [mul?_eq_some_iff, hrm] at hden ha
    rw [mul?_eq_some_iff, hom] at hb
    rw [Int.mul_ediv_cancel' (den_dvd_commonDen r o)] at hden
    change a.toInt = r.scaledNum o at ha
    change b.toInt = o.scaledNum r at hb
    split
    · rfl
    · next hwrapped =>
      have hsum := wrapped_eq_false_iff.1 (Bool.not_eq_true _ ▸ hwrapped)
      refine absurd ⟨hden ▸ fits_toInt den, ha ▸ fits_toInt a, hb ▸ fits_toInt b, ?_⟩ h
      rw [commonNum_eq, ← ha, ← hb]
      exact hsum
  · rfl

/-- A sum that is refused is reported with its terms. -/
theorem eq_of_add_eq_error {r o : Ratio} {e : Overflow} (h : r.add o = .error e) :
    e = ⟨r, .add, o⟩ := by
  rw [add] at h
  split at h
  · split at h
    · exact (Except.error.inj h).symm
    · cases h
  · exact (Except.error.inj h).symm

-- ════════════════════════════════════════════════════════════════════════
-- Times
-- ════════════════════════════════════════════════════════════════════════

/-- A time of a score: a fraction in lowest terms that is not negative. -/
structure IsTime (r : Ratio) : Prop where
  nonneg : 0 ≤ r.num.toInt
  proper : r.Proper
  lowest : Int.gcd r.num.toInt r.den.toInt = 1

theorem isTime_zero : zero.IsTime := ⟨le_rfl, show 0 < zero.den.toInt by decide, by decide⟩

theorem value_zero : zero.value = 0 := by
  rw [value, show zero.num.toInt = 0 from rfl, Int.cast_zero, zero_div]

theorem IsTime.isLowest {r : Ratio} (h : r.IsTime) : r.IsLowest := ⟨h.proper, h.lowest⟩

theorem IsTime.value_nonneg {r : Ratio} (h : r.IsTime) : 0 ≤ r.value :=
  div_nonneg (by exact_mod_cast h.nonneg) h.proper.cast_pos.le

theorem IsTime.eq_of_value_eq {r o : Ratio} (hr : r.IsTime) (ho : o.IsTime)
    (h : r.value = o.value) : r = o :=
  hr.isLowest.eq_of_value_eq ho.isLowest h

theorem isTime_reduce {num den : Int64} (hn : 0 ≤ num.toInt) (hd : 0 < den.toInt) :
    (reduce num den).IsTime := by
  have hlow : -2 ^ 63 < num.toInt := by omega
  refine ⟨?_, proper_reduce hd, gcd_reduce hlow hd⟩
  rw [(reduce_terms hlow hd).1]
  exact Int.ediv_nonneg hn (by omega)

theorem IsTime.scaledNum_nonneg {r o : Ratio} (hr : r.IsTime) (ho : o.IsTime) :
    0 ≤ r.scaledNum o :=
  mul_nonneg hr.nonneg (scale_pos hr.proper ho.proper).le

/-- The terms of times are not larger than those of their sum. -/
theorem IsTime.termsFit_iff {r o : Ratio} (hr : r.IsTime) (ho : o.IsTime) :
    r.TermsFit o ↔ r.SumFits o := by
  have hleft := hr.scaledNum_nonneg ho
  have hright := ho.scaledNum_nonneg hr
  constructor
  · rintro ⟨hden, -, -, hnum⟩
    exact ⟨hnum, hden⟩
  · rintro ⟨hnum, hden⟩
    have hlt := hnum.2
    rw [commonNum_eq] at hlt
    exact ⟨hden, ⟨by omega, by omega⟩, ⟨by omega, by omega⟩, hnum⟩

/-- The sum of two times is a time, and exact. -/
theorem IsTime.add {r o s : Ratio} (hr : r.IsTime) (ho : o.IsTime) (h : r.add o = .ok s) :
    s.IsTime ∧ s.value = r.value + o.value := by
  by_cases hfit : r.TermsFit o
  · obtain ⟨num, den, hnum, hden, hok⟩ := add_of_termsFit hr.proper ho.proper hfit
    obtain rfl : reduce num den = s := Except.ok.inj (hok.symm.trans h)
    have hpos : 0 < den.toInt := hden ▸ commonDen_pos hr.proper ho.proper
    have hnonneg : 0 ≤ num.toInt := by
      rw [hnum, commonNum_eq]
      exact add_nonneg (hr.scaledNum_nonneg ho) (ho.scaledNum_nonneg hr)
    refine ⟨isTime_reduce hnonneg hpos, ?_⟩
    rw [value_reduce hpos, value_add_value hr.proper ho.proper, hnum, hden]
  · rw [add_of_not_termsFit hr.proper ho.proper hfit] at h
    cases h

/-- Adding two times is refused exactly if the sum does not fit over the least common
denominator. -/
theorem IsTime.add_eq_error_iff {r o : Ratio} (hr : r.IsTime) (ho : o.IsTime) :
    r.add o = .error ⟨r, .add, o⟩ ↔ ¬r.SumFits o := by
  rw [← hr.termsFit_iff ho]
  refine ⟨fun h hfit => ?_, add_of_not_termsFit hr.proper ho.proper⟩
  obtain ⟨num, den, -, -, hok⟩ := add_of_termsFit hr.proper ho.proper hfit
  rw [hok] at h
  cases h

/-- The later of two times is a time and lasts as long as the longer one. -/
theorem IsTime.max {a b : Ratio} (ha : a.IsTime) (hb : b.IsTime) :
    (a.max b).IsTime ∧ (a.max b).value = Max.max a.value b.value := by
  obtain ⟨h | h, hvalue⟩ := max_spec ha.proper hb.proper
  · refine ⟨?_, hvalue⟩
    rw [h]
    exact ha
  · refine ⟨?_, hvalue⟩
    rw [h]
    exact hb

/-- Of two times the second is the later one also if they are the same. -/
theorem IsTime.max_eq_right {a b : Ratio} (ha : a.IsTime) (hb : b.IsTime)
    (h : a.value ≤ b.value) : a.max b = b := by
  rw [Ratio.max]
  split
  · rfl
  · next hless =>
    rw [less_iff ha.proper hb.proper, not_lt] at hless
    exact ha.eq_of_value_eq hb (le_antisymm h hless)

end Ratio

end DegreeScore
