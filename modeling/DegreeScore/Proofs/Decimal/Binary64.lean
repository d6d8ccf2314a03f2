import DegreeScore.Decimal.Binary64
import Mathlib

/-!
# Magnitudes of doubles

How large a double is shows in the place of its leading bit: `totalExponent m e` is the least `k` for
which `m * 2 ^ e` is below `2 ^ k`. Rounding moves that place up by at most one (`round_spec`), so a
product or quotient of doubles of known magnitude is again a number, of a magnitude that is known
(`Below.mul`, `Below.div`). The order of doubles agrees with their magnitudes (`Reaches.of_le`,
`Below.le_of_reaches`). A double is a number exactly if it has a magnitude (`isFinite_iff`).
-/

namespace DegreeScore

namespace Binary64

open Float.Model (Format UnpackedFloat totalExponent)
open Float.Model.UnpackedFloat (Accuracy ExtendedMantissa Sign accuracyOfFraction packComponents
  roundWithAccuracy shiftToTargetExponent unpackExponent unpackMantissa unpackSign)

/-- A number in the form of a double: with fifty-three bits, or fewer at the bottom of the range. -/
def Canonical : UnpackedFloat → Prop
  | .finite _ m e _ => max (totalExponent m e - 53) (-1074) = e
  | _ => True

/-- A number whose magnitude is below `2 ^ k`. -/
def Below (k : ℤ) : UnpackedFloat → Prop
  | .zero _ => True
  | .finite _ m e _ => totalExponent m e ≤ k
  | _ => False

/-- A number from `2 ^ (k - 1)` on. -/
def Reaches (k : ℤ) : UnpackedFloat → Prop
  | .finite .positive m e _ => k ≤ totalExponent m e
  | _ => False

instance (k : ℤ) (u : UnpackedFloat) : Decidable (Below k u) :=
  match u with
  | .zero _ => isTrue trivial
  | .finite _ m e _ => inferInstanceAs (Decidable (totalExponent m e ≤ k))
  | .infinity _ => isFalse id
  | .notANumber => isFalse id

instance (k : ℤ) (u : UnpackedFloat) : Decidable (Reaches k u) :=
  match u with
  | .finite .positive m e _ => inferInstanceAs (Decidable (k ≤ totalExponent m e))
  | .finite .negative .. => isFalse id
  | .zero _ => isFalse id
  | .infinity _ => isFalse id
  | .notANumber => isFalse id

variable {u v : UnpackedFloat} {x y : Float} {k l : ℤ}

theorem Below.mono (h : Below k u) (hkl : k ≤ l) : Below l u := by
  cases u with
  | notANumber | infinity => exact h.elim
  | zero => trivial
  | finite s m e hm => exact le_trans h hkl

theorem Reaches.mono (h : Reaches l u) (hkl : k ≤ l) : Reaches k u := by
  cases u with
  | notANumber | infinity | zero => exact h.elim
  | finite s m e hm =>
    cases s with
    | negative => exact h.elim
    | positive => exact le_trans hkl h

theorem log2_lt_of_lt {n k : ℕ} (hk : 0 < k) (h : n < 2 ^ k) : n.log2 < k := by
  by_cases hn : n = 0
  · rw [hn]
    exact hk
  · exact (Nat.log2_lt hn).2 h

theorem log2_mul_bounds {m n : ℕ} (hm : 0 < m) (hn : 0 < n) :
    m.log2 + n.log2 ≤ (m * n).log2 ∧ (m * n).log2 ≤ m.log2 + n.log2 + 1 := by
  have hmn : m * n ≠ 0 := (Nat.mul_pos hm hn).ne'
  constructor
  · rw [Nat.le_log2 hmn, pow_add]
    exact Nat.mul_le_mul (Nat.log2_self_le hm.ne') (Nat.log2_self_le hn.ne')
  · rw [Nat.le_iff_lt_add_one, Nat.log2_lt hmn]
    calc m * n < 2 ^ (m.log2 + 1) * 2 ^ (n.log2 + 1) :=
          Nat.mul_lt_mul'' Nat.lt_log2_self Nat.lt_log2_self
      _ = 2 ^ (m.log2 + n.log2 + 1 + 1) := by ring

theorem log2_div_bounds {m n : ℕ} (hm : 0 < m) (hn : 0 < n) :
    m.log2 ≤ (m / n).log2 + n.log2 + 1 ∧ (m / n = 0 ∨ (m / n).log2 + n.log2 ≤ m.log2) := by
  constructor
  · rw [Nat.le_iff_lt_add_one, Nat.log2_lt hm.ne']
    calc m < n * (m / n + 1) := Nat.lt_mul_div_succ m hn
      _ ≤ 2 ^ (n.log2 + 1) * 2 ^ ((m / n).log2 + 1) :=
          Nat.mul_le_mul Nat.lt_log2_self.le Nat.lt_log2_self
      _ = 2 ^ ((m / n).log2 + n.log2 + 1 + 1) := by ring
  · by_cases hq : m / n = 0
    · exact .inl hq
    · right
      rw [Nat.le_log2 hm.ne', pow_add]
      exact (Nat.mul_le_mul (Nat.log2_self_le hq) (Nat.log2_self_le hn.ne')).trans
        (Nat.div_mul_le_self m n)

theorem log2_shiftLeft {n : ℕ} (hn : n ≠ 0) (j : ℕ) : (n <<< j).log2 = n.log2 + j := by
  have hpos : n <<< j ≠ 0 := by
    rw [Nat.shiftLeft_eq]
    exact Nat.mul_ne_zero hn (Nat.two_pow_pos j).ne'
  rw [Nat.log2_eq_iff hpos, Nat.shiftLeft_eq, pow_add, Nat.add_right_comm, pow_add]
  exact ⟨Nat.mul_le_mul_right _ (Nat.log2_self_le hn),
    Nat.mul_lt_mul_of_pos_right Nat.lt_log2_self (Nat.two_pow_pos j)⟩

/-- What is left of a number of at most `k + j` bits when `j` are dropped. -/
theorem div_two_pow_lt {n k j : ℕ} (h : n.log2 < k + j) : n / 2 ^ j < 2 ^ k := by
  rw [Nat.div_lt_iff_lt_mul (Nat.two_pow_pos j), ← pow_add]
  exact Nat.lt_log2_self.trans_le (Nat.pow_le_pow_right (by decide) h)

/-- What is left of a number of more than `k + j` bits when `j` are dropped. -/
theorem two_pow_le_div {n k j : ℕ} (hn : n ≠ 0) (h : k + j ≤ n.log2) : 2 ^ k ≤ n / 2 ^ j := by
  rw [Nat.le_div_iff_mul_le (Nat.two_pow_pos j), ← pow_add]
  exact (Nat.le_log2 hn).1 h

-- ════════════════════════════════════════════════════════════════════════
-- Rounding
-- ════════════════════════════════════════════════════════════════════════

theorem mantissa_shiftRight (em : ExtendedMantissa) (n : ℕ) :
    (em >>> n).mantissa = em.mantissa / 2 ^ n := by
  change (n.repeat ExtendedMantissa.shiftRightOne em).mantissa = _
  induction n with
  | zero => rw [Nat.repeat, pow_zero, Nat.div_one]
  | succ n ih =>
    change (n.repeat ExtendedMantissa.shiftRightOne em).mantissa / 2 = _
    rw [ih, Nat.div_div_eq_div_mul, pow_succ]

theorem roundedMantissa_bounds (em : ExtendedMantissa) :
    em.mantissa ≤ em.roundedMantissa ∧ em.roundedMantissa ≤ em.mantissa + 1 := by
  obtain ⟨m, round, sticky⟩ := em
  cases round <;> cases sticky <;>
    simp only [ExtendedMantissa.roundedMantissa, ExtendedMantissa.accuracy,
      Accuracy.roundToNearestEven] <;>
    omega

variable {m : ℕ} {e : ℤ}

theorem mantissa_shiftToTarget (a : Accuracy) :
    (shiftToTargetExponent Format.binary64 m e a).1.mantissa =
      m / 2 ^ (max (totalExponent m e - 53) (-1074) - e).toNat := by
  have htarget : ∀ t : ℤ, Format.binary64.targetExponent t = max (t - 53) (-1074) := fun _ => rfl
  have hinitial : (ExtendedMantissa.ofMantissaAndAccuracy m a).mantissa = m := by
    rcases a with _ | (_ | _ | _) <;> rfl
  simp only [shiftToTargetExponent, UnpackedFloat.shiftToExponent, mantissa_shiftRight,
    hinitial, htarget]

theorem exponent_shiftToTarget (a : Accuracy) :
    (shiftToTargetExponent Format.binary64 m e a).2 =
      e + (max (totalExponent m e - 53) (-1074) - e).toNat := rfl

section settle

variable {s : Sign} {r : ℕ} {t : ℤ}

/-- What a rounded significand becomes: a fifty-fourth bit, where there is a carry, is dropped. -/
def settle (s : Sign) (r : ℕ) (t : ℤ) : UnpackedFloat :=
  if h : r = 0 then .zero s
  else if r < 2 ^ 53 then .finite s r t (Nat.pos_of_ne_zero h)
  else .finite s (2 ^ 52) (t + 1) (by decide)

/-- The second shift of a rounding. -/
theorem settle_eq (s : Sign) (hr : r ≤ 2 ^ 53) (ht : -1074 ≤ t) :
    settle s r t =
      let second := shiftToTargetExponent Format.binary64 r t .exact
      if h : second.1.mantissa = 0 then .zero s
      else .finite s second.1.mantissa second.2 (Nat.pos_of_ne_zero h) := by
  have hmantissa := mantissa_shiftToTarget (m := r) (e := t) .exact
  have hexponent := exponent_shiftToTarget (m := r) (e := t) .exact
  rw [settle]
  by_cases hlt : r < 2 ^ 53
  · have hlog : r.log2 < 53 := log2_lt_of_lt (by decide) hlt
    have hshift : (max (totalExponent r t - 53) (-1074) - t).toNat = 0 := by
      rw [totalExponent]
      omega
    rw [hshift, pow_zero, Nat.div_one] at hmantissa
    rw [hshift, Nat.cast_zero, add_zero] at hexponent
    simp only [hmantissa, hexponent, if_pos hlt]
  · obtain rfl : r = 2 ^ 53 := le_antisymm hr (not_lt.1 hlt)
    have hshift : (max (totalExponent (2 ^ 53) t - 53) (-1074) - t).toNat = 1 := by
      rw [totalExponent, Nat.log2_two_pow]
      omega
    rw [hshift] at hmantissa hexponent
    simp only [hmantissa, hexponent, if_neg hlt]
    rfl

/-- Dropping the last bit of a carry leaves the leading bit where it is. -/
theorem totalExponent_carry : totalExponent (2 ^ 52) (t + 1) = totalExponent (2 ^ 53) t := by
  rw [totalExponent, totalExponent, Nat.log2_two_pow, Nat.log2_two_pow]
  omega

theorem canonical_settle (hr : r ≤ 2 ^ 53) (ht : -1074 ≤ t) (h : 2 ^ 52 ≤ r ∨ t = -1074) :
    Canonical (settle s r t) := by
  rw [settle]
  split
  · trivial
  next h0 =>
  split
  · next hlt =>
    have hlog : r.log2 < 53 := log2_lt_of_lt (by decide) hlt
    have hfull : 2 ^ 52 ≤ r → 52 ≤ r.log2 := (Nat.le_log2 h0).2
    show max (totalExponent r t - 53) (-1074) = t
    rw [totalExponent]
    omega
  · show max (totalExponent (2 ^ 52) (t + 1) - 53) (-1074) = t + 1
    rw [totalExponent, Nat.log2_two_pow]
    omega

theorem below_settle (hr : r ≤ 2 ^ 53) (h : totalExponent r t ≤ k) : Below k (settle s r t) := by
  rw [settle]
  split
  · trivial
  split
  · exact h
  · next hlt =>
    obtain rfl : r = 2 ^ 53 := le_antisymm hr (not_lt.1 hlt)
    exact totalExponent_carry.trans_le h

theorem reaches_settle (hpos : r ≠ 0) (hr : r ≤ 2 ^ 53) (h : k ≤ totalExponent r t) :
    Reaches k (settle .positive r t) := by
  rw [settle, dif_neg hpos]
  split
  · exact h
  · next hlt =>
    obtain rfl : r = 2 ^ 53 := le_antisymm hr (not_lt.1 hlt)
    exact h.trans_eq totalExponent_carry.symm

end settle

/-- A significand that is exact enough is rounded to what is left of it at the target exponent, or to
the next number. -/
theorem exists_roundWithAccuracy_eq (s : Sign) (a : Accuracy) {t : ℤ}
    (ht : max (totalExponent m e - 53) (-1074) = t) (he : e ≤ t)
    (hm : m / 2 ^ (t - e).toNat < 2 ^ 53) :
    ∃ r, m / 2 ^ (t - e).toNat ≤ r ∧ r ≤ m / 2 ^ (t - e).toNat + 1 ∧
      roundWithAccuracy Format.binary64 s m e a = settle s r t := by
  have hmantissa := mantissa_shiftToTarget (m := m) (e := e) a
  have hexponent := exponent_shiftToTarget (m := m) (e := e) a
  rw [ht] at hmantissa hexponent
  rw [show e + ((t - e).toNat : ℤ) = t by omega] at hexponent
  obtain ⟨hle, hge⟩ := roundedMantissa_bounds (shiftToTargetExponent Format.binary64 m e a).1
  rw [hmantissa] at hle hge
  refine ⟨_, hle, hge, ?_⟩
  rw [settle_eq s (by omega) (ht ▸ le_max_right ..), ← hexponent]
  rfl

/-- A rounded number has the form of a double. Its leading bit is where it was or one place up,
unless it lies below the range in which significands have all their bits. -/
theorem round_spec (s : Sign) (a : Accuracy) (he : e ≤ max (totalExponent m e - 53) (-1074)) :
    Canonical (roundWithAccuracy Format.binary64 s m e a) ∧
    Below (max (totalExponent m e) (-1022) + 1) (roundWithAccuracy Format.binary64 s m e a) ∧
    (s = .positive → -1021 ≤ totalExponent m e →
      Reaches (totalExponent m e) (roundWithAccuracy Format.binary64 s m e a)) := by
  obtain ⟨t, ht⟩ : ∃ t, max (totalExponent m e - 53) (-1074) = t := ⟨_, rfl⟩
  have htotal : totalExponent m e = m.log2 + 1 + e := rfl
  rw [ht] at he
  by_cases hfull : -1021 ≤ totalExponent m e
  · have hm : m ≠ 0 := by
      rintro rfl
      rw [Nat.log2_zero] at htotal
      omega
    have hlt : m / 2 ^ (t - e).toNat < 2 ^ 53 := div_two_pow_lt (by omega)
    have hge : 2 ^ 52 ≤ m / 2 ^ (t - e).toNat := two_pow_le_div hm (by omega)
    obtain ⟨r, hle, hnext, hround⟩ := exists_roundWithAccuracy_eq s a ht he hlt
    have hr : r ≠ 0 := by omega
    have hlow : 52 ≤ r.log2 := (Nat.le_log2 hr).2 (by omega)
    have hhigh : r.log2 < 54 := log2_lt_of_lt (by decide) (by omega)
    have hrtotal : totalExponent r t = r.log2 + 1 + t := rfl
    rw [hround]
    refine ⟨canonical_settle (by omega) (by omega) (.inl (by omega)),
      below_settle (by omega) (by omega), ?_⟩
    rintro rfl -
    exact reaches_settle hr (by omega) (by omega)
  · have hlt : m / 2 ^ (t - e).toNat < 2 ^ 52 := div_two_pow_lt (by omega)
    obtain ⟨r, hle, hnext, hround⟩ := exists_roundWithAccuracy_eq s a ht he (by omega)
    have hhigh : r.log2 < 53 := log2_lt_of_lt (by decide) (by omega)
    have hrtotal : totalExponent r t = r.log2 + 1 + t := rfl
    rw [hround]
    exact ⟨canonical_settle (by omega) (by omega) (.inr (by omega)),
      below_settle (by omega) (by omega), fun _ h => absurd h hfull⟩

-- ════════════════════════════════════════════════════════════════════════
-- Fields
-- ════════════════════════════════════════════════════════════════════════

/-- What a double stands for. -/
def unpacked (x : Float) : UnpackedFloat := x.toModel.unpack

/-- What an exponent field and a fraction field stand for. -/
def ofFields (s : Sign) (b f : ℕ) : UnpackedFloat :=
  if b = 2047 then if f = 0 then .infinity s else .notANumber
  else if b = 0 then if h : f = 0 then .zero s else .finite s f (-1074) (Nat.pos_of_ne_zero h)
  else .finite s (2 ^ 52 + f) (b - 1075) (by omega)

section fields

variable {s : Sign} {b f : ℕ}

theorem canonical_ofFields (hf : f < 2 ^ 52) : Canonical (ofFields s b f) := by
  rw [ofFields]
  split
  · split <;> trivial
  split
  · split
    · trivial
    · have hlog : f.log2 < 53 := log2_lt_of_lt (by decide) (by omega)
      show max (totalExponent f (-1074) - 53) (-1074) = -1074
      rw [totalExponent]
      omega
  · have hlog : (2 ^ 52 + f).log2 = 52 := (Nat.log2_eq_iff (by omega)).2 ⟨by omega, by omega⟩
    show max (totalExponent (2 ^ 52 + f) (b - 1075) - 53) (-1074) = b - 1075
    rw [totalExponent, hlog]
    omega

/-- Only the largest exponent field is not that of a number. -/
theorem below_ofFields_iff (hb : b < 2 ^ 11) (hf : f < 2 ^ 52) :
    Below 1024 (ofFields s b f) ↔ b ≠ 2047 := by
  rw [ofFields]
  split
  · next h =>
    rw [h]
    refine iff_of_false ?_ fun h => h rfl
    split <;> exact id
  next hlast =>
  refine iff_of_true ?_ hlast
  split
  · split
    · trivial
    · have hlog : f.log2 < 52 := log2_lt_of_lt (by decide) hf
      show (f.log2 : ℤ) + 1 + -1074 ≤ 1024
      omega
  · have hlog : (2 ^ 52 + f).log2 < 53 := log2_lt_of_lt (by decide) (by omega)
    show ((2 ^ 52 + f).log2 : ℤ) + 1 + (b - 1075) ≤ 1024
    omega

end fields

theorem toNat_append_one (v : BitVec 52) : (1#1 ++ v).toNat = 2 ^ 52 + v.toNat := by
  rw [BitVec.toNat_append, ← Nat.shiftLeft_add_eq_or_of_lt v.isLt]
  rfl

theorem unpack_eq_ofFields (bits : BitVec 64) :
    UnpackedFloat.unpack Format.binary64 bits =
      ofFields (.ofBitVec (@unpackSign Format.binary64 bits))
        (@unpackExponent Format.binary64 bits).toNat
        (@unpackMantissa Format.binary64 bits).toNat := by
  have hbias : (Format.binary64.exponentBias : ℤ) + (52 : ℕ) = 1075 := rfl
  have hlast : (-1#11).toNat = 2047 := rfl
  have hleast : (0#11).toNat = 0 := rfl
  have hnone : (0#52).toNat = 0 := rfl
  simp only [UnpackedFloat.unpack, ofFields, toNat_append_one, ← BitVec.toNat_inj,
    hbias, hlast, hleast, hnone]
  split
  · rfl
  split
  · next h =>
    rw [h]
    rfl
  · rfl

theorem unpack_packComponents (s : Sign) (exponent : BitVec 11) (mantissa : BitVec 52) :
    UnpackedFloat.unpack Format.binary64
      (packComponents Format.binary64 s exponent mantissa) =
      ofFields s exponent.toNat mantissa.toNat := by
  rw [unpack_eq_ofFields, UnpackedFloat.unpackSign_packComponents, Sign.ofBitVec_toBitVec,
    UnpackedFloat.unpackExponent_packComponents, UnpackedFloat.unpackMantissa_packComponents]

theorem canonical_unpacked (x : Float) : Canonical (unpacked x) := by
  rw [unpacked, Float.Model.unpack, unpack_eq_ofFields]
  exact canonical_ofFields (BitVec.isLt _)

/-- A double is what has been packed, if that has the form of a double and is in range. -/
theorem unpacked_pack (hc : Canonical u) (hb : Below 1024 u) :
    unpacked (.ofModel (.pack u)) = u := by
  show UnpackedFloat.unpack Format.binary64 (UnpackedFloat.pack Format.binary64 u) = u
  cases u with
  | notANumber => exact hb.elim
  | infinity s => exact hb.elim
  | zero s => exact unpack_packComponents s 0 0
  | finite s m e hm =>
    change max ((m.log2 : ℤ) + 1 + e - 53) (-1074) = e at hc
    change (m.log2 : ℤ) + 1 + e ≤ 1024 at hb
    obtain ⟨b, hbiased, hvalue⟩ :
        ∃ b, (e + Format.binary64.exponentBias + (52 : ℕ)).toNat = b ∧ (b : ℤ) = e + 1075 := by
      refine ⟨_, rfl, ?_⟩
      show ((e + 1023 + 52).toNat : ℤ) = _
      omega
    have hbits : Format.binary64.mantissaBits = 53 := rfl
    simp only [UnpackedFloat.pack, hbits, hbiased]
    rw [if_neg (show ¬2 ^ 11 ≤ b + 1 by omega)]
    split
    · next hfull =>
      have hlow : 2 ^ 52 ≤ m := (Nat.le_log2 hm.ne').1 (by omega)
      have hhigh : m < 2 ^ 53 := (Nat.log2_lt hm.ne').1 (by omega)
      have hfraction : 2 ^ 52 + m % 2 ^ 52 = m := by omega
      have hexponent : (b : ℤ) - 1075 = e := by omega
      rw [unpack_packComponents, BitVec.toNat_ofNat, BitVec.toNat_ofNat,
        Nat.mod_eq_of_lt (show b < 2 ^ 11 by omega), ofFields, if_neg (by omega), if_neg (by omega)]
      simp only [hfraction, hexponent]
    · next hfull =>
      have hhigh : m < 2 ^ 52 := (Nat.log2_lt hm.ne').1 (by omega)
      have hexponent : e = -1074 := by omega
      rw [unpack_packComponents, BitVec.toNat_ofNat, BitVec.toNat_ofNat, Nat.zero_mod,
        Nat.mod_eq_of_lt hhigh, ofFields, if_neg (by decide), if_pos rfl, dif_neg hm.ne']
      simp only [hexponent]

/-- A double is a number exactly if it has a magnitude. -/
theorem isFinite_iff : isFinite x = true ↔ Below 1024 (unpacked x) := by
  rw [unpacked, Float.Model.unpack, unpack_eq_ofFields,
    below_ofFields_iff (BitVec.isLt _) (BitVec.isLt _)]
  have hb : (@unpackExponent Format.binary64 x.toModel.toBits.toBitVec).toNat =
      (x.toBits.toNat >>> 52) % 0x800 := by
    rw [unpackExponent, BitVec.toNat_cast, BitVec.extractLsb_toNat]
    rfl
  rw [hb, isFinite]
  by_cases hlast : (x.toBits.toNat >>> 52) % 0x800 = 2047
  · refine iff_of_false ?_ fun h => h hlast
    by_cases hfraction : x.toBits.toNat % hidden = 0
    · simp only [ofFloat, if_pos hlast, if_pos hfraction]
      exact Bool.false_ne_true
    · simp only [ofFloat, if_pos hlast, if_neg hfraction]
      exact Bool.false_ne_true
  · refine iff_of_true ?_ hlast
    by_cases hleast : (x.toBits.toNat >>> 52) % 0x800 = 0
    · simp only [ofFloat, if_neg hlast, if_pos hleast]
    · simp only [ofFloat, if_neg hlast, if_neg hleast]

-- ════════════════════════════════════════════════════════════════════════
-- Arithmetic
-- ════════════════════════════════════════════════════════════════════════

theorem mul_spec (hcu : Canonical u) (hcv : Canonical v) (hu : Below k u) (hv : Below l v)
    (hlow : -1022 ≤ k + l) :
    Canonical (.mul Format.binary64 u v) ∧ Below (k + l + 1) (.mul Format.binary64 u v) := by
  cases u with
  | notANumber | infinity => exact hu.elim
  | zero =>
    cases v with
    | notANumber | infinity => exact hv.elim
    | zero | finite => exact ⟨trivial, trivial⟩
  | finite s m e hm =>
    cases v with
    | notANumber | infinity => exact hv.elim
    | zero => exact ⟨trivial, trivial⟩
    | finite s' n f hn =>
      change max ((m.log2 : ℤ) + 1 + e - 53) (-1074) = e at hcu
      change max ((n.log2 : ℤ) + 1 + f - 53) (-1074) = f at hcv
      change (m.log2 : ℤ) + 1 + e ≤ k at hu
      change (n.log2 : ℤ) + 1 + f ≤ l at hv
      obtain ⟨hle, hge⟩ := log2_mul_bounds hm hn
      have htotal : totalExponent (m * n) (e + f) = (m * n).log2 + 1 + (e + f) := rfl
      obtain ⟨hcanonical, hbelow, -⟩ :=
        round_spec (m := m * n) (e := e + f) (s * s') .exact (by omega)
      exact ⟨hcanonical, hbelow.mono (by omega)⟩

/-- The dividend is shifted to the left first, until the quotient is worked out in units of `2 ^ g`. -/
theorem exists_div_eq (s : Sign) {m n : ℕ} {e f : ℤ} (hm : 0 < m) (hn : 0 < n) :
    ∃ g d, g = min (e - f) (max (totalExponent m e - totalExponent n f - 53) (-1074)) ∧
      0 < d ∧ d.log2 = m.log2 + (e - f - g).toNat ∧
      UnpackedFloat.div Format.binary64 (.finite s m e hm) (.finite .positive n f hn) =
        roundWithAccuracy Format.binary64 (s / .positive) (d / n) g
          (accuracyOfFraction (d % n) n) := by
  refine ⟨_, m <<< (e - f - min (e - f)
    (max (totalExponent m e - totalExponent n f - 53) (-1074))).toNat, rfl, ?_,
    log2_shiftLeft hm.ne' _, rfl⟩
  rw [Nat.shiftLeft_eq]
  exact Nat.mul_pos hm (Nat.two_pow_pos _)

theorem div_spec (hu : Below k u) (hv : Reaches l v) (hlow : -1023 ≤ k - l) :
    Canonical (.div Format.binary64 u v) ∧ Below (k - l + 2) (.div Format.binary64 u v) := by
  cases v with
  | notANumber | infinity | zero => exact hv.elim
  | finite s' n f hn =>
    cases s' with
    | negative => exact hv.elim
    | positive =>
      cases u with
      | notANumber | infinity => exact hu.elim
      | zero => exact ⟨trivial, trivial⟩
      | finite s m e hm =>
        change (m.log2 : ℤ) + 1 + e ≤ k at hu
        change l ≤ (n.log2 : ℤ) + 1 + f at hv
        obtain ⟨g, d, hg, hpos, hlog, hdiv⟩ := exists_div_eq s (e := e) (f := f) hm hn
        have hmtotal : totalExponent m e = m.log2 + 1 + e := rfl
        have hntotal : totalExponent n f = n.log2 + 1 + f := rfl
        have hqtotal : totalExponent (d / n) g = (d / n).log2 + 1 + g := rfl
        have hnone : d / n = 0 → (d / n).log2 = 0 := fun h => by rw [h, Nat.log2_zero]
        obtain ⟨hle, hge⟩ := log2_div_bounds hpos hn
        obtain ⟨hcanonical, hbelow, -⟩ := round_spec (m := d / n) (e := g) (s / .positive)
          (accuracyOfFraction (d % n) n) (by omega)
        rw [hdiv]
        exact ⟨hcanonical, hbelow.mono (by omega)⟩

theorem Below.mul (hx : Below k (unpacked x)) (hy : Below l (unpacked y)) (hlow : -1022 ≤ k + l)
    (hhigh : k + l < 1024) : Below (k + l + 1) (unpacked (x * y)) := by
  obtain ⟨hcanonical, hbelow⟩ :=
    mul_spec (canonical_unpacked x) (canonical_unpacked y) hx hy hlow
  exact (unpacked_pack hcanonical (hbelow.mono (by omega))).symm ▸ hbelow

theorem Below.div (hx : Below k (unpacked x)) (hy : Reaches l (unpacked y)) (hlow : -1023 ≤ k - l)
    (hhigh : k - l < 1023) : Below (k - l + 2) (unpacked (x / y)) := by
  obtain ⟨hcanonical, hbelow⟩ := div_spec hx hy hlow
  exact (unpacked_pack hcanonical (hbelow.mono (by omega))).symm ▸ hbelow

theorem ofNat_spec {n : ℕ} (hn : n < 2 ^ 64) :
    Canonical (.ofNat Format.binary64 n) ∧ Below 65 (.ofNat Format.binary64 n) ∧
      (0 < n → Reaches 1 (.ofNat Format.binary64 n)) := by
  by_cases h0 : n = 0
  · rw [h0]
    exact ⟨trivial, trivial, fun h => absurd h (lt_irrefl 0)⟩
  have hlog : n.log2 < 64 := log2_lt_of_lt (by decide) hn
  have htotal : totalExponent n 0 = n.log2 + 1 + 0 := rfl
  obtain ⟨j, hj⟩ : ∃ j, (0 - max (totalExponent n 0 - 53) (-1074)).toNat = j := ⟨_, rfl⟩
  have hround : UnpackedFloat.ofNat Format.binary64 n =
      roundWithAccuracy Format.binary64 .positive (n <<< j) (0 - j) .exact := by
    have hgt : compare (n : ℤ) 0 = .gt := compare_gt_iff_gt.2 (by omega)
    rw [UnpackedFloat.ofNat, UnpackedFloat.ofInt,
      UnpackedFloat.normalize, hgt, ← hj]
    rfl
  have hshifted : totalExponent (n <<< j) (0 - j) = n.log2 + 1 := by
    rw [totalExponent, log2_shiftLeft h0]
    omega
  obtain ⟨hcanonical, hbelow, hreaches⟩ :=
    round_spec (m := n <<< j) (e := 0 - j) .positive .exact (by omega)
  rw [hshifted] at hbelow hreaches
  rw [hround]
  exact ⟨hcanonical, hbelow.mono (by omega), fun _ => (hreaches rfl (by omega)).mono (by omega)⟩

/-- A word that is not negative has at most sixty-four bits, and at least one if it is not zero. -/
theorem ofInt64_spec {n : Int64} (h : 0 ≤ n.toInt) :
    Below 65 (unpacked (ofInt64 n)) ∧ (0 < n.toInt → Reaches 1 (unpacked (ofInt64 n))) := by
  have hword : n.toInt = n.toUInt64.toNat := by
    have hcond : n.toInt = _ := BitVec.toInt_eq_toNat_cond n.toBitVec
    have hbits : n.toUInt64.toNat = n.toBitVec.toNat := rfl
    have hlt := n.toInt_lt
    split at hcond <;> omega
  have hpos : ¬n < 0 := by
    rw [Int64.lt_iff_toInt_lt]
    exact not_lt.2 h
  obtain ⟨hcanonical, hbelow, hreaches⟩ := ofNat_spec n.toUInt64.toNat_lt
  have hunpacked : unpacked n.toUInt64.toFloat = .ofNat Format.binary64 n.toUInt64.toNat :=
    unpacked_pack hcanonical (hbelow.mono (by decide))
  rw [ofInt64, if_neg hpos, hunpacked]
  exact ⟨hbelow, fun h => hreaches (by omega)⟩

-- ════════════════════════════════════════════════════════════════════════
-- Order
-- ════════════════════════════════════════════════════════════════════════

theorem le_iff : x ≤ y ↔ ((unpacked x).compare (unpacked y)).any (·.isLE) = true :=
  decide_eq_true_iff

/-- A number that is no smaller has its leading bit no lower, where significands have all their
bits. -/
theorem Reaches.of_le (hx : Reaches k (unpacked x)) (hy : Below l (unpacked y)) (hk : -1021 < k)
    (h : x ≤ y) : Reaches k (unpacked y) := by
  have hcx := canonical_unpacked x
  have hcy := canonical_unpacked y
  rw [le_iff] at h
  generalize unpacked x = u at hx hcx h
  generalize unpacked y = v at hy hcy h ⊢
  cases u with
  | notANumber | infinity | zero => exact hx.elim
  | finite s m e hm =>
    cases s with
    | negative => exact hx.elim
    | positive =>
      cases v with
      | notANumber | infinity => exact hy.elim
      | zero => cases h
      | finite s' n f hn =>
        cases s' with
        | negative => cases h
        | positive =>
          have hef : e ≤ f := by
            by_contra hlt
            change ((compare e f).then (compare m n)).isLE = true at h
            rw [compare_gt_iff_gt.2 (not_le.1 hlt)] at h
            cases h
          change max (totalExponent m e - 53) (-1074) = e at hcx
          change max (totalExponent n f - 53) (-1074) = f at hcy
          change k ≤ totalExponent m e at hx
          show k ≤ totalExponent n f
          omega

/-- A number whose leading bit is higher is larger. -/
theorem Below.le_of_reaches (hx : Below k (unpacked x)) (hy : Reaches l (unpacked y)) (hkl : k < l)
    (hk : -1021 ≤ k) : x ≤ y := by
  have hcx := canonical_unpacked x
  have hcy := canonical_unpacked y
  rw [le_iff]
  generalize unpacked x = u at hx hcx ⊢
  generalize unpacked y = v at hy hcy ⊢
  cases v with
  | notANumber | infinity | zero => exact hy.elim
  | finite s n f hn =>
    cases s with
    | negative => exact hy.elim
    | positive =>
      cases u with
      | notANumber | infinity => exact hx.elim
      | zero => rfl
      | finite s' m e hm =>
        cases s' with
        | negative => rfl
        | positive =>
          change max (totalExponent m e - 53) (-1074) = e at hcx
          change max (totalExponent n f - 53) (-1074) = f at hcy
          change totalExponent m e ≤ k at hx
          change l ≤ totalExponent n f at hy
          show ((compare e f).then (compare m n)).isLE = true
          rw [compare_lt_iff_lt.2 (show e < f by omega)]
          rfl

theorem Reaches.not_le_zero (hx : Reaches k (unpacked x)) : ¬x ≤ 0 := by
  have hzero : unpacked 0 = .zero .positive := rfl
  rw [le_iff, hzero]
  generalize unpacked x = u at hx
  cases u with
  | notANumber | infinity | zero => exact hx.elim
  | finite s m e hm =>
    cases s with
    | negative => exact hx.elim
    | positive => exact Bool.false_ne_true

end Binary64

end DegreeScore
