import DegreeScore.Plan.Context
import DegreeScore.Proofs.Ratio
import Mathlib.Data.Int.ModEq

/-!
# Pitches and the circle of fifths

A degree in a key stands so many sevenths of a semitone above the lowest MIDI key, and its semitone is
the whole number below. Words are divided by rounding towards zero and taking one away where this was
up (`toInt_floorDiv`). As long as the numbers fit in words the semitone is exact
(`toInt_semitone`), so that seven degrees are an octave, and a sharp more in the key raises one degree
in seven: the keys go through the degrees in the order in which fifths come to them
(`toInt_semitone_add_one_key`). `pitchesFollowFifths` puts this together.

## Main definitions

- `semitone` — the MIDI key of a degree before it is kept within 0 to 127
- `ExactPitch` — the numbers of which a semitone is made fit in words
-/

namespace DegreeScore

-- ════════════════════════════════════════════════════════════════════════
-- Rounding down
-- ════════════════════════════════════════════════════════════════════════

/-- The quotient rounded down: it was rounded up to zero if the signs differ and something is left. -/
def floorDiv (a b : Int64) : Int64 :=
  if a % b ≠ 0 ∧ ¬(a < 0 ↔ b < 0) then a / b - 1 else a / b

theorem toInt_floorDiv {a b : Int64} (hb : 0 < b.toInt) :
    (floorDiv a b).toInt = a.toInt / b.toInt := by
  have hdiv : (a / b).toInt = a.toInt.tdiv b.toInt := by
    apply Ratio.toInt_div_of_not_least
    rintro ⟨-, rfl⟩
    exact absurd hb (by decide)
  have hrest : a % b = 0 ↔ b.toInt ∣ a.toInt := by
    rw [← Int64.toInt_inj, Int64.toInt_mod, Int.dvd_iff_tmod_eq_zero]
    rfl
  have hneg : (a < 0 ↔ b < 0) ↔ 0 ≤ a.toInt := by
    rw [Int64.lt_iff_toInt_lt, Int64.lt_iff_toInt_lt, show (0 : Int64).toInt = 0 from rfl]
    omega
  have hfits : Fits (a.toInt / b.toInt) := (fits_toInt a).ediv hb
  have hquotient := Int.tdiv_eq_ediv (a := a.toInt) (b := b.toInt)
  rw [Int.sign_eq_one_of_pos hb] at hquotient
  by_cases h : a % b ≠ 0 ∧ ¬(a < 0 ↔ b < 0)
  · have hup : (a / b).toInt = a.toInt / b.toInt + 1 := by
      rw [hdiv, hquotient, if_neg]
      rintro (hpos | hdvd)
      · exact h.2 (hneg.2 hpos)
      · exact h.1 (hrest.2 hdvd)
    rw [floorDiv, if_pos h, Int64.toInt_sub, hup, show (1 : Int64).toInt = 1 from rfl,
      Int.add_sub_cancel, hfits.bmod_eq]
  · rw [floorDiv, if_neg h, hdiv, hquotient, if_pos, Int.add_zero]
    rw [not_and_or, not_not, not_not, hrest, hneg] at h
    exact h.symm

-- ════════════════════════════════════════════════════════════════════════
-- Semitones
-- ════════════════════════════════════════════════════════════════════════

/-- The MIDI key of a degree, before it is kept within 0 to 127. -/
def semitone (degree accidental key : Int64) : Int64 :=
  floorDiv (425 + 12 * degree + key) 7 + accidental

variable {degree accidental key degree' accidental' key' : Int64}

theorem pitch_eq (degree accidental key : Int64) : pitch degree accidental key =
    let p := semitone degree accidental key
    if p < 0 then 0 else if 127 < p then 127 else UInt8.ofNat p.toInt.toNat := by
  have hfloor : ∀ x : Int64, Int64.ofInt (x.toInt.fdiv 7) = floorDiv x 7 := by
    intro x
    have hfits : Fits (x.toInt / 7) := (fits_toInt x).ediv (by decide)
    rw [← Int64.toInt_inj, toInt_floorDiv (by decide), Int.fdiv_eq_ediv_of_nonneg _ (by decide),
      Int64.toInt_ofInt_of_le hfits.1 hfits.2]
    rfl
  rw [pitch, semitone, hfloor]

/-- A pitch is the semitone, or the nearest MIDI key. -/
theorem toNat_pitch (degree accidental key : Int64) :
    ((pitch degree accidental key).toNat : ℤ) =
      max 0 (min 127 (semitone degree accidental key).toInt) := by
  rw [pitch_eq]
  dsimp only
  generalize semitone degree accidental key = p
  have h0 : (0 : Int64).toInt = 0 := rfl
  have h127 : (127 : Int64).toInt = 127 := rfl
  split
  · next hlow =>
    rw [Int64.lt_iff_toInt_lt] at hlow
    show (0 : ℤ) = _
    omega
  · next hlow =>
    split
    · next hhigh =>
      rw [Int64.lt_iff_toInt_lt] at hhigh
      show (127 : ℤ) = _
      omega
    · next hhigh =>
      rw [Int64.lt_iff_toInt_lt] at hlow hhigh
      rw [UInt8.toNat_ofNat_of_lt' (by rw [UInt8.size]; omega)]
      omega

/-- The sum of which a seventh is taken, and what comes to it, are words. Where a number on the way to
the sum does not fit, it wraps round and back again. -/
structure ExactPitch (degree accidental key : Int64) : Prop where
  sum : Fits (425 + 12 * degree.toInt + key.toInt)
  total : Fits ((425 + 12 * degree.toInt + key.toInt) / 7 + accidental.toInt)

theorem toInt_semitone (h : ExactPitch degree accidental key) :
    (semitone degree accidental key).toInt =
      (425 + 12 * degree.toInt + key.toInt) / 7 + accidental.toInt := by
  have hsum : (425 + 12 * degree + key).toInt = 425 + 12 * degree.toInt + key.toInt := by
    rw [Int64.toInt_add, Int64.toInt_add, Int64.toInt_mul, show (425 : Int64).toInt = 425 from rfl,
      show (12 : Int64).toInt = 12 from rfl, Int.add_bmod_bmod, Int.bmod_add_bmod, h.sum.bmod_eq]
  rw [semitone, Int64.toInt_add, toInt_floorDiv (by decide), hsum, show (7 : Int64).toInt = 7 from rfl,
    h.total.bmod_eq]

/-- Rounding down as a fraction and as a whole number. -/
theorem floor_eq (degree key : Int64) :
    ⌊(425 + 12 * (degree.toInt : ℚ) + key.toInt) / 7⌋ =
      (425 + 12 * degree.toInt + key.toInt) / 7 := by
  exact_mod_cast Rat.floor_intCast_div_natCast (425 + 12 * degree.toInt + key.toInt) 7

-- ════════════════════════════════════════════════════════════════════════
-- Steps
-- ════════════════════════════════════════════════════════════════════════

theorem semitone_mono (h : ExactPitch degree accidental key)
    (h' : ExactPitch degree' accidental' key') (hdegree : degree ≤ degree')
    (haccidental : accidental ≤ accidental') (hkey : key ≤ key') :
    (semitone degree accidental key).toInt ≤ (semitone degree' accidental' key').toInt := by
  rw [Int64.le_iff_toInt_le] at hdegree haccidental hkey
  rw [toInt_semitone h, toInt_semitone h']
  omega

/-- So many degrees more are found without wrapping round. -/
theorem ExactPitch.toInt_add_degree (h : ExactPitch degree accidental key) {n : Int64}
    (hn : 0 ≤ n.toInt) (hfew : n.toInt ≤ 7) : (degree + n).toInt = degree.toInt + n.toInt := by
  have hfits : Fits (degree.toInt + n.toInt) := by
    have hsum := h.sum
    have hkey := fits_toInt key
    have hdegree := fits_toInt degree
    unfold Fits at *
    omega
  rw [Int64.toInt_add, hfits.bmod_eq]

theorem toInt_semitone_add_seven (h : ExactPitch degree accidental key)
    (h' : ExactPitch (degree + 7) accidental key) :
    (semitone (degree + 7) accidental key).toInt = (semitone degree accidental key).toInt + 12 := by
  have hdegree : (degree + 7).toInt = degree.toInt + 7 := h.toInt_add_degree (by decide) (by decide)
  rw [toInt_semitone h, toInt_semitone h', hdegree]
  omega

theorem toInt_semitone_add_one (h : ExactPitch degree accidental key)
    (h' : ExactPitch (degree + 1) accidental key) :
    (semitone (degree + 1) accidental key).toInt = (semitone degree accidental key).toInt + 1 ∨
      (semitone (degree + 1) accidental key).toInt =
        (semitone degree accidental key).toInt + 2 := by
  have hdegree : (degree + 1).toInt = degree.toInt + 1 := h.toInt_add_degree (by decide) (by decide)
  rw [toInt_semitone h, toInt_semitone h', hdegree]
  omega

theorem toInt_add_one_key (h : Fits (key.toInt + 1)) : (key + 1).toInt = key.toInt + 1 := by
  rw [Int64.toInt_add, show (1 : Int64).toInt = 1 from rfl, h.bmod_eq]

/-- A sharp more in the key raises one degree in seven: the fourth one where there was none, and with
each sharp that there was the one four degrees above. -/
theorem toInt_semitone_add_one_key (hkey : Fits (key.toInt + 1))
    (h : ExactPitch degree accidental key) (h' : ExactPitch degree accidental (key + 1)) :
    (semitone degree accidental (key + 1)).toInt = (semitone degree accidental key).toInt +
      if degree.toInt ≡ 3 + 4 * key.toInt [ZMOD 7] then 1 else 0 := by
  rw [toInt_semitone h, toInt_semitone h', toInt_add_one_key hkey]
  split
  · next hraised =>
    rw [Int.ModEq] at hraised
    omega
  · next hkept =>
    rw [Int.ModEq] at hkept
    omega

/-- Of the degrees of a class there are some whose pitches are exact with and without the sharp. -/
theorem exists_exactPitch (hkey : Fits (key.toInt + 1)) (r : Fin 7) : ∃ degree : Int64,
    degree.toInt ≡ r [ZMOD 7] ∧ ExactPitch degree 0 key ∧ ExactPitch degree 0 (key + 1) := by
  -- The sum stays on the side of zero on which the key is not.
  obtain ⟨n, hclass, hsum⟩ : ∃ n : ℤ, n ≡ r [ZMOD 7] ∧
      (key.toInt < 0 ∧ -28 ≤ n ∧ n ≤ -22 ∨ 0 ≤ key.toInt ∧ -49 ≤ n ∧ n ≤ -43) := by
    rcases lt_or_ge key.toInt 0 with hneg | hpos
    · exact ⟨r - 28, by rw [Int.ModEq]; omega, by omega⟩
    · exact ⟨r - 49, by rw [Int.ModEq]; omega, by omega⟩
  have hn : Fits n := ⟨by omega, by omega⟩
  obtain ⟨degree, rfl⟩ := hn.exists_toInt
  have hbounds := fits_toInt key
  have hzero : (0 : Int64).toInt = 0 := rfl
  have hadd := toInt_add_one_key hkey
  unfold Fits at hkey hbounds
  refine ⟨degree, hclass, ⟨?_, ?_⟩, ?_, ?_⟩
  all_goals
    unfold Fits
    omega

/-- The degrees that are raised are one of the seven classes. -/
theorem existsUnique_raised (hkey : Fits (key.toInt + 1)) : ∃! r : Fin 7, ∀ degree accidental,
    ExactPitch degree accidental key → ExactPitch degree accidental (key + 1) →
    (semitone degree accidental (key + 1)).toInt =
      (semitone degree accidental key).toInt + if degree.toInt ≡ r [ZMOD 7] then 1 else 0 := by
  obtain ⟨r, hr⟩ : ∃ r : Fin 7, 3 + 4 * key.toInt ≡ r [ZMOD 7] :=
    ⟨⟨((3 + 4 * key.toInt) % 7).toNat, by omega⟩, by
      rw [Int.ModEq]
      dsimp only
      omega⟩
  have hraised : ∀ degree : Int64,
      degree.toInt ≡ 3 + 4 * key.toInt [ZMOD 7] ↔ degree.toInt ≡ r [ZMOD 7] :=
    fun degree => ⟨fun h => h.trans hr, fun h => h.trans hr.symm⟩
  refine ⟨r, fun degree accidental h h' => ?_, fun r' hr' => ?_⟩
  · rw [toInt_semitone_add_one_key hkey h h']
    simp only [hraised]
  · -- A degree of the other class is raised as well, so it is of this class.
    obtain ⟨degree, hdegree, h, h'⟩ := exists_exactPitch hkey r'
    have hlaw := hr' degree 0 h h'
    rw [toInt_semitone_add_one_key hkey h h', if_pos hdegree] at hlaw
    have hclass : degree.toInt ≡ 3 + 4 * key.toInt [ZMOD 7] := by
      by_contra hkept
      rw [if_neg hkept] at hlaw
      omega
    have hsame : (r' : ℤ) ≡ r [ZMOD 7] := (hdegree.symm.trans hclass).trans hr
    rw [Int.ModEq] at hsame
    omega

/-- Pitches follow the circle of fifths, as long as the numbers that make them fit in words. -/
structure PitchesFollowFifths : Prop where
  /-- There are twelve semitones for seven degrees, and one for seven sharps. -/
  exact_pitch : ∀ degree accidental key, ExactPitch degree accidental key →
    ((pitch degree accidental key).toNat : ℤ) = max 0 (min 127
      (⌊(425 + 12 * (degree.toInt : ℚ) + key.toInt) / 7⌋ + accidental.toInt))
  mono : ∀ degree accidental key degree' accidental' key', ExactPitch degree accidental key →
    ExactPitch degree' accidental' key' → degree ≤ degree' → accidental ≤ accidental' →
    key ≤ key' → pitch degree accidental key ≤ pitch degree' accidental' key'
  /-- A pitch is a semitone that is kept within the MIDI keys; the laws below are about it. -/
  clamped : ∀ degree accidental key, ((pitch degree accidental key).toNat : ℤ) =
    max 0 (min 127 (semitone degree accidental key).toInt)
  octave : ∀ degree accidental key, ExactPitch degree accidental key →
    ExactPitch (degree + 7) accidental key →
    (semitone (degree + 7) accidental key).toInt = (semitone degree accidental key).toInt + 12
  step : ∀ degree accidental key, ExactPitch degree accidental key →
    ExactPitch (degree + 1) accidental key →
    (semitone (degree + 1) accidental key).toInt = (semitone degree accidental key).toInt + 1 ∨
      (semitone (degree + 1) accidental key).toInt = (semitone degree accidental key).toInt + 2
  /-- A sharp more in the key raises the degrees of one class by a semitone, and no others. -/
  sharp : ∀ key, Fits (key.toInt + 1) → ∃! r : Fin 7, ∀ degree accidental,
    ExactPitch degree accidental key → ExactPitch degree accidental (key + 1) →
    (semitone degree accidental (key + 1)).toInt =
      (semitone degree accidental key).toInt + if degree.toInt ≡ r [ZMOD 7] then 1 else 0

theorem pitchesFollowFifths : PitchesFollowFifths where
  exact_pitch degree accidental key h := by rw [toNat_pitch, toInt_semitone h, floor_eq]
  mono degree accidental key degree' accidental' key' h h' hdegree haccidental hkey := by
    have hle := semitone_mono h h' hdegree haccidental hkey
    have hpitch := toNat_pitch degree accidental key
    have hpitch' := toNat_pitch degree' accidental' key'
    rw [UInt8.le_iff_toNat_le]
    omega
  clamped := toNat_pitch
  octave degree accidental key := toInt_semitone_add_seven
  step degree accidental key := toInt_semitone_add_one
  sharp key := existsUnique_raised

/-- A sum below zero, which is not a multiple of seven, and the degree an octave above. -/
theorem pitchesFollowFifths_belowZero :
    ExactPitch (-40) 12 (-10) ∧ ExactPitch (-40 + 7) 12 (-10) ∧
      ((pitch (-40) 12 (-10)).toNat : ℤ) = 2 ∧ (semitone (-40 + 7) 12 (-10)).toInt = 14 := by
  have h : ExactPitch (-40) 12 (-10) := ⟨by decide, by decide⟩
  have h' : ExactPitch (-40 + 7) 12 (-10) := ⟨by decide, by decide⟩
  refine ⟨h, h', (pitchesFollowFifths.exact_pitch _ _ _ h).trans ?_, ?_⟩
  · rw [floor_eq]
    decide
  · rw [pitchesFollowFifths.octave _ _ _ h h', toInt_semitone h]
    decide

end DegreeScore
