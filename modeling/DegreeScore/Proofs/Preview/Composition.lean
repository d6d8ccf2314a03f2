import DegreeScore.Proofs.Preview
import Mathlib.Algebra.Group.Nat.Defs

/-!
# Previews of previews

The preview of a preview is one preview from the sum of the two starts, if neither keeps a limited
number of notes (`Midi.File.preview_preview`). The first of the two may keep releases that the other
does not: those of notes which start between the two starts. So a note that is open in the one preview
is open in the first of the two, but not the other way round (`Clip.Composed`).
-/

namespace DegreeScore

namespace Clip

variable {a b : UInt32}

theorem isFull_of_unlimited (start : UInt32) (c : Clip) : c.isFull ⟨start, 0⟩ = false := rfl

theorem toNat_start (h : a.toNat + b.toNat < UInt32.size) : (a + b).toNat = a.toNat + b.toNat := by
  rw [UInt32.toNat_add]
  exact Nat.mod_eq_of_lt h

/-- Starting later twice is starting later by the sum. -/
theorem place_place (h : a.toNat + b.toNat < UInt32.size) (tick : UInt32) :
    place ⟨b, 0⟩ (place ⟨a, 0⟩ tick) = place ⟨a + b, 0⟩ tick := by
  apply UInt32.toNat_inj.1
  rw [toNat_place, toNat_place, toNat_place, toNat_start h, Nat.sub_sub]

/-- From the first start on, the ticks before the second are those before the sum. -/
theorem place_lt_iff (h : a.toNat + b.toNat < UInt32.size) {tick : UInt32} (ha : ¬tick < a) :
    place ⟨a, 0⟩ tick < b ↔ tick < a + b := by
  rw [UInt32.not_lt, UInt32.le_iff_toNat_le] at ha
  rw [UInt32.lt_iff_toNat_lt, UInt32.lt_iff_toNat_lt, toNat_place, toNat_start h]
  dsimp only
  omega

/-- After the same events of a track: a clip from `a` on, the clip from `b` on of what it keeps, and a
clip from the sum on. -/
structure Composed (first second direct : Clip) : Prop where
  now : first.now = direct.now
  passed : second.now = first.last
  last : second.last = direct.last
  kept : second.kept.toList = direct.kept.toList
  opened : ∀ n, second.opened n = direct.opened n
  opened_le : ∀ n, direct.opened n ≤ first.opened n

theorem composed_empty : Composed {} {} {} where
  now := rfl
  passed := rfl
  last := rfl
  kept := rfl
  opened _ := rfl
  opened_le _ := Nat.le_refl _

namespace Composed

variable {first second direct : Clip} {e : Midi.TrackEvent}

/-- What the first clip does not keep, the one from the sum on does not keep. -/
theorem not_keeps (h : Composed first second direct) (hab : a.toNat + b.toNat < UInt32.size)
    (hkeeps : first.keeps ⟨a, 0⟩ e = false) : direct.keeps ⟨a + b, 0⟩ e = false := by
  rw [keeps, isFull_of_unlimited] at hkeeps ⊢
  cases hrole : e.role with
  | on n mute =>
    simp only [hrole, Bool.or_false, Bool.not_eq_false', decide_eq_true_eq] at hkeeps ⊢
    rw [UInt32.lt_iff_toNat_lt] at hkeeps ⊢
    rw [toNat_start hab, ← h.now]
    omega
  | off n =>
    simp only [hrole, decide_eq_false_iff_not] at hkeeps ⊢
    have hle := h.opened_le n
    omega
  | other => simp [hrole] at hkeeps

/-- The event with which the first clip goes on, if it keeps the next event of the track. -/
def added (first : Clip) (a : UInt32) (e : Midi.TrackEvent) : Midi.TrackEvent :=
  ⟨place ⟨a, 0⟩ (first.now + e.delta) - first.last, e.event⟩

theorem now_add_delta (h : Composed first second direct) :
    second.now + (added first a e).delta = place ⟨a, 0⟩ (first.now + e.delta) := by
  rw [h.passed, added, UInt32.add_comm, UInt32.sub_add_cancel]

/-- What the first clip keeps, the second keeps exactly if the one from the sum on does. -/
theorem keeps_eq (h : Composed first second direct) (hab : a.toNat + b.toNat < UInt32.size)
    (hkeeps : first.keeps ⟨a, 0⟩ e = true) :
    second.keeps ⟨b, 0⟩ (added first a e) = direct.keeps ⟨a + b, 0⟩ e := by
  have hrole' : (added first a e).role = e.role := rfl
  rw [keeps, isFull_of_unlimited] at hkeeps
  rw [keeps, keeps, isFull_of_unlimited, isFull_of_unlimited, hrole', h.now_add_delta]
  cases hrole : e.role with
  | on n mute =>
    simp only [hrole, Bool.or_false, Bool.not_eq_true', decide_eq_false_iff_not] at hkeeps ⊢
    rw [h.now] at hkeeps ⊢
    simp only [place_lt_iff hab hkeeps]
  | off n => simp only [h.opened]
  | other => simp only [Bool.false_and]

/-- A note stays open in the first clip as long as in the one from the sum on. -/
theorem opened_le_step (h : Composed first second direct) (hab : a.toNat + b.toNat < UInt32.size)
    (n : UInt8 × UInt8) :
    (direct.step ⟨a + b, 0⟩ e).opened n ≤ (first.step ⟨a, 0⟩ e).opened n := by
  have hle := h.opened_le n
  rw [opened_step, opened_step]
  cases hcloses : e.closes n
  · cases hkeeps : first.keeps ⟨a, 0⟩ e
    · rw [h.not_keeps hab hkeeps]
      simpa using hle
    · cases e.opens n <;> cases direct.keeps ⟨a + b, 0⟩ e <;> simp <;> omega
  · rw [keeps_of_closes hcloses, keeps_of_closes hcloses, Midi.TrackEvent.opens_eq_false hcloses]
    simp only [Bool.and_false, Bool.and_true, Bool.false_eq_true, ↓reduceIte, decide_eq_true_eq]
    split <;> split <;> omega

/-- The next event of a track is dropped by the first clip and the one from the sum on. -/
theorem step_of_not_keeps (h : Composed first second direct)
    (hab : a.toNat + b.toNat < UInt32.size) (hkeeps : first.keeps ⟨a, 0⟩ e = false) :
    Composed (first.step ⟨a, 0⟩ e) second (direct.step ⟨a + b, 0⟩ e) := by
  have hdirect := h.not_keeps hab hkeeps
  constructor
  case now => rw [now_step, now_step, h.now]
  case passed =>
    rw [last_step, hkeeps]
    exact h.passed
  case last =>
    rw [last_step, hdirect]
    exact h.last
  case kept =>
    rw [kept_step, hdirect, h.kept]
    exact (List.append_nil _).symm
  case opened =>
    intro n
    rw [opened_step, hdirect]
    exact h.opened n
  case opened_le => exact h.opened_le_step hab

/-- The next event of a track is kept by the first clip; the second takes it as the one from the sum
on does. -/
theorem step_of_keeps (h : Composed first second direct) (hab : a.toNat + b.toNat < UInt32.size)
    (hkeeps : first.keeps ⟨a, 0⟩ e = true) :
    Composed (first.step ⟨a, 0⟩ e) (second.step ⟨b, 0⟩ (added first a e))
      (direct.step ⟨a + b, 0⟩ e) := by
  have hsecond := h.keeps_eq hab hkeeps
  constructor
  case now => rw [now_step, now_step, h.now]
  case passed => rw [now_step, last_step, if_pos hkeeps, h.now_add_delta]
  case last => rw [last_step, last_step, hsecond, h.now_add_delta, place_place hab, h.now, h.last]
  case kept =>
    rw [kept_step, kept_step, hsecond, h.now_add_delta, place_place hab, h.now, h.last, h.kept]
    rfl
  case opened =>
    intro n
    rw [opened_step, opened_step, hsecond, h.opened]
    rfl
  case opened_le => exact h.opened_le_step hab

end Composed

/-- What two previews keep one after the other, and what one keeps from the sum of their starts on. -/
theorem composed_foldl (hab : a.toNat + b.toNat < UInt32.size) (es : Midi.Track) :
    Composed (es.foldl (step ⟨a, 0⟩) {})
      ((es.foldl (step ⟨a, 0⟩) {}).kept.toList.foldl (step ⟨b, 0⟩) {})
      (es.foldl (step ⟨a + b, 0⟩) {}) := by
  induction es using List.reverseRecOn with
  | nil => exact composed_empty
  | append_singleton es e ih =>
    rw [List.foldl_append, List.foldl_append, List.foldl_cons, List.foldl_nil, List.foldl_cons,
      List.foldl_nil, kept_step, List.foldl_append]
    cases hkeeps : (es.foldl (step ⟨a, 0⟩) {}).keeps ⟨a, 0⟩ e
    · exact ih.step_of_not_keeps hab hkeeps
    · exact ih.step_of_keeps hab hkeeps

end Clip

namespace Midi

variable {a b : UInt32}

theorem Track.preview_of_preview (h : a.toNat + b.toNat < UInt32.size) (t : Track) :
    (t.preview ⟨a, 0⟩).preview ⟨b, 0⟩ = t.preview ⟨a + b, 0⟩ := by
  have hkept := (Clip.composed_foldl h t.played).kept
  rw [← Track.played_preview] at hkept
  exact congrArg (· ++ [TrackEvent.ending 0]) hkept

/-- The preview from `b` on of the preview from `a` on is the preview from `a + b` on, if notes are not
limited and the sum is a tick. The tracks may be of any length, also where their ticks wrap round. -/
theorem File.preview_preview (f : File) (h : a.toNat + b.toNat < 2 ^ 32) :
    (f.preview ⟨a, 0⟩).preview ⟨b, 0⟩ = f.preview ⟨a + b, 0⟩ := by
  simp only [File.preview, List.map_map]
  exact congrArg (File.mk f.format f.timing)
    (List.map_congr_left fun t _ => Track.preview_of_preview h t)

/-- Two notes of one key that overlap, on a track with a program. -/
def overlapping : File where
  format := 0
  timing := some (.metric 96)
  tracks := [[⟨0, some (.channel 0 (.programChange 5))⟩, ⟨24, some (.channel 0 (.noteOn 60 64))⟩,
    ⟨72, some (.channel 0 (.noteOn 60 80))⟩, ⟨48, some (.channel 0 (.noteOff 60 0))⟩,
    ⟨48, some (.channel 0 (.noteOff 60 0))⟩, .ending 0]]

/-- The second start is after the first note, of which the first preview has kept the release. -/
theorem File.preview_preview_overlapping :
    (12 : UInt32).toNat + (36 : UInt32).toNat < 2 ^ 32 ∧
      (overlapping.preview ⟨12, 0⟩).preview ⟨36, 0⟩ = overlapping.preview ⟨12 + 36, 0⟩ ∧
      (overlapping.preview ⟨12, 0⟩).tracks = [[⟨0, some (.channel 0 (.programChange 5))⟩,
        ⟨12, some (.channel 0 (.noteOn 60 64))⟩, ⟨72, some (.channel 0 (.noteOn 60 80))⟩,
        ⟨48, some (.channel 0 (.noteOff 60 0))⟩, ⟨48, some (.channel 0 (.noteOff 60 0))⟩,
        .ending 0]] ∧
      (overlapping.preview ⟨12 + 36, 0⟩).tracks = [[⟨0, some (.channel 0 (.programChange 5))⟩,
        ⟨48, some (.channel 0 (.noteOn 60 80))⟩, ⟨48, some (.channel 0 (.noteOff 60 0))⟩,
        .ending 0]] :=
  ⟨by decide, overlapping.preview_preview (by decide), by decide +kernel, by decide +kernel⟩

end Midi

end DegreeScore
