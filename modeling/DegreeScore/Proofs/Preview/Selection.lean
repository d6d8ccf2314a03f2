import DegreeScore.Proofs.Midi.Writing
import DegreeScore.Proofs.Preview
import DegreeScore.Proofs.Timing
import Mathlib.Algebra.Order.BigOperators.Group.List

/-!
# What a preview selects and where it puts it

A preview chooses event by event, and whether it keeps one depends on what it has kept before
(`Midi.Choice.Fits`). What it keeps is as far from its beginning as it was from the start of the
preview in the track, and at the beginning if it came before (`Midi.Excerpt.kept`); what is dropped
leaves its time to the next event that is kept. This holds as long as the ticks of a track do not wrap
round.

## Main results

- `Midi.Choice.filter_isOn` — the notes that are kept are the first ones from the start on
- `Midi.File.preview_selects` — the tracks of a preview, and that it can be written if the file can
-/

namespace DegreeScore

/-- The running sums before the last one. -/
theorem Midi.moments_concat (before : Nat) (deltas : List UInt32) (d : UInt32) :
    moments before (deltas ++ [d]) =
      moments before deltas ++ [before + (deltas.map (·.toNat)).sum + d.toNat] := by
  induction deltas generalizing before with
  | nil => rfl
  | cons d' deltas ih =>
    rw [List.cons_append, moments, moments, ih, List.map_cons, List.sum_cons, List.cons_append,
      Nat.add_assoc before]

-- ════════════════════════════════════════════════════════════════════════
-- Limits
-- ════════════════════════════════════════════════════════════════════════

namespace PreviewLimits

variable {α : Type} (limits : PreviewLimits)

/-- Whether one more note may be kept after so many. -/
def hasRoom (notes : Nat) : Bool := limits.notes ≤ 0 || (notes : ℤ) < limits.notes

/-- As many of the first elements of a list as there is room for. -/
def first (l : List α) : List α := if limits.notes ≤ 0 then l else l.take limits.notes.toNat

theorem isFull_eq (c : Clip) : c.isFull limits = !limits.hasRoom c.attacks := by
  rw [Bool.eq_iff_iff, Clip.isFull, hasRoom]
  simp only [Bool.and_eq_true, decide_eq_true_eq, Bool.not_eq_true', Bool.or_eq_false_iff,
    decide_eq_false_iff_not]
  omega

theorem first_concat (l : List α) (a : α) :
    limits.first (l ++ [a]) =
      limits.first l ++ if limits.hasRoom (limits.first l).length then [a] else [] := by
  by_cases hnotes : limits.notes ≤ 0
  · simp only [first, hasRoom, hnotes, ↓reduceIte, decide_true, Bool.true_or]
  · simp only [first, hasRoom, hnotes, ↓reduceIte, decide_false, Bool.false_or, List.take_append,
      List.length_take, decide_eq_true_eq]
    by_cases hlength : l.length < limits.notes.toNat
    · have htake : [a].take (limits.notes.toNat - l.length) = [a] :=
        List.take_of_length_le (Nat.le_sub_of_add_le' hlength)
      rw [if_pos (by omega), htake]
    · rw [if_neg (by omega), Nat.sub_eq_zero_of_le (by omega), List.take_zero]

end PreviewLimits

-- ════════════════════════════════════════════════════════════════════════
-- Choices
-- ════════════════════════════════════════════════════════════════════════

namespace Midi

namespace Track

variable (t : Track) (e : TrackEvent)

theorem ticks_concat : ticks (t ++ [e]) = ticks t + e.delta.toNat := by
  rw [ticks, List.map_append, List.sum_append, ticks, List.map_singleton, List.sum_singleton]

theorem moments_concat :
    moments 0 ((t ++ [e]).map (·.delta)) =
      moments 0 (t.map (·.delta)) ++ [ticks t + e.delta.toNat] := by
  rw [List.map_append, List.map_singleton, Midi.moments_concat, List.map_map, Nat.zero_add]
  rfl

theorem toNat_delta_le_ticks {t : Track} {e : TrackEvent} (h : e ∈ t) : e.delta.toNat ≤ t.ticks :=
  List.le_sum_of_mem (List.mem_map_of_mem (f := fun e => e.delta.toNat) h)

theorem ticks_played_le : t.played.ticks ≤ t.ticks :=
  ((List.takeWhile_sublist _).map _).sum_le_sum fun _ _ => Nat.zero_le _

end Track

/-- An event of a track, its tick, and whether it is kept. -/
structure Choice where
  event : TrackEvent
  tick : Nat
  kept : Bool
deriving DecidableEq

namespace Choice

/-- How many of the events are kept and have a property. -/
def count (p : TrackEvent → Bool) (cs : List Choice) : Nat := cs.countP fun c => c.kept && p c.event

/-- What an event needs to be kept after those before it: a note-on is not before the start and there
is room for it, a note-off has a note-on to stop, and any other event is before the start or there is
room for notes. -/
def Fits (limits : PreviewLimits) (before : List Choice) (c : Choice) : Prop :=
  match c.event.role with
  | .on _ _ => c.kept = (limits.start.toNat ≤ c.tick && limits.hasRoom (count (·.isOn) before))
  | .off a => c.kept = decide (count (·.closes a) before < count (·.opens a) before)
  | .other => c.kept = (c.tick < limits.start.toNat || limits.hasRoom (count (·.isOn) before))

/-- Every event is kept or not as it fits those before it. -/
def AllFit (limits : PreviewLimits) (cs : List Choice) : Prop :=
  ∀ before c after, cs = before ++ c :: after → c.Fits limits before

variable {limits : PreviewLimits} {cs : List Choice} {c : Choice}

theorem count_concat (p : TrackEvent → Bool) :
    count p (cs ++ [c]) = count p cs + if c.kept && p c.event then 1 else 0 := by
  rw [count, List.countP_append, List.countP_singleton, count]

theorem allFit_nil : AllFit limits [] := fun before c after h => by
  cases before <;> cases h

theorem allFit_concat_iff : AllFit limits (cs ++ [c]) ↔ AllFit limits cs ∧ c.Fits limits cs := by
  constructor
  · intro h
    refine ⟨fun before x after hx => h before x (after ++ [c]) ?_, h cs c [] rfl⟩
    rw [hx, List.append_assoc, List.cons_append]
  · rintro ⟨h, hc⟩ before x after hx
    rcases List.eq_nil_or_concat' after with rfl | ⟨after, y, rfl⟩
    · obtain ⟨rfl, hcx⟩ := List.append_inj' hx rfl
      obtain rfl := List.singleton_inj.1 hcx
      exact hc
    · rw [← List.cons_append, ← List.append_assoc] at hx
      obtain ⟨rfl, -⟩ := List.append_inj' hx rfl
      exact h before x after rfl

/-- The notes that are kept are the first from the start on, as many as there is room for. -/
theorem filter_isOn (h : AllFit limits cs) :
    cs.filter (fun c => c.kept && c.event.isOn) =
      limits.first (cs.filter fun c => c.event.isOn && limits.start.toNat ≤ c.tick) := by
  induction cs using List.reverseRecOn with
  | nil => simp [PreviewLimits.first]
  | append_singleton cs c ih =>
    obtain ⟨hcs, hc⟩ := allFit_concat_iff.1 h
    have hcount : count (·.isOn) cs =
        (limits.first (cs.filter fun c => c.event.isOn && limits.start.toNat ≤ c.tick)).length := by
      rw [← ih hcs, count, List.countP_eq_length_filter]
    rw [List.filter_append, List.filter_append, ih hcs, List.filter_singleton, List.filter_singleton]
    cases hon : c.event.isOn
    · simp
    · have hkept : c.kept = (limits.start.toNat ≤ c.tick && limits.hasRoom (count (·.isOn) cs)) := by
        rw [TrackEvent.isOn] at hon
        rw [Fits] at hc
        split at hon
        · next hrole => rwa [hrole] at hc
        · cases hon
      rw [hkept, hcount]
      by_cases htick : limits.start.toNat ≤ c.tick
      · simp [htick, PreviewLimits.first_concat]
      · simp [htick]

end Choice

end Midi

-- ════════════════════════════════════════════════════════════════════════
-- Clips
-- ════════════════════════════════════════════════════════════════════════

namespace Clip

open Midi (Choice moments)

variable {limits : PreviewLimits} {c : Clip} {es : Midi.Track} {e : Midi.TrackEvent}
  {cs : List Choice}

/-- A clip comes about by choices among the events of a track. -/
structure Chooses (limits : PreviewLimits) (c : Clip) (es : Midi.Track) (cs : List Choice) :
    Prop where
  events : cs.map (·.event) = es
  ticks : cs.map (·.tick) = moments 0 (es.map (·.delta))
  fits : Choice.AllFit limits cs
  kept : c.kept.toList.map (·.event) = (cs.filter (·.kept)).map (·.event.event)
  moments : moments 0 (c.kept.toList.map (·.delta)) =
    (cs.filter (·.kept)).map (·.tick - limits.start.toNat)
  now : c.now.toNat = es.ticks
  last : c.last.toNat = Midi.Track.ticks c.kept.toList
  last_le : c.last.toNat ≤ c.now.toNat - limits.start.toNat
  attacks : c.attacks = Choice.count (·.isOn) cs
  /-- Events are counted alike, if it makes no difference when they come. -/
  counts : ∀ p : Midi.TrackEvent → Bool, (∀ e delta, p ⟨delta, e.event⟩ = p e) →
    c.kept.toList.countP p = Choice.count p cs

theorem chooses_empty : Chooses limits {} [] [] where
  events := rfl
  ticks := rfl
  fits := Choice.allFit_nil
  kept := rfl
  moments := rfl
  now := rfl
  last := rfl
  last_le := Nat.zero_le _
  attacks := rfl
  counts _ _ := rfl

namespace Chooses

theorem toNat_now_add (h : Chooses limits c es cs) (hticks : Midi.Track.ticks (es ++ [e]) < 2 ^ 32) :
    (c.now + e.delta).toNat = Midi.Track.ticks (es ++ [e]) := by
  rw [Midi.Track.ticks_concat] at hticks ⊢
  rw [UInt32.toNat_add, h.now, Nat.mod_eq_of_lt hticks]

/-- The next event of a track is kept as it fits the choices before it. -/
theorem fits_keeps (h : Chooses limits c es cs) (hfollows : c.Follows es)
    (hticks : Midi.Track.ticks (es ++ [e]) < 2 ^ 32) :
    Choice.Fits limits cs ⟨e, Midi.Track.ticks (es ++ [e]), c.keeps limits e⟩ := by
  have hnow := h.toNat_now_add hticks
  have hlt : decide (c.now + e.delta < limits.start) =
      decide (Midi.Track.ticks (es ++ [e]) < limits.start.toNat) := by
    rw [← hnow]
    exact decide_eq_decide.2 UInt32.lt_iff_toNat_lt
  have hle : decide (limits.start ≤ c.now + e.delta) =
      decide (limits.start.toNat ≤ Midi.Track.ticks (es ++ [e])) := by
    rw [← hnow]
    exact decide_eq_decide.2 UInt32.le_iff_toNat_le
  have hfull := limits.isFull_eq c
  rw [h.attacks] at hfull
  rw [Choice.Fits]
  dsimp only
  rw [keeps]
  cases hrole : e.role with
  | on a mute =>
    dsimp only
    rw [hlt, hfull, Bool.not_or, Bool.not_not, ← decide_not]
    simp only [Nat.not_lt]
  | off a =>
    have hopened := hfollows.opened a
    rw [h.counts _ fun _ _ => rfl, h.counts _ fun _ _ => rfl] at hopened
    dsimp only
    rw [hopened]
    exact decide_eq_decide.2 (by omega)
  | other =>
    dsimp only
    rw [hle, hfull, Bool.not_and, Bool.not_not, ← decide_not, Bool.or_comm]
    simp only [Nat.not_le]

theorem step (h : Chooses limits c es cs) (hfollows : c.Follows es)
    (hticks : Midi.Track.ticks (es ++ [e]) < 2 ^ 32) :
    Chooses limits (c.step limits e) (es ++ [e])
      (cs ++ [⟨e, Midi.Track.ticks (es ++ [e]), c.keeps limits e⟩]) := by
  have hnow := h.toNat_now_add hticks
  have hplace : (place limits (c.now + e.delta)).toNat =
      Midi.Track.ticks (es ++ [e]) - limits.start.toNat := by rw [toNat_place, hnow]
  have hle : c.last.toNat ≤ (place limits (c.now + e.delta)).toNat := by
    have hlast := h.last_le
    rw [hplace, Midi.Track.ticks_concat]
    rw [h.now] at hlast
    omega
  -- Nothing wraps round here: no event that is kept is placed before the last one.
  have hdelta : Midi.Track.ticks c.kept.toList + (place limits (c.now + e.delta) - c.last).toNat =
      Midi.Track.ticks (es ++ [e]) - limits.start.toNat := by
    rw [UInt32.toNat_sub_of_le _ _ (UInt32.le_iff_toNat_le.2 hle), ← h.last, ← hplace]
    exact Nat.add_sub_cancel' hle
  constructor
  case events => rw [List.map_append, h.events, List.map_singleton]
  case ticks =>
    rw [List.map_append, h.ticks, Midi.Track.moments_concat, List.map_singleton,
      Midi.Track.ticks_concat]
  case fits => exact Choice.allFit_concat_iff.2 ⟨h.fits, h.fits_keeps hfollows hticks⟩
  case kept =>
    rw [kept_step, List.map_append, h.kept, List.filter_append, List.map_append]
    cases hkeeps : c.keeps limits e <;> rfl
  case moments =>
    rw [kept_step, List.filter_append]
    cases hkeeps : c.keeps limits e
    · simpa using h.moments
    · rw [if_pos rfl, Midi.Track.moments_concat, hdelta, h.moments, List.map_append]
      rfl
  case now => rw [now_step, hnow]
  case last =>
    rw [kept_step, last_step]
    cases hkeeps : c.keeps limits e
    · simpa using h.last
    · rw [if_pos rfl, if_pos rfl, Midi.Track.ticks_concat, hdelta, hplace]
  case last_le =>
    rw [now_step, last_step, hnow, ← hplace]
    split
    · exact Nat.le_refl _
    · exact hle
  case attacks => rw [attacks_step, h.attacks, Choice.count_concat]
  case counts =>
    intro p hp
    rw [countP_step (hp e), h.counts p hp, Choice.count_concat]

end Chooses

theorem exists_chooses (limits : PreviewLimits) (es : Midi.Track) (hticks : es.ticks < 2 ^ 32) :
    ∃ cs, Chooses limits (es.foldl (Clip.step limits) {}) es cs := by
  induction es using List.reverseRecOn with
  | nil => exact ⟨[], chooses_empty⟩
  | append_singleton es e ih =>
    have hbefore : Midi.Track.ticks es < 2 ^ 32 := by
      rw [Midi.Track.ticks_concat] at hticks
      omega
    obtain ⟨cs, hcs⟩ := ih hbefore
    rw [List.foldl_append]
    exact ⟨_, hcs.step (follows_foldl limits es) hticks⟩

end Clip

-- ════════════════════════════════════════════════════════════════════════
-- Excerpts
-- ════════════════════════════════════════════════════════════════════════

namespace Midi

variable {limits : PreviewLimits} {t : Track}

/-- A track of a preview is made of a track by choices among the events it plays. -/
structure Excerpt (limits : PreviewLimits) (t p : Track) (cs : List Choice) : Prop where
  events : cs.map (·.event) = t.played
  ticks : cs.map (·.tick) = moments 0 (t.played.map (·.delta))
  fits : Choice.AllFit limits cs
  /-- The note-ons that are kept are the first ones from the start on. -/
  notes : cs.filter (fun c => c.kept && c.event.isOn) =
    limits.first (cs.filter fun c => c.event.isOn && limits.start.toNat ≤ c.tick)
  /-- Ticks before the start are at the beginning, and one event ends the track at once. -/
  kept : ∃ body, p = body ++ [.ending 0] ∧
    body.map (·.event) = (cs.filter (·.kept)).map (·.event.event) ∧
    moments 0 (body.map (·.delta)) = (cs.filter (·.kept)).map (·.tick - limits.start.toNat)
  held : ∀ a before, before <+: p → before.countP (·.closes a) ≤ before.countP (·.opens a)

/-- What ends a track is no note. -/
theorem Track.held_preview (limits : PreviewLimits) (t : Track) (a : UInt8 × UInt8) {before : Track}
    (hbefore : before <+: t.preview limits) :
    before.countP (·.closes a) ≤ before.countP (·.opens a) := by
  have hheld := (Clip.follows_foldl limits t.played).held a
  rcases List.prefix_concat_iff.1 hbefore with rfl | hkept
  · have hall := hheld _ List.prefix_rfl
    rw [List.countP_append, List.countP_append]
    exact Nat.add_le_add hall (Nat.le_refl 0)
  · exact hheld before hkept

theorem Track.exists_excerpt (limits : PreviewLimits) (h : t.ticks < 2 ^ 32) :
    ∃ cs, Excerpt limits t (t.preview limits) cs := by
  obtain ⟨cs, hcs⟩ := Clip.exists_chooses limits t.played
    (Nat.lt_of_le_of_lt t.ticks_played_le h)
  exact ⟨cs, hcs.events, hcs.ticks, hcs.fits, Choice.filter_isOn hcs.fits,
    ⟨_, rfl, hcs.kept, hcs.moments⟩, fun a _ => t.held_preview limits a⟩

/-- The time between two events that are kept is no longer than the track. -/
theorem Track.writable_preview (hticks : t.ticks ≤ Quantity.maxValue.toNat)
    (h : ∀ e ∈ t, e.Writable) : ∀ e ∈ t.preview limits, e.Writable := by
  have hmax : Quantity.maxValue.toNat < 2 ^ 28 := by decide
  have hplayed := t.ticks_played_le
  obtain ⟨cs, hcs⟩ := Clip.exists_chooses limits t.played (by omega)
  have hevents := (Clip.follows_foldl limits t.played).events
  intro e he
  rcases List.mem_append.1 he with he | he
  · obtain ⟨e', he', heq⟩ := List.mem_map.1 (hevents.subset (List.mem_map_of_mem he))
    obtain ⟨event, hevent, hencode⟩ := (h e' ((List.takeWhile_subset _) he')).event
    refine ⟨?_, event, heq ▸ hevent, hencode⟩
    calc e.delta.toNat ≤ _ := toNat_delta_le_ticks he
      _ ≤ _ := hcs.last ▸ hcs.last_le
      _ ≤ t.played.ticks := hcs.now ▸ Nat.sub_le _ _
      _ < 2 ^ 28 := by omega
  · obtain rfl := List.mem_singleton.1 he
    exact ⟨by decide, _, rfl, _, rfl⟩

/-- A preview keeps the header of a file. Each of its tracks is an excerpt of the track of the file, if
no track is so long that its ticks wrap round; and if every tick of the file can be written as a delta
time, the preview has a byte form when the file has one. -/
theorem File.preview_selects (limits : PreviewLimits) {f : File}
    (h : ∀ t ∈ f.tracks, t.ticks < 2 ^ 32) :
    (f.preview limits).format = f.format ∧ (f.preview limits).timing = f.timing ∧
      List.Forall₂ (fun t p => ∃ cs, Excerpt limits t p cs) f.tracks (f.preview limits).tracks ∧
      ((∀ t ∈ f.tracks, t.ticks ≤ Quantity.maxValue.toNat) → (∃ b, f.encode = .ok b) →
        ∃ b, (f.preview limits).encode = .ok b) := by
  refine ⟨rfl, rfl, ?_, fun hticks hencode => ?_⟩
  · refine List.forall₂_map_right_iff.2 (List.forall₂_same.2 fun t ht => ?_)
    exact t.exists_excerpt limits (h t ht)
  · obtain ⟨hformat, hcount, htiming, hwritable⟩ := exists_encode_iff.1 hencode
    refine exists_encode_iff.2 ⟨hformat, ?_, htiming, ?_⟩
    · rwa [File.preview, List.length_map]
    · refine List.forall_mem_map.2 fun t ht => ?_
      exact t.writable_preview (hticks t ht) (hwritable t ht)

/-- Three notes on a track with a program. -/
def passage : File where
  format := 0
  timing := some (.metric 96)
  tracks := [[⟨0, some (.channel 0 (.programChange 5))⟩, ⟨24, some (.channel 0 (.noteOn 60 64))⟩,
    ⟨48, some (.channel 0 (.noteOff 60 0))⟩, ⟨24, some (.channel 0 (.noteOn 62 64))⟩,
    ⟨24, some (.channel 0 (.noteOn 64 64))⟩, ⟨24, some (.channel 0 (.noteOff 62 0))⟩,
    ⟨0, some (.channel 0 (.noteOff 64 0))⟩, .ending 0]]

/-- The first note is before the start, and for the third there is no room. -/
theorem File.preview_selects_passage :
    (∀ t ∈ passage.tracks, t.ticks < 2 ^ 32) ∧
      (∀ t ∈ passage.tracks, t.ticks ≤ Quantity.maxValue.toNat) ∧
      List.Forall₂ (fun t p => ∃ cs, Excerpt ⟨36, 1⟩ t p cs) passage.tracks
        (passage.preview ⟨36, 1⟩).tracks ∧
      (passage.preview ⟨36, 1⟩).tracks = [[⟨0, some (.channel 0 (.programChange 5))⟩,
        ⟨60, some (.channel 0 (.noteOn 62 64))⟩, ⟨48, some (.channel 0 (.noteOff 62 0))⟩,
        .ending 0]] ∧
      ∃ b, (passage.preview ⟨36, 1⟩).encode = .ok b := by
  have hlong : ∀ t ∈ passage.tracks, t.ticks < 2 ^ 32 := by decide
  have hticks : ∀ t ∈ passage.tracks, t.ticks ≤ Quantity.maxValue.toNat := by decide
  obtain ⟨-, -, hexcerpts, hencode⟩ := File.preview_selects ⟨36, 1⟩ hlong
  exact ⟨hlong, hticks, hexcerpts, by decide +kernel, hencode hticks ⟨_, rfl⟩⟩

end Midi

end DegreeScore
