import DegreeScore.Preview
import DegreeScore.Proofs.Changes
import Mathlib.Data.List.Permutation
import Mathlib.Data.List.Sort

/-!
# Chords do not depend on tracks

Two files with the same changes have the same chords, whichever tracks the changes are on and in
whichever order they come at one tick (`Midi.File.chords_eq_of_perm`). In order of time, releases before
attacks, the changes of one note at one tick are equal. So the order of the changes of each note is
given, and how often a note sounds depends on these alone: changes of different notes may pass each
other.
-/

namespace DegreeScore

-- ════════════════════════════════════════════════════════════════════════
-- The same changes in another order
-- ════════════════════════════════════════════════════════════════════════

namespace NoteChange

/-- Two changes of one note that may both come first are equal. -/
theorem eq_of_notAfter {b c : NoteChange} (hnote : b.note = c.note) (hbc : b.notAfter c = true)
    (hcb : c.notAfter b = true) : b = c := by
  have htick : b.tick = c.tick :=
    UInt32.toNat_inj.1 (Nat.le_antisymm (tick_le hbc) (tick_le hcb))
  have hattack : b.attack = c.attack := by
    simp only [notAfter_iff, htick, lt_irrefl, false_or, true_and] at hbc hcb
    exact Bool.eq_iff_iff.2 ⟨hbc, hcb⟩
  obtain ⟨hchannel, hkey⟩ := Prod.mk.inj hnote
  cases b
  cases c
  simp only [mk.injEq]
  exact ⟨htick, hattack, hchannel, hkey⟩

/-- How often a note is there depends on the changes of this note only. -/
theorem count_foldl_filter {ns ms : List (UInt8 × UInt8)} {a : UInt8 × UInt8}
    (h : ns.count a = ms.count a) (cs : List NoteChange) :
    (cs.foldl apply ns).count a = ((cs.filter fun c => c.note = a).foldl apply ms).count a := by
  induction cs generalizing ns ms with
  | nil => exact h
  | cons c cs ih =>
    by_cases hnote : c.note = a
    · rw [List.filter_cons_of_pos (by simpa using hnote)]
      refine ih ?_
      rw [count_apply, count_apply, h]
    · rw [List.filter_cons_of_neg (by simpa using hnote)]
      refine ih ?_
      rw [count_apply, ← h]
      simp [attacks, releases, hnote]

variable {cs ds : List NoteChange}

/-- The same notes sound after the same changes, however they were put in order. -/
theorem perm_foldl (hcs : cs.Pairwise fun b c => b.notAfter c = true)
    (hds : ds.Pairwise fun b c => b.notAfter c = true) (hperm : cs.Perm ds) :
    (cs.foldl apply []).Perm (ds.foldl apply []) := by
  rw [List.perm_iff_count]
  intro a
  have hnote : (cs.filter fun c => c.note = a) = ds.filter fun c => c.note = a := by
    refine (hperm.filter _).eq_of_pairwise (fun b c hb hc => ?_) (hcs.filter _) (hds.filter _)
    have hb : b.note = a := by simpa using (List.mem_filter.1 hb).2
    have hc : c.note = a := by simpa using (List.mem_filter.1 hc).2
    exact eq_of_notAfter (hb.trans hc.symm)
  rw [count_foldl_filter rfl cs, hnote, ← count_foldl_filter rfl ds]

end NoteChange

namespace Midi.Sounding

variable {s t : Sounding} {ns ms : List (UInt8 × UInt8)}

/-- What is shown of the notes that sound does not depend on their order. -/
theorem Holds.shows_same (hs : s.Holds ns) (ht : t.Holds ms) (hperm : ns.Perm ms) :
    s.isSilent = t.isSilent ∧ s.keys = t.keys ∧ s.channels = t.channels := by
  refine ⟨?_, ?_, ?_⟩
  · rw [Bool.eq_iff_iff, hs.isSilent_iff, ht.isSilent_iff]
    exact ⟨fun h => List.nil_perm.1 (h ▸ hperm), fun h => List.perm_nil.1 (h ▸ hperm)⟩
  · refine s.ordered_keys.eq_of_mem_iff t.ordered_keys fun k => ?_
    simp only [hs.mem_keys, ht.mem_keys, hperm.mem_iff]
  · refine s.ordered_channels.eq_of_mem_iff t.ordered_channels fun c => ?_
    simp only [hs.mem_channels, ht.mem_channels, hperm.mem_iff]

/-- If notes sound, their keys and channels are shown. -/
theorem Holds.shows_some (hs : s.Holds ns) (h : s.isSilent = false) :
    s.keys ≠ [] ∧ s.channels ≠ [] := by
  have hne : ns ≠ [] := fun hnil => Bool.eq_false_iff.1 h (hs.isSilent_iff.2 hnil)
  obtain ⟨a, ha⟩ := List.exists_mem_of_ne_nil ns hne
  exact ⟨List.ne_nil_of_mem (hs.mem_keys.2 ⟨a, ha, rfl⟩),
    List.ne_nil_of_mem (hs.mem_channels.2 ⟨a, ha, rfl⟩)⟩

end Midi.Sounding

/-- The chord of a tick does not depend on the order of the changes that are in order. -/
theorem Chord.at?_eq_of_perm {cs ds : List NoteChange}
    (hcs : cs.Pairwise fun b c => b.notAfter c = true)
    (hds : ds.Pairwise fun b c => b.notAfter c = true) (hperm : cs.Perm ds) (T : UInt32) :
    Chord.at? cs T = Chord.at? ds T := by
  have hnotes := NoteChange.perm_foldl (hcs.filter fun c => c.tick ≤ T)
    (hds.filter fun c => c.tick ≤ T) (hperm.filter _)
  obtain ⟨hsilent, hkeys, hchannels⟩ :=
    (NoteChange.holds_foldl Midi.Sounding.holds_empty _).shows_same
      (NoteChange.holds_foldl Midi.Sounding.holds_empty _) hnotes
  rw [Chord.at?, Chord.at?, NoteChange.soundingAt, NoteChange.soundingAt, hsilent, hkeys, hchannels,
    hperm.any_eq]

theorem Midi.File.chords_eq_of_perm {f g : File}
    (h : (f.tracks.flatMap NoteChange.ofTrack).Perm (g.tracks.flatMap NoteChange.ofTrack)) :
    f.chords = g.chords := by
  have hperm : (NoteChange.ofFile f).Perm (NoteChange.ofFile g) :=
    (List.mergeSort_perm _ _).trans (h.trans (List.mergeSort_perm _ _).symm)
  have hirrefl : Std.Irrefl fun c d : Chord => c.tick < d.tick := ⟨fun c => UInt32.lt_irrefl c.tick⟩
  have hantisymm : Std.Antisymm fun c d : Chord => c.tick < d.tick :=
    ⟨fun c d hcd hdc => absurd (UInt32.lt_trans hcd hdc) (UInt32.lt_irrefl c.tick)⟩
  refine f.ordered_chords.eq_of_mem_iff g.ordered_chords fun c => ?_
  simp only [mem_chords_iff, hperm.mem_iff,
    Chord.at?_eq_of_perm (NoteChange.ordered_ofFile f) (NoteChange.ordered_ofFile g) hperm]

-- ════════════════════════════════════════════════════════════════════════
-- Tracks laid out in another way
-- ════════════════════════════════════════════════════════════════════════

namespace Midi

/-- The events of a track that begins at a tick, each with its own, without those that end it. -/
def Track.timed (now : UInt32) : Track → List (UInt32 × Option Event)
  | [] => []
  | e :: t =>
    if e.isEnding then timed (now + e.delta) t
    else (now + e.delta, e.event) :: timed (now + e.delta) t

/-- Tracks with the same events at the same ticks. -/
inductive Relaid : List Track → List Track → Prop
  | permute {ts us : List Track} (h : ts.Perm us) : Relaid ts us
  /-- Two tracks become one. -/
  | merge {s t st : Track} {ts : List Track}
      (h : (st.timed 0).Perm (s.timed 0 ++ t.timed 0)) : Relaid (s :: t :: ts) (st :: ts)
  /-- One track becomes two. -/
  | split {s t st : Track} {ts : List Track}
      (h : (st.timed 0).Perm (s.timed 0 ++ t.timed 0)) : Relaid (st :: ts) (s :: t :: ts)
  /-- Two events of one tick change places. -/
  | swap (before after : Track) (delta : UInt32) (d e : Option Event) (ts : List Track) :
      Relaid ((before ++ ⟨delta, d⟩ :: ⟨0, e⟩ :: after) :: ts)
        ((before ++ ⟨delta, e⟩ :: ⟨0, d⟩ :: after) :: ts)
  | trans {ts us vs : List Track} (h : Relaid ts us) (h' : Relaid us vs) : Relaid ts vs

/-- The changes of a track are those that its timed events make. -/
theorem foldl_collect_eq_timed (t : Track) (now : UInt32) (acc : Array NoteChange) :
    (t.foldl NoteChange.collect (now, acc)).2.toList =
      acc.toList ++ (t.timed now).filterMap fun x => NoteChange.ofEvent? x.1 x.2 := by
  induction t generalizing now acc with
  | nil => simp [Track.timed]
  | cons e t ih =>
    rw [List.foldl_cons, NoteChange.collect, ih, Track.timed]
    by_cases he : e.isEnding = true
    · have hnone : NoteChange.ofEvent? (now + e.delta) e.event = none := by
        rw [of_decide_eq_true he]
        rfl
      rw [if_pos he, hnone]
    · rw [if_neg he, List.filterMap_cons]
      dsimp only
      cases NoteChange.ofEvent? (now + e.delta) e.event <;> simp

theorem ofTrack_eq_timed (t : Track) :
    NoteChange.ofTrack t = (t.timed 0).filterMap fun x => NoteChange.ofEvent? x.1 x.2 :=
  foldl_collect_eq_timed t 0 #[]

theorem timed_swap (before after : Track) (delta : UInt32) (d e : Option Event) (now : UInt32) :
    (Track.timed now (before ++ ⟨delta, d⟩ :: ⟨0, e⟩ :: after)).Perm
      (Track.timed now (before ++ ⟨delta, e⟩ :: ⟨0, d⟩ :: after)) := by
  induction before generalizing now with
  | nil =>
    simp only [List.nil_append, Track.timed, TrackEvent.isEnding, UInt32.add_zero]
    by_cases hd : d = some (.info .endOfTrack)
    · simp [hd]
    · by_cases he : e = some (.info .endOfTrack)
      · simp [hd, he]
      · simpa [hd, he] using List.Perm.swap ..
  | cons x before ih =>
    rw [List.cons_append, List.cons_append, Track.timed, Track.timed]
    split
    · exact ih _
    · exact (ih _).cons _

/-- The changes stay the same. -/
theorem Relaid.perm {ts us : List Track} (h : Relaid ts us) :
    (ts.flatMap NoteChange.ofTrack).Perm (us.flatMap NoteChange.ofTrack) := by
  have hjoin : ∀ {s t st : Track}, (st.timed 0).Perm (s.timed 0 ++ t.timed 0) →
      (NoteChange.ofTrack st).Perm (NoteChange.ofTrack s ++ NoteChange.ofTrack t) := by
    intro s t st h
    rw [ofTrack_eq_timed, ofTrack_eq_timed, ofTrack_eq_timed, ← List.filterMap_append]
    exact h.filterMap _
  induction h with
  | permute h => exact h.flatMap_right _
  | merge h =>
    rw [List.flatMap_cons, List.flatMap_cons, List.flatMap_cons, ← List.append_assoc]
    exact (hjoin h).symm.append_right _
  | split h =>
    rw [List.flatMap_cons, List.flatMap_cons, List.flatMap_cons, ← List.append_assoc]
    exact (hjoin h).append_right _
  | swap before after delta d e ts =>
    rw [List.flatMap_cons, List.flatMap_cons, ofTrack_eq_timed, ofTrack_eq_timed]
    exact ((timed_swap before after delta d e 0).filterMap _).append_right _
  | trans _ _ ih ih' => exact ih.trans ih'

/-- Files with the same changes on their tracks have the same chords, and so have files whose tracks
are put in another order, joined or taken apart, or have events of one tick in another order. The
ticks of chords go up, and each has keys and channels, in ascending order. -/
theorem File.chords_relaid {f g : File}
    (h : (f.tracks.flatMap NoteChange.ofTrack).Perm (g.tracks.flatMap NoteChange.ofTrack)) :
    f.chords = g.chords ∧
      (∀ ts, Relaid g.tracks ts → File.chords { g with tracks := ts } = f.chords) ∧
      f.chords.Pairwise (fun c d => c.tick < d.tick) ∧
      ∀ c ∈ f.chords, (c.keys ≠ [] ∧ c.keys.Pairwise (· < ·)) ∧
        c.channels ≠ [] ∧ c.channels.Pairwise (· < ·) := by
  refine ⟨chords_eq_of_perm h, fun ts hts => (chords_eq_of_perm (h.trans hts.perm)).symm,
    f.ordered_chords, fun c hc => ?_⟩
  obtain ⟨x, -, hchord⟩ := f.mem_chords_iff.1 hc
  obtain ⟨hsilent, rfl⟩ := Chord.at?_eq_some_iff.1 hchord
  obtain ⟨hkeys, hchannels⟩ := (NoteChange.holds_foldl Sounding.holds_empty _).shows_some hsilent
  exact ⟨⟨hkeys, Sounding.ordered_keys _⟩, hchannels, Sounding.ordered_channels _⟩

/-- A key on two channels: on the first it is attacked again when it is released. -/
def apart : File where
  format := 1
  timing := some (.metric 96)
  tracks := [[⟨0, some (.channel 0 (.noteOn 60 64))⟩, ⟨96, some (.channel 0 (.noteOn 60 64))⟩,
      ⟨0, some (.channel 0 (.noteOff 60 0))⟩, ⟨96, some (.channel 0 (.noteOff 60 0))⟩, .ending 0],
    [⟨96, some (.channel 1 (.noteOn 60 64))⟩, ⟨0, some (.channel 1 (.noteOff 62 0))⟩, .ending 0]]

/-- The same on one track, with releases in their other form. -/
def joined : File where
  format := 0
  timing := some (.metric 96)
  tracks := [[⟨0, some (.channel 0 (.noteOn 60 1))⟩, ⟨96, some (.channel 1 (.noteOn 62 0))⟩,
    ⟨0, some (.channel 0 (.noteOn 60 0))⟩, ⟨0, some (.channel 1 (.noteOn 60 1))⟩,
    ⟨0, some (.channel 0 (.noteOn 60 1))⟩, ⟨96, some (.channel 0 (.noteOn 60 0))⟩, .ending 0]]

theorem File.chords_relaid_joined :
    (apart.tracks.flatMap NoteChange.ofTrack).Perm (joined.tracks.flatMap NoteChange.ofTrack) ∧
      apart.chords = [⟨0, [60], [0], true⟩, ⟨96, [60], [0, 1], true⟩, ⟨192, [60], [1], false⟩] ∧
      joined.chords = [⟨0, [60], [0], true⟩, ⟨96, [60], [0, 1], true⟩, ⟨192, [60], [1], false⟩] := by
  have hperm : (apart.tracks.flatMap NoteChange.ofTrack).Perm
      (joined.tracks.flatMap NoteChange.ofTrack) := by decide +kernel
  have hchords : apart.chords =
      [⟨0, [60], [0], true⟩, ⟨96, [60], [0, 1], true⟩, ⟨192, [60], [1], false⟩] := by
    have hchanges : NoteChange.ofFile apart = [⟨0, true, 0, 60⟩, ⟨96, false, 0, 60⟩,
        ⟨96, false, 1, 62⟩, ⟨96, true, 0, 60⟩, ⟨96, true, 1, 60⟩, ⟨192, false, 0, 60⟩] := by
      cbv
    rw [File.chords, hchanges]
    decide +kernel
  exact ⟨hperm, hchords, (File.chords_relaid hperm).1.symm.trans hchords⟩

end Midi

end DegreeScore
