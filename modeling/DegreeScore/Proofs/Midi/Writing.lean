import DegreeScore.Midi.File
import DegreeScore.Proofs.Traversal
import Mathlib.Algebra.Group.Nat.Defs

/-!
# What is written for a file

One lemma for each level of the format says what its byte form is made of: a meta event, an event
with its delta time, a track and a file. Which files have a byte form follows from them:
`File.exists_encode_iff` asks for a valid header, and for a delta time of at most four groups of
seven bits and a byte form of its own for every event of every track.
-/

namespace DegreeScore.Midi

-- ════════════════════════════════════════════════════════════════════════
-- Quantities
-- ════════════════════════════════════════════════════════════════════════

theorem Quantity.exists_encode?_iff {n : UInt32} :
    (∃ b, encode? n = some b) ↔ n.toNat < 2 ^ 28 := by
  unfold encode?
  dsimp only
  split_ifs with h₁ h₂ h₃ h₄
  · exact iff_of_true ⟨_, rfl⟩ (by omega)
  · exact iff_of_true ⟨_, rfl⟩ (by omega)
  · exact iff_of_true ⟨_, rfl⟩ (by omega)
  · exact iff_of_true ⟨_, rfl⟩ h₄
  · exact iff_of_false (by simp) h₄

theorem Quantity.length_pos_of_encode? {n : UInt32} {b : Bytes} (h : encode? n = some b) :
    0 < b.length := by
  unfold encode? at h
  dsimp only at h
  split_ifs at h
  all_goals
    obtain rfl := Option.some.inj h
    exact Nat.succ_pos _

theorem Quantity.exists_prefixed?_iff {bs : Bytes} :
    (∃ b, prefixed? bs = some b) ↔ (UInt32.ofNat bs.length).toNat < 2 ^ 28 := by
  rw [← exists_encode?_iff, prefixed?]
  cases encode? (UInt32.ofNat bs.length) with
  | none => simp
  | some b => simp

-- ════════════════════════════════════════════════════════════════════════
-- Events
-- ════════════════════════════════════════════════════════════════════════

/-- A meta event is written as its mark, its type, and its payload after the length of it. -/
theorem Event.encode_info_eq_ok_iff {e : MetaEvent} {b : Bytes} :
    Event.encode (.info e) = .ok b ↔
      ∃ data body, e.payload = .ok data ∧ Quantity.prefixed? data = some body ∧
        b = 0xff :: e.kindByte :: body := by
  rw [Event.encode.eq_def]
  split
  · next h => cases h
  · next h =>
    obtain rfl := Event.info.inj h
    constructor
    · intro hb
      exact ⟨[], [0], rfl, rfl, (Except.ok.inj hb).symm⟩
    · rintro ⟨data, body, hdata, hbody, rfl⟩
      obtain rfl := Except.ok.inj hdata
      obtain rfl := Option.some.inj hbody
      rfl
  · next h =>
    obtain rfl := Event.info.inj h
    constructor
    · intro hb
      split at hb
      · cases hb
      · next data hdata =>
        split at hb
        · next body hbody => exact ⟨data, body, hdata, hbody, (Except.ok.inj hb).symm⟩
        · cases hb
    · rintro ⟨data, body, hdata, hbody, rfl⟩
      simp only [hdata, hbody]

/-- A meta event has a byte form if it has a payload whose length is written as a quantity. -/
theorem Event.exists_encode_info_iff {e : MetaEvent} :
    (∃ b, Event.encode (.info e) = .ok b) ↔
      ∃ data, e.payload = .ok data ∧ (UInt32.ofNat data.length).toNat < 2 ^ 28 := by
  simp only [← Quantity.exists_prefixed?_iff, encode_info_eq_ok_iff]
  constructor
  · rintro ⟨_, data, body, hdata, hbody, rfl⟩
    exact ⟨data, hdata, body, hbody⟩
  · rintro ⟨data, hdata, body, hbody⟩
    exact ⟨_, data, body, hdata, hbody, rfl⟩

theorem Event.exists_encode_info {e : MetaEvent} {data : Bytes} (hdata : e.payload = .ok data)
    (hlength : data.length < 2 ^ 28) : ∃ b, Event.encode (.info e) = .ok b := by
  refine exists_encode_info_iff.2 ⟨data, hdata, ?_⟩
  rwa [UInt32.toNat_ofNat_of_lt' (by rw [UInt32.size]; omega)]

/-- The event is written as `b`: its delta time, and its own bytes. -/
def TrackEvent.WrittenAs (e : TrackEvent) (b : Bytes) : Prop :=
  ∃ delta event body, Quantity.encode? e.delta = some delta ∧ e.event = some event ∧
    event.encode = .ok body ∧ b = delta ++ body

theorem TrackEvent.encode_eq_ok_iff {index : Nat} {e : TrackEvent} {b : Bytes} :
    e.encode index = .ok b ↔ e.WrittenAs b := by
  rw [TrackEvent.encode]
  constructor
  · intro hb
    split at hb
    · cases hb
    · next delta hdelta =>
      split at hb
      · cases hb
      · next event hevent =>
        split at hb
        · cases hb
        · next body hbody =>
          exact ⟨delta, event, body, hdelta, hevent, hbody, (Except.ok.inj hb).symm⟩
  · rintro ⟨delta, event, body, hdelta, hevent, hbody, rfl⟩
    simp only [hdelta, hevent, hbody]

theorem TrackEvent.WrittenAs.length_pos {e : TrackEvent} {b : Bytes} (h : e.WrittenAs b) :
    0 < b.length := by
  obtain ⟨delta, event, body, hdelta, -, -, rfl⟩ := h
  have := Quantity.length_pos_of_encode? hdelta
  rw [List.length_append]
  omega

/-- A delta time and an event that can both be written. -/
structure TrackEvent.Writable (e : TrackEvent) : Prop where
  delta : e.delta.toNat < 2 ^ 28
  event : ∃ event, e.event = some event ∧ ∃ b, event.encode = .ok b

theorem TrackEvent.exists_writtenAs_iff {e : TrackEvent} : (∃ b, e.WrittenAs b) ↔ e.Writable := by
  constructor
  · rintro ⟨_, delta, event, body, hdelta, hevent, hbody, rfl⟩
    exact ⟨Quantity.exists_encode?_iff.1 ⟨delta, hdelta⟩, event, hevent, body, hbody⟩
  · rintro ⟨hdelta, event, hevent, body, hbody⟩
    obtain ⟨delta, hdelta⟩ := Quantity.exists_encode?_iff.2 hdelta
    exact ⟨_, delta, event, body, hdelta, hevent, hbody, rfl⟩

-- ════════════════════════════════════════════════════════════════════════
-- Tracks and files
-- ════════════════════════════════════════════════════════════════════════

theorem Track.body_eq_ok_iff {t : Track} {body : Bytes} :
    t.body = .ok body ↔
      ∃ parts, List.Forall₂ TrackEvent.WrittenAs t parts ∧ parts.flatten = body := by
  rw [Track.body, Traversal.map_eq_ok_iff]
  exact exists_congr fun parts => and_congr_left' <|
    Traversal.mapM_zipIdx_eq_ok_iff fun _ _ _ => TrackEvent.encode_eq_ok_iff

/-- A track has no more events than bytes. -/
theorem Track.length_le_of_writtenAs {t : Track} {parts : List Bytes}
    (h : List.Forall₂ TrackEvent.WrittenAs t parts) : t.length ≤ parts.flatten.length := by
  induction h with
  | nil => exact Nat.le_refl 0
  | cons he _ ih =>
    have := he.length_pos
    rw [List.length_cons, List.flatten_cons, List.length_append]
    omega

theorem Track.encode_eq_ok_iff {t : Track} {b : Bytes} :
    t.encode = .ok b ↔ ∃ body, t.body = .ok body ∧
      tag ++ fixedWidth 4 (UInt32.ofNat body.length) ++ body = b :=
  Traversal.map_eq_ok_iff

theorem Track.exists_encode_iff {t : Track} : (∃ b, t.encode = .ok b) ↔ ∀ e ∈ t, e.Writable := by
  simp only [← TrackEvent.exists_writtenAs_iff, ← Traversal.exists_forall₂_iff, encode_eq_ok_iff,
    body_eq_ok_iff]
  constructor
  · rintro ⟨_, _, ⟨parts, hparts, -⟩, -⟩
    exact ⟨parts, hparts⟩
  · rintro ⟨parts, hparts⟩
    exact ⟨_, _, ⟨parts, hparts, rfl⟩, rfl⟩

theorem File.chunk_eq_ok_iff {index : Nat} {t : Track} {b : Bytes} :
    File.chunk index t = .ok b ↔ t.encode = .ok b := by
  rw [File.chunk]
  cases t.encode with
  | error fault => simp
  | ok b => simp

theorem File.chunks_eq_ok_iff {ts : List Track} {b : Bytes} :
    chunks ts = .ok b ↔
      ∃ parts, List.Forall₂ (fun t part => t.encode = .ok part) ts parts ∧ parts.flatten = b := by
  rw [chunks, Traversal.map_eq_ok_iff]
  exact exists_congr fun parts => and_congr_left' <|
    Traversal.mapM_zipIdx_eq_ok_iff fun _ _ _ => chunk_eq_ok_iff

/-- A file is written as its header and then its tracks. -/
theorem File.encode_eq_ok_iff {f : File} {b : Bytes} :
    f.encode = .ok b ↔
      f.format ≤ 2 ∧ f.tracks.length ≤ 0xffff ∧
        ∃ timing division body, f.timing = some timing ∧ timing.division = .ok division ∧
          chunks f.tracks = .ok body ∧ b = header f.format f.tracks.length division ++ body := by
  rw [File.encode]
  constructor
  · intro hb
    split at hb
    · cases hb
    · next hformat =>
      split at hb
      · cases hb
      · next hcount =>
        refine ⟨UInt16.not_lt.1 hformat, Nat.not_lt.1 hcount, ?_⟩
        split at hb
        · cases hb
        · next timing htiming =>
          split at hb
          · cases hb
          · next division hdivision =>
            obtain ⟨body, hbody, rfl⟩ := Traversal.map_eq_ok_iff.1 hb
            exact ⟨timing, division, body, htiming, hdivision, hbody, rfl⟩
  · rintro ⟨hformat, hcount, timing, division, body, htiming, hdivision, hbody, rfl⟩
    rw [if_neg (UInt16.not_lt.2 hformat), if_neg (Nat.not_lt.2 hcount)]
    simp only [htiming, hdivision]
    exact Traversal.map_eq_ok_iff.2 ⟨body, hbody, rfl⟩

/-- Which files have a byte form. -/
theorem File.exists_encode_iff {f : File} :
    (∃ b, f.encode = .ok b) ↔
      f.format ≤ 2 ∧ f.tracks.length ≤ 0xffff ∧
        (∃ timing division, f.timing = some timing ∧ timing.division = .ok division) ∧
        ∀ t ∈ f.tracks, ∀ e ∈ t, e.Writable := by
  simp only [← Track.exists_encode_iff, ← Traversal.exists_forall₂_iff, encode_eq_ok_iff,
    chunks_eq_ok_iff]
  constructor
  · rintro ⟨_, hformat, hcount, timing, division, _, htiming, hdivision, ⟨parts, hparts, -⟩, -⟩
    exact ⟨hformat, hcount, ⟨timing, division, htiming, hdivision⟩, parts, hparts⟩
  · rintro ⟨hformat, hcount, ⟨timing, division, htiming, hdivision⟩, parts, hparts⟩
    exact ⟨_, hformat, hcount, timing, division, _, htiming, hdivision, ⟨parts, hparts, rfl⟩, rfl⟩

end DegreeScore.Midi
