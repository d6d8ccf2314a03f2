import DegreeScore.Proofs.ByteForm
import DegreeScore.Proofs.Changes
import Mathlib.Data.List.Permutation

/-!
# Chords show the notes that sound

A note sounds from its first tick up to its last, which are cut down from its start and stop. The
changes of a compiled file are the starts and stops of its notes. A note that starts and stops at one
tick is released there before it is attacked, so its attack may be left over.
`Compilation.chords_exact_iff` says when this does not happen: the chords are exact as long as each note
of no length falls into a longer one of its channel and key (`PlayedNote.Covered`).
-/

namespace DegreeScore

-- ════════════════════════════════════════════════════════════════════════
-- The changes of a file
-- ════════════════════════════════════════════════════════════════════════

/-- The tick of a time. -/
def Ratio.tick (t : Ratio) : UInt32 :=
  match t.pulses with
  | .ok n => n
  | .error _ => 0

theorem Ratio.tick_eq {t : Ratio} {n : UInt32} (h : t.pulses = .ok n) : t.tick = n := by
  rw [tick, h]

/-- The change that a timed event makes. -/
def TimedEvent.change? (e : TimedEvent) : Option NoteChange :=
  NoteChange.ofEvent? e.time.tick (some e.event)

theorem Arrangement.exists_pulses {events : List TimedEvent} {stop : Ratio} {track : Midi.Track}
    (h : Arrangement.track events stop = .ok track) : ∀ e ∈ events, ∃ n, e.time.pulses = .ok n := by
  obtain ⟨ticks, -, hticks, -⟩ := Arrangement.track_eq_ok_iff.1 h
  exact Traversal.exists_forall₂_iff.1 ⟨ticks, hticks⟩

namespace NoteChange

/-- The changes of events that are placed at their ticks after `before`. -/
theorem foldl_collect {events : List TimedEvent} {ticks : List UInt32}
    (h : List.Forall₂ (fun e n => e.time.pulses = .ok n) events ticks) (before : UInt32)
    (acc : Array NoteChange) :
    ((events.zipWith (fun e delta => Midi.TrackEvent.mk delta (some e.event))
      (ticks.zipWith (fun now before => now - before) (before :: ticks))).foldl collect
        (before, acc)).2.toList = acc.toList ++ events.filterMap TimedEvent.change? := by
  induction h generalizing before acc with
  | nil => simp
  | @cons e n events ticks he _ ih =>
    have hnow : before + (n - before) = n := by rw [UInt32.add_comm, UInt32.sub_add_cancel]
    rw [List.zipWith_cons_cons, List.zipWith_cons_cons, List.foldl_cons, collect]
    dsimp only
    rw [hnow, ih, List.filterMap_cons, TimedEvent.change?, Ratio.tick_eq he]
    cases ofEvent? n (some e.event) <;> simp

theorem ofTrack_track {events : List TimedEvent} {stop : Ratio} {track : Midi.Track}
    (h : Arrangement.track events stop = .ok track) :
    ofTrack track = events.filterMap TimedEvent.change? := by
  obtain ⟨ticks, closing, hticks, -, rfl⟩ := Arrangement.track_eq_ok_iff.1 h
  have hfold := foldl_collect hticks 0 #[]
  rw [ofTrack, List.foldl_append]
  exact hfold

end NoteChange

namespace PlayedNote

/-- The changes at the start and the stop of a note. -/
def changes (n : PlayedNote) : List NoteChange :=
  [⟨n.start.tick, true, n.channel, n.key⟩, ⟨n.stop.tick, false, n.channel, n.key⟩]

theorem filterMap_change?_events {n : PlayedNote} (h : 0 < n.velocity) :
    n.events.filterMap TimedEvent.change? = n.changes := by
  simp [events, changes, TimedEvent.change?, NoteChange.ofEvent?, h]

end PlayedNote

theorem TimedEvent.change?_eq_none {e : TimedEvent} (h : e.event.isNote = false) :
    e.change? = none := by
  obtain ⟨time, _ | _⟩ := e
  · next c m => cases m <;> first | rfl | cases h
  · rfl

/-- Only events that start or stop notes make changes. -/
theorem TimedEvent.filterMap_change?_filter {events : List TimedEvent} {q : TimedEvent → Bool}
    (hq : ∀ e, e.event.isNote = true → q e = true) :
    (events.filter q).filterMap change? = events.filterMap change? := by
  rw [List.filterMap_filter]
  congr
  funext e
  split
  · rfl
  · next hne =>
    have hnote : e.event.isNote = false := Bool.eq_false_iff.2 fun h => hne (hq e h)
    exact (change?_eq_none hnote).symm

theorem Midi.Event.not_isMeta_of_isNote {e : Event} (h : e.isNote = true) : (!e.isMeta) = true := by
  cases e with
  | channel => rfl
  | info => cases h

namespace AreNotesOf

variable {notes : List PlayedNote} {events : List TimedEvent}

theorem mem_events (h : AreNotesOf notes events) {n : PlayedNote} (hn : n ∈ notes) {e : TimedEvent}
    (he : e ∈ n.events) : e ∈ events ∧ e.event.isNote = true :=
  List.mem_filter.1 (h.perm.mem_iff.1 (List.mem_flatMap.2 ⟨n, hn, he⟩))

theorem velocity_pos (h : AreNotesOf notes events) (hvoiced : ∀ e ∈ events, e.event.Voiced)
    {n : PlayedNote} (hn : n ∈ notes) : 0 < n.velocity := by
  have hattack := hvoiced _ (h.mem_events hn List.mem_cons_self).1
  cases hattack with
  | noteOn _ _ hvelocity => exact UInt8.lt_of_lt_of_le (by decide : (0 : UInt8) < 8) hvelocity.1

theorem filterMap_change? (h : AreNotesOf notes events) (hvoiced : ∀ e ∈ events, e.event.Voiced) :
    (events.filterMap TimedEvent.change?).Perm (notes.flatMap PlayedNote.changes) := by
  have hchanges : (notes.flatMap PlayedNote.events).filterMap TimedEvent.change? =
      notes.flatMap PlayedNote.changes := by
    rw [List.filterMap_flatMap]
    exact List.flatMap_congr fun n hn => n.filterMap_change?_events (h.velocity_pos hvoiced hn)
  rw [← hchanges, ← TimedEvent.filterMap_change?_filter fun _ he => he]
  exact (h.perm.filterMap _).symm

end AreNotesOf

namespace Compilation

variable {src : Bytes} {p : Performance} {f : Midi.File} {notes : List PlayedNote}

/-- The notes of what compiles have ticks, and they do not start after they stop. -/
theorem tick_le_tick (h : (compile src).outcome = .compiled p f) (hnotes : AreNotesOf notes p.events)
    {n : PlayedNote} (hn : n ∈ notes) : n.start.tick.toNat ≤ n.stop.tick.toNat := by
  obtain ⟨hp, hf⟩ := perform_of_compiled h
  obtain ⟨-, second, -, hsecond, -⟩ := Performance.exists_tracks hf
  have hsound : (compile src).tree.Sound src.length := (Tree.parse_sound src).1
  have htime : ∀ e ∈ n.events, e.time.Proper ∧ ∃ k, e.time.pulses = .ok k := by
    intro e he
    obtain ⟨hmem, hnote⟩ := hnotes.mem_events hn he
    refine ⟨((hsound.perform_spans hp).time e hmem).proper, ?_⟩
    exact Arrangement.exists_pulses hsecond e
      (List.mem_filter.2 ⟨hmem, Midi.Event.not_isMeta_of_isNote hnote⟩)
  obtain ⟨hstart, i, hi⟩ := htime _ List.mem_cons_self
  obtain ⟨hstop, j, hj⟩ := htime _ (List.mem_cons_of_mem _ List.mem_cons_self)
  rw [Ratio.tick_eq hi, Ratio.tick_eq hj]
  exact Ratio.pulses_mono hstart hstop (hnotes.lasting n hn).le hi hj

/-- The changes of a compiled file are those of its notes. -/
theorem ofFile_perm (h : (compile src).outcome = .compiled p f)
    (hnotes : AreNotesOf notes p.events) :
    (NoteChange.ofFile f).Perm (notes.flatMap PlayedNote.changes) := by
  obtain ⟨hp, hf⟩ := perform_of_compiled h
  obtain ⟨first, second, hfirst, hsecond, rfl⟩ := Performance.exists_tracks hf
  have hsilent : NoteChange.ofTrack first = [] := by
    rw [NoteChange.ofTrack_track hfirst, List.filterMap_eq_nil_iff]
    intro e he
    refine TimedEvent.change?_eq_none ?_
    have hmeta : e.event.isMeta = true := by
      rcases List.mem_append.1 ((Sorting.sort_perm _ _).mem_iff.1 he) with he | he
      · exact (Header.ne_endOfTrack_of_mem_events he).1
      · exact (List.mem_filter.1 he).2
    refine Bool.eq_false_iff.2 fun hnote => ?_
    simpa [hmeta] using Midi.Event.not_isMeta_of_isNote hnote
  have hall : [first, second].flatMap NoteChange.ofTrack = p.events.filterMap TimedEvent.change? := by
    rw [List.flatMap_cons, List.flatMap_cons, List.flatMap_nil, List.append_nil, hsilent,
      List.nil_append, NoteChange.ofTrack_track hsecond,
      TimedEvent.filterMap_change?_filter fun _ he => Midi.Event.not_isMeta_of_isNote he]
  rw [NoteChange.ofFile, hall]
  exact (List.mergeSort_perm _ _).trans (hnotes.filterMap_change? (Tree.voiced_of_perform hp))

end Compilation

-- ════════════════════════════════════════════════════════════════════════
-- The notes that sound
-- ════════════════════════════════════════════════════════════════════════

namespace PlayedNote

/-- What a note sounds as. -/
def note (n : PlayedNote) : UInt8 × UInt8 := (n.channel, n.key)

/-- A note sounds from its first tick on, and no more at its last. -/
def SoundsAt (n : PlayedNote) (T : UInt32) : Prop := n.start.tick ≤ T ∧ T < n.stop.tick

instance (n : PlayedNote) (T : UInt32) : Decidable (n.SoundsAt T) :=
  inferInstanceAs (Decidable (_ ∧ _))

/-- At each tick no more notes of a channel and key start and stop there than go on through it. -/
def Covered (notes : List PlayedNote) : Prop :=
  ∀ (a : UInt8 × UInt8) (T : UInt32),
    (notes.countP fun n => n.note = a ∧ n.start.tick = T ∧ n.stop.tick = T) ≤
      notes.countP fun n => n.note = a ∧ n.start.tick < T ∧ T < n.stop.tick

variable {notes : List PlayedNote}

/-- It is enough to look at the ticks at which some note starts and stops. -/
theorem covered_iff :
    Covered notes ↔ ∀ m ∈ notes, m.start.tick = m.stop.tick →
      (notes.countP fun n => n.note = m.note ∧ n.start.tick = m.start.tick ∧
          n.stop.tick = m.start.tick) ≤
        notes.countP fun n => n.note = m.note ∧ n.start.tick < m.start.tick ∧
          m.start.tick < n.stop.tick := by
  constructor
  · intro h m _ _
    exact h m.note m.start.tick
  · intro h a T
    by_cases hm : ∃ m ∈ notes, m.note = a ∧ m.start.tick = T ∧ m.stop.tick = T
    · obtain ⟨m, hm, rfl, rfl, hstop⟩ := hm
      exact h m hm hstop.symm
    · refine (List.countP_eq_zero.2 fun n hn => ?_).trans_le (Nat.zero_le _)
      rw [decide_eq_true_iff]
      exact fun hticks => hm ⟨n, hn, hticks⟩

instance (notes : List PlayedNote) : Decidable (Covered notes) :=
  decidable_of_iff _ covered_iff.symm

/-- The starts and the stops of notes are counted note by note. -/
theorem countP_changes (notes : List PlayedNote) (q : NoteChange → Bool) :
    (notes.flatMap changes).countP q =
      (notes.countP fun n => q ⟨n.start.tick, true, n.channel, n.key⟩) +
        notes.countP fun n => q ⟨n.stop.tick, false, n.channel, n.key⟩ := by
  induction notes with
  | nil => rfl
  | cons n notes ih =>
    rw [List.flatMap_cons, List.countP_append, ih, List.countP_cons, List.countP_cons, changes,
      List.countP_cons, List.countP_singleton]
    omega

theorem countP_attacks (notes : List PlayedNote) (a : UInt8 × UInt8) (q : UInt32 → Prop)
    [DecidablePred q] :
    ((notes.flatMap changes).countP fun c => c.attacks a && q c.tick) =
      notes.countP fun n => n.note = a ∧ q n.start.tick := by
  rw [countP_changes]
  simp [NoteChange.attacks, Bool.decide_and]
  rfl

theorem countP_releases (notes : List PlayedNote) (a : UInt8 × UInt8) (q : UInt32 → Prop)
    [DecidablePred q] :
    ((notes.flatMap changes).countP fun c => c.releases a && q c.tick) =
      notes.countP fun n => n.note = a ∧ q n.stop.tick := by
  rw [countP_changes]
  simp [NoteChange.releases, Bool.decide_and]
  rfl

/-- Notes of two kinds that exclude each other are counted kind by kind. -/
theorem countP_eq_add {p q r : PlayedNote → Prop} [DecidablePred p] [DecidablePred q]
    [DecidablePred r] (a : UInt8 × UInt8) (h : ∀ n ∈ notes, (p n ↔ q n ∨ r n) ∧ ¬(q n ∧ r n)) :
    (notes.countP fun n => n.note = a ∧ p n) =
      (notes.countP fun n => n.note = a ∧ q n) + notes.countP fun n => n.note = a ∧ r n := by
  rw [List.countP_eq_countP_filter_add notes _ fun n => q n, List.countP_filter, List.countP_filter]
  congr 1
  · refine List.countP_congr fun n hn => ?_
    have hn := h n hn
    simp only [Bool.and_eq_true, decide_eq_true_eq]
    tauto
  · refine List.countP_congr fun n hn => ?_
    have hn := h n hn
    simp only [Bool.and_eq_true, Bool.not_eq_true', decide_eq_true_eq, decide_eq_false_iff_not]
    tauto

end PlayedNote

namespace NoteChange

/-- The changes are the starts and stops of the notes, in order, and no note stops before it starts. -/
structure AreChangesOf (cs : List NoteChange) (notes : List PlayedNote) : Prop where
  ordered : cs.Pairwise fun a b => a.notAfter b = true
  perm : cs.Perm (notes.flatMap PlayedNote.changes)
  tick_le : ∀ n ∈ notes, n.start.tick.toNat ≤ n.stop.tick.toNat

/-- The notes that are left after the changes up to a tick. -/
def heldAt (cs : List NoteChange) (T : UInt32) : List (UInt8 × UInt8) :=
  (cs.filter fun c => c.tick ≤ T).foldl apply []

theorem holds_soundingAt (cs : List NoteChange) (T : UInt32) :
    (soundingAt cs T).Holds (heldAt cs T) :=
  holds_foldl Midi.Sounding.holds_empty _

end NoteChange

namespace NoteChange.AreChangesOf

variable {cs : List NoteChange} {notes : List PlayedNote}

/-- No release is lost if and only if the notes of no length are covered. -/
theorem forall_prefix_iff_covered (h : AreChangesOf cs notes) :
    (∀ a before, before <+: cs → before.countP (releases a) ≤ before.countP (attacks a)) ↔
      PlayedNote.Covered notes := by
  refine forall_congr' fun a => (forall_prefix_iff h.ordered).trans (forall_congr' fun T => ?_)
  have hstop : (notes.countP fun n => n.note = a ∧ n.stop.tick ≤ T) =
      (notes.countP fun n => n.note = a ∧ n.start.tick < T ∧ n.stop.tick ≤ T) +
        notes.countP fun n => n.note = a ∧ n.start.tick = T ∧ n.stop.tick = T := by
    refine PlayedNote.countP_eq_add a fun n hn => ?_
    have hle := h.tick_le n hn
    simp only [UInt32.le_iff_toNat_le, UInt32.lt_iff_toNat_lt, ← UInt32.toNat_inj]
    omega
  have hstart : (notes.countP fun n => n.note = a ∧ n.start.tick < T) =
      (notes.countP fun n => n.note = a ∧ n.start.tick < T ∧ n.stop.tick ≤ T) +
        notes.countP fun n => n.note = a ∧ n.start.tick < T ∧ T < n.stop.tick := by
    refine PlayedNote.countP_eq_add a fun n hn => ?_
    simp only [UInt32.le_iff_toNat_le, UInt32.lt_iff_toNat_lt]
    omega
  rw [h.perm.countP_eq, h.perm.countP_eq, PlayedNote.countP_releases notes a (· ≤ T),
    PlayedNote.countP_attacks notes a (· < T), hstop, hstart]
  omega

/-- Where no release is lost, what is left up to a tick is what sounds there. -/
theorem count_heldAt (h : AreChangesOf cs notes) (hcovered : PlayedNote.Covered notes) (T : UInt32)
    (a : UInt8 × UInt8) :
    (heldAt cs T).count a = notes.countP fun n => n.note = a ∧ n.SoundsAt T := by
  have hcount := (sounding_iff (cs.filter fun c => c.tick ≤ T) a).2 fun before hbefore =>
    h.forall_prefix_iff_covered.2 hcovered a before
      (hbefore.trans (filter_tick_le_isPrefix h.ordered T))
  have hsplit : (notes.countP fun n => n.note = a ∧ n.start.tick ≤ T) =
      (notes.countP fun n => n.note = a ∧ n.SoundsAt T) +
        notes.countP fun n => n.note = a ∧ n.stop.tick ≤ T := by
    refine PlayedNote.countP_eq_add a fun n hn => ?_
    have hle := h.tick_le n hn
    simp only [PlayedNote.SoundsAt, UInt32.le_iff_toNat_le, UInt32.lt_iff_toNat_lt]
    omega
  rw [List.countP_filter, List.countP_filter, h.perm.countP_eq, h.perm.countP_eq,
    PlayedNote.countP_releases notes a (· ≤ T), PlayedNote.countP_attacks notes a (· ≤ T),
    hsplit] at hcount
  exact Nat.add_right_cancel hcount

theorem mem_heldAt_iff (h : AreChangesOf cs notes) (hcovered : PlayedNote.Covered notes) {T : UInt32}
    {a : UInt8 × UInt8} : a ∈ heldAt cs T ↔ ∃ n ∈ notes, n.note = a ∧ n.SoundsAt T := by
  rw [← List.count_pos_iff, h.count_heldAt hcovered, List.countP_pos_iff]
  simp only [decide_eq_true_eq]

theorem exists_heldAt_iff (h : AreChangesOf cs notes) (hcovered : PlayedNote.Covered notes)
    {T : UInt32} {q : UInt8 × UInt8 → Prop} :
    (∃ a ∈ heldAt cs T, q a) ↔ ∃ n ∈ notes, n.SoundsAt T ∧ q n.note := by
  simp only [h.mem_heldAt_iff hcovered]
  constructor
  · rintro ⟨a, ⟨n, hn, rfl, hsounds⟩, ha⟩
    exact ⟨n, hn, hsounds, ha⟩
  · rintro ⟨n, hn, hsounds, ha⟩
    exact ⟨n.note, ⟨n, hn, rfl, hsounds⟩, ha⟩

theorem mem_iff (h : AreChangesOf cs notes) {c : NoteChange} :
    c ∈ cs ↔ ∃ n ∈ notes, c ∈ n.changes := by
  rw [h.perm.mem_iff, List.mem_flatMap]

/-- All notes are attacked as often as they are released. -/
theorem countP_releases_eq (h : AreChangesOf cs notes) (a : UInt8 × UInt8) :
    cs.countP (releases a) = cs.countP (attacks a) := by
  have hreleases := PlayedNote.countP_releases notes a fun _ => True
  have hattacks := PlayedNote.countP_attacks notes a fun _ => True
  simp only [decide_true, Bool.and_true, and_true] at hreleases hattacks
  rw [h.perm.countP_eq, h.perm.countP_eq, hreleases, hattacks]

/-- If no note is left after all changes, the notes of no length are covered. -/
theorem covered_of_foldl_eq_nil (h : AreChangesOf cs notes) (hnil : cs.foldl apply [] = []) :
    PlayedNote.Covered notes := by
  refine h.forall_prefix_iff_covered.1 fun a => (sounding_iff cs a).1 ?_
  rw [hnil, List.count_nil, Nat.zero_add, h.countP_releases_eq]

end NoteChange.AreChangesOf

-- ════════════════════════════════════════════════════════════════════════
-- Exact chords
-- ════════════════════════════════════════════════════════════════════════

namespace Chord

/-- The chord at a tick shows the keys and the channels of the notes that sound there, and there is
none if no note does. -/
structure Shows (chords : List Chord) (notes : List PlayedNote) (T : UInt32) : Prop where
  exists_iff : (∃ c ∈ chords, c.tick = T) ↔ ∃ n ∈ notes, n.SoundsAt T
  mem_keys : ∀ c ∈ chords, c.tick = T →
    ∀ key, key ∈ c.keys ↔ ∃ n ∈ notes, n.SoundsAt T ∧ n.key = key
  mem_channels : ∀ c ∈ chords, c.tick = T →
    ∀ channel, channel ∈ c.channels ↔ ∃ n ∈ notes, n.SoundsAt T ∧ n.channel = channel

/-- The chords show what sounds at each tick at which a note starts or stops. -/
def Exact (chords : List Chord) (notes : List PlayedNote) : Prop :=
  ∀ n ∈ notes, ∀ c ∈ n.changes, Shows chords notes c.tick

end Chord

namespace NoteChange.AreChangesOf

variable {f : Midi.File} {notes : List PlayedNote}

theorem shows (h : AreChangesOf (ofFile f) notes) (hcovered : PlayedNote.Covered notes)
    {x : NoteChange} (hx : x ∈ ofFile f) : Chord.Shows f.chords notes x.tick := by
  obtain ⟨hshown, hcomplete, -⟩ := f.chords_spec
  have hholds := holds_soundingAt (ofFile f) x.tick
  have hsilent : (soundingAt (ofFile f) x.tick).isSilent = false ↔ ∃ n ∈ notes, n.SoundsAt x.tick := by
    rw [Bool.eq_false_iff, ne_eq, hholds.isSilent_iff]
    constructor
    · intro hne
      obtain ⟨a, ha⟩ := List.exists_mem_of_ne_nil _ hne
      obtain ⟨n, hn, -, hsounds⟩ := (h.mem_heldAt_iff hcovered).1 ha
      exact ⟨n, hn, hsounds⟩
    · rintro ⟨n, hn, hsounds⟩
      exact List.ne_nil_of_mem ((h.mem_heldAt_iff hcovered).2 ⟨n, hn, rfl, hsounds⟩)
  refine ⟨⟨fun ⟨c, hc, htick⟩ => hsilent.1 (htick ▸ (hshown c hc).1),
    fun hsounds => hcomplete x hx (hsilent.2 hsounds)⟩, fun c hc htick key => ?_,
    fun c hc htick channel => ?_⟩
  · rw [(hshown c hc).2.1, htick, hholds.mem_keys]
    exact h.exists_heldAt_iff hcovered
  · rw [(hshown c hc).2.2, htick, hholds.mem_channels]
    exact h.exists_heldAt_iff hcovered

/-- Exact chords are silent at the last change, so no note is left there. -/
theorem foldl_eq_nil_of_exact (h : AreChangesOf (ofFile f) notes)
    (hexact : Chord.Exact f.chords notes) : (ofFile f).foldl apply [] = [] := by
  rcases List.eq_nil_or_concat' (ofFile f) with hnil | ⟨init, last, hlast⟩
  · rw [hnil]
    rfl
  have hmem : last ∈ ofFile f := hlast ▸ List.mem_append_right init (List.mem_singleton_self last)
  have hle : ∀ c ∈ ofFile f, c.tick ≤ last.tick := hlast ▸ tick_le_last (hlast ▸ h.ordered)
  have hall : (ofFile f).filter (fun c => c.tick ≤ last.tick) = ofFile f :=
    List.filter_eq_self.2 fun c hc => decide_eq_true (hle c hc)
  by_contra hne
  have hsilent : (soundingAt (ofFile f) last.tick).isSilent = false := by
    rw [Bool.eq_false_iff, ne_eq, (holds_soundingAt _ _).isSilent_iff, heldAt, hall]
    exact hne
  obtain ⟨n, hn, hchange⟩ := h.mem_iff.1 hmem
  obtain ⟨m, hm, hsounds⟩ :=
    (hexact n hn last hchange).exists_iff.1 (f.chords_spec.2.1 last hmem hsilent)
  -- A note that sounds after the last change would have to stop later.
  have hstop := hle _ (h.mem_iff.2 ⟨m, hm, List.mem_cons_of_mem _ List.mem_cons_self⟩)
  exact absurd hstop (UInt32.not_le.2 hsounds.2)

/-- The chords are exact if and only if the notes of no length are covered. -/
theorem exact_iff_covered (h : AreChangesOf (ofFile f) notes) :
    Chord.Exact f.chords notes ↔ PlayedNote.Covered notes := by
  constructor
  · intro hexact
    exact h.covered_of_foldl_eq_nil (h.foldl_eq_nil_of_exact hexact)
  · intro hcovered n hn c hc
    exact h.shows hcovered (h.mem_iff.2 ⟨n, hn, hc⟩)

end NoteChange.AreChangesOf

/-- What compiles plays notes. Its chords stand at ascending ticks and have each key and each channel
once. However the starts and stops are paired to notes, the chords show exactly what sounds if and only
if at each tick no more notes of a channel and key start and stop there than go on through it. -/
theorem Compilation.chords_exact_iff {src : Bytes} {p : Performance} {f : Midi.File}
    (h : (compile src).outcome = .compiled p f) :
    (∃ notes, AreNotesOf notes p.events) ∧ (f.chords.Pairwise fun c d => c.tick < d.tick) ∧
      (∀ c ∈ f.chords, c.keys.Pairwise (· < ·) ∧ c.channels.Pairwise (· < ·)) ∧
      ∀ notes, AreNotesOf notes p.events →
        (Chord.Exact f.chords notes ↔ PlayedNote.Covered notes) := by
  obtain ⟨hp, -⟩ := perform_of_compiled h
  have hsound : (compile src).tree.Sound src.length := (Tree.parse_sound src).1
  obtain ⟨hshown, -, hordered⟩ := f.chords_spec
  refine ⟨(hsound.perform_spans hp).noted, hordered, fun c hc => ?_, fun notes hnotes => ?_⟩
  · obtain ⟨-, hkeys, hchannels⟩ := hshown c hc
    rw [hkeys, hchannels]
    exact ⟨Midi.Sounding.ordered_keys _, Midi.Sounding.ordered_channels _⟩
  · have hchanges : NoteChange.AreChangesOf (NoteChange.ofFile f) notes :=
      ⟨NoteChange.ordered_ofFile f, ofFile_perm h hnotes, fun _ hn => tick_le_tick h hnotes hn⟩
    exact hchanges.exact_iff_covered

/-- A note that lasts less than a tick while a longer one of its key goes on. -/
def coveredNote : Bytes := Bytes.ofString "\x7b _1 0 [_/4 4 _/1000 0] \x7d"

theorem Compilation.chords_exact_iff_coveredNote :
    ∃ p f notes, (compile coveredNote).outcome = .compiled p f ∧ AreNotesOf notes p.events ∧
      PlayedNote.Covered notes ∧ Chord.Exact f.chords notes := by
  have herror : (compile coveredNote).error? = none := by decide +kernel
  have hnotes : (compile coveredNote).performance?.all (fun p => AreNotesOf
      [⟨0, 60, 64, ⟨0, 1⟩, ⟨1, 1⟩⟩, ⟨0, 67, 64, ⟨0, 1⟩, ⟨1, 4⟩⟩, ⟨0, 60, 64, ⟨1, 4⟩, ⟨251, 1000⟩⟩]
      p.events) = true := by
    decide +kernel
  have hcovered : PlayedNote.Covered [⟨0, 60, 64, ⟨0, 1⟩, ⟨1, 1⟩⟩, ⟨0, 67, 64, ⟨0, 1⟩, ⟨1, 4⟩⟩,
      ⟨0, 60, 64, ⟨1, 4⟩, ⟨251, 1000⟩⟩] := by
    decide +kernel
  obtain ⟨p, f, hc⟩ := exists_compiled_of_error?_eq_none herror
  rw [performance?, hc] at hnotes
  have hnotes := of_decide_eq_true hnotes
  exact ⟨p, f, _, hc, hnotes, hcovered, ((chords_exact_iff hc).2.2.2 _ hnotes).2 hcovered⟩

/-- A note that lasts less than a tick, and one after it. -/
def shortNote : Bytes := Bytes.ofString "_/1000 0 _1 4"

/-- The short note is shown as sounding for ever, also where no note sounds. -/
theorem Compilation.not_exact_shortNote :
    ∃ p f notes, (compile shortNote).outcome = .compiled p f ∧ AreNotesOf notes p.events ∧
      f.chords = [⟨0, [60, 67], [0], true⟩, ⟨384, [60], [0], false⟩] ∧
      ¬Chord.Exact f.chords notes := by
  have herror : (compile shortNote).error? = none := by decide +kernel
  have hnotes : (compile shortNote).performance?.all (fun p => AreNotesOf
      [⟨0, 60, 64, ⟨0, 1⟩, ⟨1, 1000⟩⟩, ⟨0, 67, 64, ⟨1, 1000⟩, ⟨1001, 1000⟩⟩] p.events) = true := by
    decide +kernel
  have htracks : (compile shortNote).file?.map (fun f => f.tracks.flatMap NoteChange.ofTrack) =
      some [⟨0, true, 0, 60⟩, ⟨0, false, 0, 60⟩, ⟨0, true, 0, 67⟩, ⟨384, false, 0, 67⟩] := by
    decide +kernel
  obtain ⟨p, f, hc⟩ := exists_compiled_of_error?_eq_none herror
  rw [performance?, hc] at hnotes
  rw [file?, hc] at htracks
  have hchanges : NoteChange.ofFile f =
      [⟨0, false, 0, 60⟩, ⟨0, true, 0, 60⟩, ⟨0, true, 0, 67⟩, ⟨384, false, 0, 67⟩] := by
    refine (congrArg (List.mergeSort · NoteChange.notAfter) (Option.some.inj htracks)).trans ?_
    cbv
  have hchords : f.chords = [⟨0, [60, 67], [0], true⟩, ⟨384, [60], [0], false⟩] := by
    rw [Midi.File.chords, hchanges]
    decide +kernel
  refine ⟨p, f, _, hc, of_decide_eq_true hnotes, hchords, fun hexact => ?_⟩
  -- At the tick at which the second note stops no note sounds.
  have hshows := hexact _ (List.mem_cons_of_mem _ List.mem_cons_self) _
    (List.mem_cons_of_mem _ List.mem_cons_self)
  obtain ⟨n, hn, hsounds⟩ := hshows.exists_iff.1
    ⟨_, hchords ▸ List.mem_cons_of_mem _ List.mem_cons_self, by decide +kernel⟩
  revert n
  decide +kernel

end DegreeScore
