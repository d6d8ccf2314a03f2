import DegreeScore.Preview
import DegreeScore.Proofs.Sounding
import Mathlib.Data.List.Infix
import Mathlib.Data.List.TakeWhile

/-!
# The notes of a preview

A preview counts the notes it keeps by their note-ons and takes note-offs for releases, whereas a note-on
without velocity is a release too. Whatever a track holds, of what is kept no note-off comes before its
note-on (`Clip.Follows`). A track in which every attack is released has previews in which every attack is
released, whatever their limits, exactly if all its releases are note-offs
(`Midi.File.settled_previews_iff`).
-/

namespace DegreeScore

-- ════════════════════════════════════════════════════════════════════════
-- Notes of events
-- ════════════════════════════════════════════════════════════════════════

namespace Midi

namespace Sounding

variable (s : Sounding) (channel key : UInt8) (a : UInt8 × UInt8)

theorem count_start :
    (s.start channel key).notes.count a =
      if (channel, key) = a then s.notes.count a + 1 else s.notes.count a := by
  rw [start, Tally.count_more]
  simp only [Std.LawfulEqCmp.compare_eq_iff_eq]
  split
  · next h => rw [h]
  · rfl

theorem count_stop :
    (s.stop channel key).notes.count a =
      if (channel, key) = a then s.notes.count a - 1 else s.notes.count a := by
  rw [stop, contains]
  by_cases h : 0 < s.notes.count (channel, key)
  · rw [if_pos (decide_eq_true h), Tally.count_less]
    simp only [Std.LawfulEqCmp.compare_eq_iff_eq]
    split
    · next h => rw [h]
    · rfl
  · rw [if_neg (by simpa using h)]
    split
    · next heq =>
      rw [← heq]
      omega
    · rfl

end Sounding

/-- What an event does to notes. -/
inductive Role
  | on (note : UInt8 × UInt8) (mute : Bool)
  | off (note : UInt8 × UInt8)
  | other
deriving DecidableEq

namespace TrackEvent

/-- A note-on is mute if it has no velocity. -/
def role (e : TrackEvent) : Role :=
  match e.event with
  | some (.channel c (.noteOn k v)) => .on (c, k) (v = 0)
  | some (.channel c (.noteOff k _)) => .off (c, k)
  | _ => .other

/-- Whether an event is a note-on, mute or not. -/
def isOn (e : TrackEvent) : Bool :=
  match e.role with
  | .on _ _ => true
  | _ => false

/-- Whether an event is a note-on without velocity. -/
def isMute (e : TrackEvent) : Bool :=
  match e.role with
  | .on _ mute => mute
  | _ => false

/-- Whether an event is a note-on of a note, mute or not. -/
def opens (a : UInt8 × UInt8) (e : TrackEvent) : Bool :=
  match e.role with
  | .on b _ => b = a
  | _ => false

/-- Whether an event is a note-off of a note. -/
def closes (a : UInt8 × UInt8) (e : TrackEvent) : Bool :=
  match e.role with
  | .off b => b = a
  | _ => false

/-- Whether an event starts a note. -/
def attacks (a : UInt8 × UInt8) (e : TrackEvent) : Bool :=
  (NoteChange.ofEvent? 0 e.event).any (·.attacks a)

/-- Whether an event stops a note. -/
def releases (a : UInt8 × UInt8) (e : TrackEvent) : Bool :=
  (NoteChange.ofEvent? 0 e.event).any (·.releases a)

variable (e : TrackEvent) (a : UInt8 × UInt8)

/-- What an event does to notes is read as it is for chords. -/
theorem ofEvent?_eq (tick : UInt32) :
    NoteChange.ofEvent? tick e.event =
      match e.role with
      | .on b mute => some ⟨tick, !mute, b.1, b.2⟩
      | .off b => some ⟨tick, false, b.1, b.2⟩
      | .other => none := by
  obtain ⟨d, _ | ⟨c, m⟩ | i⟩ := e
  · rfl
  · cases m with
    | noteOn k v => simp [NoteChange.ofEvent?, role, UInt8.pos_iff_ne_zero]
    | _ => rfl
  · rfl

theorem opens_eq_false {e : TrackEvent} {a b : UInt8 × UInt8} (h : e.closes a = true) :
    e.opens b = false := by
  rw [closes] at h
  rw [opens]
  split at h
  · next hrole => rw [hrole]
  · cases h

theorem isOn_of_opens {e : TrackEvent} {a : UInt8 × UInt8} (h : e.opens a = true) :
    e.isOn = true := by
  rw [opens] at h
  rw [isOn]
  split at h
  · rfl
  · cases h

theorem exists_opens_of_isMute {e : TrackEvent} (h : e.isMute = true) : ∃ a, e.opens a = true := by
  rw [isMute] at h
  split at h
  · next b mute hrole =>
    refine ⟨b, ?_⟩
    rw [opens, hrole]
    exact decide_eq_true rfl
  · cases h

theorem attacks_eq : e.attacks a = (e.opens a && !e.isMute) := by
  rw [attacks, ofEvent?_eq, opens, isMute]
  cases e.role with
  | on b mute => exact Bool.and_comm ..
  | off b => rfl
  | other => rfl

theorem releases_eq : e.releases a = (e.closes a || e.opens a && e.isMute) := by
  rw [releases, ofEvent?_eq, opens, closes, isMute]
  cases e.role with
  | on b mute =>
    cases mute
    · exact (Bool.and_false _).symm
    · exact (Bool.and_true _).symm
  | off b => exact (Bool.or_false _).symm
  | other => rfl

/-- The note-ons of a note are its attacks and those that release it, as the note-offs do. -/
theorem countP_opens (es : Track) (a : UInt8 × UInt8) :
    es.countP (·.opens a) = es.countP (·.attacks a) + es.countP (fun e => e.opens a && e.isMute) ∧
      es.countP (·.releases a) =
        es.countP (·.closes a) + es.countP fun e => e.opens a && e.isMute := by
  induction es with
  | nil => exact ⟨rfl, rfl⟩
  | cons e es ih =>
    simp only [List.countP_cons, attacks_eq, releases_eq] at ih ⊢
    cases hcloses : e.closes a
    · cases e.opens a <;> cases e.isMute <;>
        simp only [Bool.and_false, Bool.and_true, Bool.not_false, Bool.not_true, Bool.or_self,
          Bool.or_true, Bool.false_eq_true, ↓reduceIte] <;> omega
    · rw [opens_eq_false hcloses]
      simp only [Bool.false_and, Bool.or_false, Bool.false_eq_true, ↓reduceIte]
      omega

end TrackEvent

end Midi

-- ════════════════════════════════════════════════════════════════════════
-- What is kept
-- ════════════════════════════════════════════════════════════════════════

namespace Clip

/-- How often a note has been kept that has not been released. -/
def opened (c : Clip) (a : UInt8 × UInt8) : Nat := c.sounding.notes.count a

/-- The tick in the preview of a tick in the file. -/
def place (limits : PreviewLimits) (tick : UInt32) : UInt32 :=
  if limits.start < tick then tick - limits.start else 0

/-- Ticks before the start of a preview are at its beginning. -/
theorem toNat_place (limits : PreviewLimits) (tick : UInt32) :
    (place limits tick).toNat = tick.toNat - limits.start.toNat := by
  rw [place]
  split
  · next h => exact UInt32.toNat_sub_of_le _ _ (UInt32.le_of_lt h)
  · next h =>
    rw [UInt32.not_lt, UInt32.le_iff_toNat_le] at h
    exact (Nat.sub_eq_zero_of_le h).symm

/-- Whether the next event of a track is kept. -/
def keeps (limits : PreviewLimits) (c : Clip) (e : Midi.TrackEvent) : Bool :=
  match e.role with
  | .on _ _ => !(c.now + e.delta < limits.start || c.isFull limits)
  | .off a => 0 < c.opened a
  | .other => !(c.isFull limits && limits.start ≤ c.now + e.delta)

/-- Keeps the next event of a track. -/
def take (limits : PreviewLimits) (c : Clip) (e : Midi.TrackEvent) : Clip where
  now := c.now + e.delta
  last := place limits (c.now + e.delta)
  attacks := if e.isOn then c.attacks + 1 else c.attacks
  sounding :=
    match e.role with
    | .on a _ => c.sounding.start a.1 a.2
    | .off a => c.sounding.stop a.1 a.2
    | .other => c.sounding
  kept := c.kept.push ⟨place limits (c.now + e.delta) - c.last, e.event⟩

variable (limits : PreviewLimits) (c : Clip) (e : Midi.TrackEvent) (a : UInt8 × UInt8)

theorem step_eq :
    c.step limits e = if c.keeps limits e then c.take limits e
      else { c with now := c.now + e.delta } := by
  have hnot : ∀ (b : Bool) (x y : Clip), (if b then x else y) = if !b then y else x := by
    rintro (_ | _) x y <;> rfl
  obtain ⟨d, _ | ⟨ch, m⟩ | i⟩ := e
  · exact hnot _ _ _
  · cases m with
    | noteOn k v => exact hnot _ _ _
    | noteOff k v => rfl
    | _ => exact hnot _ _ _
  · exact hnot _ _ _

theorem now_step : (c.step limits e).now = c.now + e.delta := by
  rw [step_eq]
  split <;> rfl

theorem last_step :
    (c.step limits e).last =
      if c.keeps limits e then place limits (c.now + e.delta) else c.last := by
  rw [step_eq]
  split <;> rfl

theorem attacks_step :
    (c.step limits e).attacks = c.attacks + if c.keeps limits e && e.isOn then 1 else 0 := by
  rw [step_eq]
  cases c.keeps limits e
  · rfl
  · rw [if_pos rfl, take, Bool.true_and]
    split <;> rfl

/-- A note counts once more when its note-on is kept, and once less when its note-off is. -/
theorem opened_step :
    (c.step limits e).opened a =
      if c.keeps limits e && e.opens a then c.opened a + 1
      else if c.keeps limits e && e.closes a then c.opened a - 1 else c.opened a := by
  rw [step_eq]
  cases c.keeps limits e
  · rfl
  · rw [if_pos rfl, opened, take, Midi.TrackEvent.opens, Midi.TrackEvent.closes, Bool.true_and,
      Bool.true_and]
    cases e.role with
    | on b mute =>
      dsimp only
      rw [Midi.Sounding.count_start]
      simp [opened]
    | off b =>
      dsimp only
      rw [Midi.Sounding.count_stop]
      simp [opened]
    | other => rfl

theorem kept_step :
    (c.step limits e).kept.toList = c.kept.toList ++
      if c.keeps limits e then [⟨place limits (c.now + e.delta) - c.last, e.event⟩] else [] := by
  rw [step_eq]
  split
  · rw [take, Array.toList_push]
  · rw [List.append_nil]

variable {limits c e a}

/-- Events are counted when they are kept, if it makes no difference when they come. -/
theorem countP_step {p : Midi.TrackEvent → Bool} (hp : ∀ delta, p ⟨delta, e.event⟩ = p e) :
    (c.step limits e).kept.toList.countP p =
      c.kept.toList.countP p + if c.keeps limits e && p e then 1 else 0 := by
  rw [kept_step, List.countP_append]
  cases c.keeps limits e
  · rfl
  · rw [if_pos rfl, List.countP_singleton, hp, Bool.true_and]

/-- A note-off is kept exactly if a note-on of its note has been kept and not released. -/
theorem keeps_of_closes (h : e.closes a = true) : c.keeps limits e = decide (0 < c.opened a) := by
  rw [Midi.TrackEvent.closes] at h
  rw [keeps]
  split at h
  · next b hrole =>
    rw [hrole, of_decide_eq_true h]
  · cases h

/-- A note-on is kept if it is not before the start and there is room. -/
theorem keeps_of_isOn (h : e.isOn = true) :
    c.keeps limits e = !(c.now + e.delta < limits.start || c.isFull limits) := by
  rw [Midi.TrackEvent.isOn] at h
  rw [keeps]
  split at h
  · next hrole => rw [hrole]
  · cases h

/-- What a clip keeps of the events of a track, whichever they are. -/
structure Follows (c : Clip) (es : Midi.Track) : Prop where
  events : (c.kept.toList.map (·.event)).Sublist (es.map (·.event))
  /-- Note-offs come after their note-ons. -/
  held : ∀ a before, before <+: c.kept.toList →
    before.countP (·.closes a) ≤ before.countP (·.opens a)
  opened : ∀ a, c.kept.toList.countP (·.opens a) = c.kept.toList.countP (·.closes a) + c.opened a

theorem follows_empty : Follows {} [] where
  events := .slnil
  held a before h := by rw [List.prefix_nil.1 h, List.countP_nil, List.countP_nil]
  opened a := rfl

/-- What is kept is balanced with what is counted, also after the next event. -/
theorem opened_balance {n m : Nat} (h : n = m + c.opened a) :
    (n + if c.keeps limits e && e.opens a then 1 else 0) =
      (m + if c.keeps limits e && e.closes a then 1 else 0) + (c.step limits e).opened a := by
  rw [opened_step]
  cases hcloses : e.closes a
  · cases c.keeps limits e && e.opens a <;>
      simp only [Bool.and_false, Bool.false_eq_true, ↓reduceIte] <;> omega
  · rw [keeps_of_closes hcloses, Midi.TrackEvent.opens_eq_false hcloses]
    by_cases hpos : 0 < c.opened a
    · simp only [hpos, decide_true, Bool.and_false, Bool.and_true, Bool.false_eq_true, ↓reduceIte]
      omega
    · simp only [hpos, decide_false, Bool.and_false, Bool.false_and, Bool.false_eq_true, ↓reduceIte]
      omega

theorem Follows.step {es : Midi.Track} (h : c.Follows es) :
    (c.step limits e).Follows (es ++ [e]) := by
  have hopened : ∀ a, (c.step limits e).kept.toList.countP (·.opens a) =
      (c.step limits e).kept.toList.countP (·.closes a) + (c.step limits e).opened a := by
    intro a
    rw [countP_step fun _ => rfl, countP_step fun _ => rfl]
    exact opened_balance (h.opened a)
  refine ⟨?_, fun a before hbefore => ?_, hopened⟩
  · rw [kept_step, List.map_append, List.map_append]
    refine h.events.append ?_
    split
    · exact List.Sublist.refl _
    · exact List.nil_sublist _
  · have hall := hopened a
    rw [kept_step] at hbefore hall
    cases hkeeps : c.keeps limits e
    · rw [hkeeps] at hbefore
      refine h.held a before ?_
      simpa using hbefore
    · rw [hkeeps, if_pos rfl] at hbefore hall
      rcases List.prefix_concat_iff.1 hbefore with rfl | hbefore
      · exact hall ▸ Nat.le_add_right _ _
      · exact h.held a before hbefore

theorem follows_foldl (limits : PreviewLimits) (es : Midi.Track) :
    Follows (es.foldl (Clip.step limits) {}) es := by
  induction es using List.reverseRecOn with
  | nil => exact follows_empty
  | append_singleton es e ih =>
    rw [List.foldl_append]
    exact ih.step

/-- What has been kept and not released has been started and not stopped, where note-offs come after
their note-ons. -/
theorem opened_add_le (limits : PreviewLimits) {es : Midi.Track}
    (h : ∀ before, before <+: es → before.countP (·.closes a) ≤ before.countP (·.opens a)) :
    (es.foldl (Clip.step limits) {}).opened a + es.countP (·.closes a) ≤
      es.countP (·.opens a) := by
  induction es using List.reverseRecOn with
  | nil => exact Nat.le_refl 0
  | append_singleton es e ih =>
    have hle := ih fun before hbefore => h before (hbefore.trans (List.prefix_append ..))
    have hall := h (es ++ [e]) List.prefix_rfl
    rw [List.countP_append, List.countP_append, List.countP_singleton, List.countP_singleton] at hall ⊢
    rw [List.foldl_append, List.foldl_cons, List.foldl_nil, opened_step]
    cases hcloses : e.closes a
    · cases hopens : e.opens a
      · simpa using hle
      · simp only [Bool.and_true, Bool.and_false, Bool.false_eq_true, ↓reduceIte]
        split <;> omega
    · have hopens := Midi.TrackEvent.opens_eq_false (b := a) hcloses
      simp only [hcloses, hopens, keeps_of_closes hcloses, Bool.and_false, Bool.and_true,
        Bool.false_eq_true, decide_eq_true_eq, ↓reduceIte] at hall ⊢
      split <;> omega

variable {es : Midi.Track}

/-- From the beginning on, with room for all notes, nothing is lost of a note whose note-offs come after
its note-ons. -/
theorem foldl_of_room (hstart : limits.start = 0)
    (hroom : (es.countP (·.isOn) : ℤ) ≤ limits.notes)
    (hheld : ∀ before, before <+: es → before.countP (·.closes a) ≤ before.countP (·.opens a)) :
    (es.foldl (step limits) {}).attacks = es.countP (·.isOn) ∧
      (es.foldl (step limits) {}).opened a + es.countP (·.closes a) = es.countP (·.opens a) ∧
      (es.foldl (step limits) {}).kept.toList.countP (·.attacks a) = es.countP (·.attacks a) ∧
      (es.foldl (step limits) {}).kept.toList.countP (·.releases a) =
        es.countP (·.releases a) := by
  induction es using List.reverseRecOn with
  | nil => exact ⟨rfl, rfl, rfl, rfl⟩
  | append_singleton es e ih =>
    rw [List.countP_append, List.countP_singleton] at hroom
    have hall := hheld (es ++ [e]) List.prefix_rfl
    rw [List.countP_append, List.countP_append, List.countP_singleton, List.countP_singleton] at hall
    obtain ⟨hattacks, hopened, hkept, hkept'⟩ := ih (by omega)
      fun before hbefore => hheld before (hbefore.trans (List.prefix_append ..))
    rw [List.foldl_append, List.foldl_cons, List.foldl_nil]
    generalize es.foldl (step limits) {} = c at *
    have hon : e.isOn = true → c.keeps limits e = true := by
      intro hon
      rw [if_pos hon, ← hattacks] at hroom
      rw [keeps_of_isOn hon, hstart, isFull]
      simp only [Bool.not_eq_true', Bool.or_eq_false_iff, decide_eq_false_iff_not,
        Bool.and_eq_false_iff]
      exact ⟨UInt32.not_lt.2 UInt32.zero_le, .inr (by omega)⟩
    have hoff : e.closes a = true → c.keeps limits e = true := by
      intro hcloses
      rw [if_pos hcloses, Midi.TrackEvent.opens_eq_false hcloses] at hall
      rw [keeps_of_closes hcloses, decide_eq_true_eq]
      simp only [Bool.false_eq_true, ↓reduceIte] at hall
      omega
    have hopens : (c.keeps limits e && e.opens a) = e.opens a :=
      Bool.and_eq_right_iff_imp.2 fun h => hon (Midi.TrackEvent.isOn_of_opens h)
    have hattack : (c.keeps limits e && e.attacks a) = e.attacks a := by
      rw [e.attacks_eq, ← Bool.and_assoc, hopens]
    have hrelease : (c.keeps limits e && e.releases a) = e.releases a := by
      rw [e.releases_eq, Bool.and_or_distrib_left, ← Bool.and_assoc, hopens,
        Bool.and_eq_right_iff_imp.2 hoff]
    refine ⟨?_, ?_, ?_, ?_⟩
    · rw [attacks_step, Bool.and_eq_right_iff_imp.2 hon, List.countP_append,
        List.countP_singleton, hattacks]
    · rw [opened_step, hopens, Bool.and_eq_right_iff_imp.2 hoff, List.countP_append,
        List.countP_append, List.countP_singleton, List.countP_singleton]
      cases hcloses : e.closes a
      · cases e.opens a <;> simp only [Bool.false_eq_true, ↓reduceIte] <;> omega
      · rw [hcloses, Midi.TrackEvent.opens_eq_false hcloses] at hall
        rw [Midi.TrackEvent.opens_eq_false hcloses]
        simp only [Bool.false_eq_true, ↓reduceIte] at hall ⊢
        omega
    · rw [countP_step fun _ => rfl, hattack, List.countP_append, List.countP_singleton, hkept]
    · rw [countP_step fun _ => rfl, hrelease, List.countP_append, List.countP_singleton, hkept']

/-- Once there is no room for notes, only the note-offs of notes that have been kept are. -/
theorem foldl_of_full (hfull : c.isFull limits = true)
    (hopened : es.countP (·.closes a) ≤ c.opened a) :
    (es.foldl (step limits) c).kept.toList.countP (·.attacks a) =
        c.kept.toList.countP (·.attacks a) ∧
      (es.foldl (step limits) c).kept.toList.countP (·.releases a) =
        c.kept.toList.countP (·.releases a) + es.countP (·.closes a) := by
  induction es generalizing c with
  | nil => exact ⟨rfl, rfl⟩
  | cons e es ih =>
    rw [List.countP_cons] at hopened
    have hon : (c.keeps limits e && e.isOn) = false := by
      cases h : e.isOn
      · exact Bool.and_false _
      · rw [keeps_of_isOn h, hfull, Bool.or_true]
        rfl
    have hopens : (c.keeps limits e && e.opens a) = false := by
      cases h : e.opens a
      · exact Bool.and_false _
      · rwa [Midi.TrackEvent.isOn_of_opens h] at hon
    have hcloses : (c.keeps limits e && e.closes a) = e.closes a :=
      Bool.and_eq_right_iff_imp.2 fun h => by
        rw [if_pos h] at hopened
        rw [keeps_of_closes h, decide_eq_true_eq]
        omega
    have hattack : (c.keeps limits e && e.attacks a) = false := by
      rw [e.attacks_eq, ← Bool.and_assoc, hopens, Bool.false_and]
    have hrelease : (c.keeps limits e && e.releases a) = e.closes a := by
      rw [e.releases_eq, Bool.and_or_distrib_left, ← Bool.and_assoc, hopens, hcloses,
        Bool.false_and, Bool.or_false]
    have hnext : es.countP (·.closes a) ≤ (c.step limits e).opened a := by
      rw [opened_step, hopens, hcloses]
      cases h : e.closes a
      · rw [h] at hopened
        exact hopened
      · rw [h] at hopened
        simp only [Bool.false_eq_true, ↓reduceIte] at hopened ⊢
        omega
    have hfull' : (c.step limits e).isFull limits = true := by
      rw [isFull, attacks_step, hon]
      exact hfull
    obtain ⟨hkept, hkept'⟩ := ih hfull' hnext
    rw [List.foldl_cons, hkept, hkept', countP_step fun _ => rfl, countP_step fun _ => rfl, hattack,
      hrelease, List.countP_cons]
    refine ⟨rfl, ?_⟩
    omega

/-- With room for the note-ons of a first part only, all that is added to it is note-offs. -/
theorem exists_limits {before after : Midi.Track} (hsome : 0 < before.countP (·.isOn))
    (hheld : ∀ init, init <+: before → init.countP (·.closes a) ≤ init.countP (·.opens a))
    (hafter : before.countP (·.closes a) + after.countP (·.closes a) ≤
      before.countP (·.opens a)) :
    ∃ limits, ((before ++ after).foldl (step limits) {}).kept.toList.countP (·.attacks a) =
        before.countP (·.attacks a) ∧
      ((before ++ after).foldl (step limits) {}).kept.toList.countP (·.releases a) =
        before.countP (·.releases a) + after.countP (·.closes a) := by
  let limits : PreviewLimits := ⟨0, before.countP (·.isOn)⟩
  have hroom : (before.countP (·.isOn) : ℤ) ≤ limits.notes := Int.le_refl _
  obtain ⟨hattacks, hopened, hkept, hkept'⟩ := foldl_of_room rfl hroom hheld
  have hfull : (before.foldl (step limits) {}).isFull limits = true := by
    rw [isFull, Bool.and_eq_true, decide_eq_true_eq, decide_eq_true_eq, hattacks]
    exact ⟨Int.natCast_pos.2 hsome, Int.le_refl _⟩
  have hle : after.countP (·.closes a) ≤ (before.foldl (step limits) {}).opened a := by omega
  obtain ⟨hfinal, hfinal'⟩ := foldl_of_full hfull hle
  refine ⟨limits, ?_, ?_⟩
  · rw [List.foldl_append, hfinal, hkept]
  · rw [List.foldl_append, hfinal', hkept']

end Clip

-- ════════════════════════════════════════════════════════════════════════
-- Previews of tracks
-- ════════════════════════════════════════════════════════════════════════

namespace Midi

/-- The events of a track up to the first that ends it. -/
def Track.played (t : Track) : Track := t.takeWhile fun e => !e.isEnding

/-- Note by note, releases come after their attacks, and every attack is released. -/
structure Track.Settled (t : Track) : Prop where
  held : ∀ a before, before <+: t.played →
    before.countP (·.releases a) ≤ before.countP (·.attacks a)
  settled : ∀ a, t.played.countP (·.attacks a) = t.played.countP (·.releases a)

variable {t : Track} {limits : PreviewLimits}

theorem Track.isEnding_of_mem_played {e : TrackEvent} (h : e ∈ t.played) : e.isEnding = false := by
  simpa using List.mem_takeWhile_imp h

/-- A preview is closed by one event. -/
theorem Track.played_preview :
    (t.preview limits).played = (t.played.foldl (Clip.step limits) {}).kept.toList := by
  have hfollows := Clip.follows_foldl limits t.played
  have hkept : ∀ e ∈ (t.played.foldl (Clip.step limits) {}).kept.toList, (!e.isEnding) = true := by
    intro e he
    obtain ⟨e', he', heq⟩ := List.mem_map.1 (hfollows.events.subset (List.mem_map_of_mem he))
    have hending := isEnding_of_mem_played he'
    rw [TrackEvent.isEnding, heq] at hending
    rw [TrackEvent.isEnding, hending]
    rfl
  rw [Track.preview, Track.played]
  refine (List.takeWhile_append_of_pos hkept).trans ?_
  exact List.append_nil _

/-- Without mute note-ons, attacks are note-ons and releases are note-offs. -/
theorem TrackEvent.countP_of_not_mute {es : Track} (h : ∀ e ∈ es, e.isMute = false)
    (a : UInt8 × UInt8) :
    es.countP (·.attacks a) = es.countP (·.opens a) ∧
      es.countP (·.releases a) = es.countP (·.closes a) := by
  constructor
  · refine List.countP_congr fun e he => ?_
    rw [attacks_eq, h e he, Bool.not_false, Bool.and_true]
  · refine List.countP_congr fun e he => ?_
    rw [releases_eq, h e he, Bool.and_false, Bool.or_false]

/-- Where all releases are note-offs, previews keep what is settled settled. -/
theorem Track.Settled.preview (h : t.Settled) (hmute : ∀ e ∈ t.played, e.isMute = false)
    (limits : PreviewLimits) : (t.preview limits).Settled := by
  have hfollows := Clip.follows_foldl limits t.played
  have hkept : ∀ e ∈ (t.preview limits).played, e.isMute = false := by
    intro e he
    rw [Track.played_preview] at he
    obtain ⟨e', he', heq⟩ := List.mem_map.1 (hfollows.events.subset (List.mem_map_of_mem he))
    have hmute' := hmute e' he'
    rw [TrackEvent.isMute, TrackEvent.role, heq] at hmute'
    exact hmute'
  have hheld : ∀ a before, before <+: t.played →
      before.countP (·.closes a) ≤ before.countP (·.opens a) := by
    intro a before hbefore
    obtain ⟨hattacks, hreleases⟩ := TrackEvent.countP_of_not_mute
      (fun e he => hmute e (hbefore.subset he)) a
    rw [← hattacks, ← hreleases]
    exact h.held a before hbefore
  refine ⟨fun a before hbefore => ?_, fun a => ?_⟩
  · obtain ⟨hattacks, hreleases⟩ := TrackEvent.countP_of_not_mute
      (fun e he => hkept e (hbefore.subset he)) a
    rw [hattacks, hreleases]
    exact hfollows.held a before (Track.played_preview ▸ hbefore)
  · -- In the end nothing is left that has been kept and not released.
    obtain ⟨hattacks, hreleases⟩ := TrackEvent.countP_of_not_mute hkept a
    obtain ⟨hattacks', hreleases'⟩ := TrackEvent.countP_of_not_mute hmute a
    have hle := Clip.opened_add_le limits (hheld a)
    have hsettled := h.settled a
    rw [hattacks, hreleases, Track.played_preview, hfollows.opened a]
    omega

/-- Where something in a list has a property, there is a last that has it. -/
theorem exists_last {α : Type} {p : α → Bool} {l : List α} (h : ∃ x ∈ l, p x = true) :
    ∃ before x after, l = before ++ x :: after ∧ p x = true ∧ ∀ y ∈ after, ¬p y = true := by
  induction l with
  | nil => simp at h
  | cons y l ih =>
    by_cases hl : ∃ x ∈ l, p x = true
    · obtain ⟨before, x, after, rfl, hx, hafter⟩ := ih hl
      exact ⟨y :: before, x, after, rfl, hx, hafter⟩
    · obtain ⟨x, hx, hp⟩ := h
      rcases List.mem_cons.1 hx with rfl | hx
      · exact ⟨[], x, l, rfl, hp, fun y hy hpy => hl ⟨y, hy, hpy⟩⟩
      · exact absurd ⟨x, hx, hp⟩ hl

/-- If all previews are settled, all releases are note-offs. Otherwise there would be a note with a
mute note-on; a preview with room for all notes before the last note-on of the note loses this one only,
which leaves an attack or a release too many. -/
theorem Track.Settled.isMute_eq_false (h : t.Settled)
    (hpreview : ∀ limits, (t.preview limits).Settled) : ∀ e ∈ t.played, e.isMute = false := by
  intro e₀ he₀
  by_contra hmute
  rw [Bool.not_eq_false] at hmute
  obtain ⟨a, hopens₀⟩ := TrackEvent.exists_opens_of_isMute hmute
  obtain ⟨before, e, after, hsplit, hopens, hafter⟩ :=
    exists_last (p := fun e => e.opens a) ⟨e₀, he₀, hopens₀⟩
  obtain ⟨hbefore, hbefore'⟩ := TrackEvent.countP_opens before a
  obtain ⟨hlast, hlast'⟩ := TrackEvent.countP_opens [e] a
  obtain ⟨hrest, hrest'⟩ := TrackEvent.countP_opens after a
  have hopensLast : [e].countP (·.opens a) = 1 := by rw [List.countP_singleton, if_pos hopens]
  have hclosesLast : [e].countP (·.closes a) = 0 := by
    rw [List.countP_singleton, if_neg fun hcloses => ?_]
    rw [TrackEvent.opens_eq_false hcloses] at hopens
    cases hopens
  have hopensRest : after.countP (·.opens a) = 0 := List.countP_eq_zero.2 hafter
  have hsettled := h.settled a
  rw [hsplit, List.append_cons, List.countP_append, List.countP_append, List.countP_append,
    List.countP_append] at hsettled
  have hmuted : 0 < t.played.countP fun e => e.opens a && e.isMute :=
    List.countP_pos_iff.2 ⟨e₀, he₀, by rw [hopens₀, hmute]; rfl⟩
  rw [hsplit, List.append_cons, List.countP_append, List.countP_append] at hmuted
  have hheldBefore : ∀ init, init <+: before →
      init.countP (·.closes a) ≤ init.countP (·.opens a) := by
    intro init hinit
    have hle := h.held a init (hsplit ▸ hinit.trans (List.prefix_append ..))
    obtain ⟨hopens, hreleases⟩ := TrackEvent.countP_opens init a
    omega
  have hcloses : (e :: after).countP (·.closes a) = after.countP (·.closes a) := by
    rw [← List.singleton_append, List.countP_append, hclosesLast, Nat.zero_add]
  have hopensOn : before.countP (·.opens a) ≤ before.countP (·.isOn) :=
    List.countP_mono_left fun e _ => TrackEvent.isOn_of_opens
  have hsome : 0 < before.countP (·.isOn) := by omega
  have hroom : before.countP (·.closes a) + (e :: after).countP (·.closes a) ≤
      before.countP (·.opens a) := by omega
  obtain ⟨limits, hattacks, hreleases⟩ := Clip.exists_limits hsome hheldBefore hroom
  have hpreviewed := (hpreview limits).settled a
  rw [Track.played_preview, hsplit, hattacks, hreleases, hcloses] at hpreviewed
  omega

/-- A file in which every attack is released has previews in which every attack is released, wherever
they start and however many notes they keep, exactly if no release is a note-on without velocity. -/
theorem File.settled_previews_iff {f : File} (h : ∀ t ∈ f.tracks, t.Settled) :
    (∀ limits, ∀ t ∈ (f.preview limits).tracks, t.Settled) ↔
      ∀ t ∈ f.tracks, ∀ e ∈ t.played, e.isMute = false := by
  simp only [File.preview, List.forall_mem_map]
  constructor
  · intro hpreview t ht
    exact (h t ht).isMute_eq_false fun limits => hpreview limits t ht
  · intro hmute limits t ht
    exact (h t ht).preview (hmute t ht) limits

/-- A track of one note is settled if the note is. -/
theorem Track.settled_of_note (a : UInt8 × UInt8)
    (hnote : ∀ e ∈ t.played, (NoteChange.ofEvent? 0 e.event).all (·.note = a) = true)
    (hheld : ∀ before ∈ t.played.inits,
      before.countP (·.releases a) ≤ before.countP (·.attacks a))
    (hsettled : t.played.countP (·.attacks a) = t.played.countP (·.releases a)) : t.Settled := by
  have hother : ∀ b ≠ a, ∀ e ∈ t.played, e.attacks b = false ∧ e.releases b = false := by
    intro b hb e he
    have hnote := hnote e he
    rw [TrackEvent.attacks, TrackEvent.releases]
    cases hc : NoteChange.ofEvent? 0 e.event with
    | none => exact ⟨rfl, rfl⟩
    | some c =>
      rw [hc, Option.all_some, decide_eq_true_eq] at hnote
      simp [NoteChange.attacks, NoteChange.releases, hnote, hb.symm]
  have hnone : ∀ b ≠ a, ∀ es : Track, (∀ e ∈ es, e ∈ t.played) →
      es.countP (·.attacks b) = 0 ∧ es.countP (·.releases b) = 0 := fun b hb es hes =>
    ⟨List.countP_eq_zero.2 fun e he => Bool.eq_false_iff.1 (hother b hb e (hes e he)).1,
      List.countP_eq_zero.2 fun e he => Bool.eq_false_iff.1 (hother b hb e (hes e he)).2⟩
  refine ⟨fun b before hbefore => ?_, fun b => ?_⟩
  · by_cases hb : b = a
    · exact hb ▸ hheld before ((List.mem_inits ..).2 hbefore)
    · obtain ⟨-, hreleases⟩ := hnone b hb before fun e he => hbefore.subset he
      exact hreleases ▸ Nat.zero_le _
  · by_cases hb : b = a
    · exact hb ▸ hsettled
    · obtain ⟨hattacks, hreleases⟩ := hnone b hb t.played fun e => id
      rw [hattacks, hreleases]

/-- A note that is attacked again before it is released, on a track with a program. -/
def twice : File where
  format := 0
  timing := some (.metric 96)
  tracks := [[⟨0, some (.channel 0 (.programChange 5))⟩, ⟨0, some (.channel 0 (.noteOn 60 64))⟩,
    ⟨48, some (.channel 0 (.noteOn 60 80))⟩, ⟨48, some (.channel 0 (.noteOff 60 0))⟩,
    ⟨0, some (.channel 0 (.noteOff 60 0))⟩, .ending 0]]

theorem File.settled_previews_twice :
    (∀ t ∈ twice.tracks, t.Settled) ∧
      ∀ limits, ∀ t ∈ (twice.preview limits).tracks, t.Settled := by
  have hsettled : ∀ t ∈ twice.tracks, t.Settled := List.forall_mem_singleton.2
    (Track.settled_of_note (0, 60) (by decide) (by decide) (by decide))
  exact ⟨hsettled, (File.settled_previews_iff hsettled).2 (by decide)⟩

/-- A note that is released by a note-on without velocity. -/
def muted : File where
  format := 0
  timing := some (.metric 96)
  tracks := [[⟨0, some (.channel 0 (.noteOn 60 64))⟩, ⟨96, some (.channel 0 (.noteOn 60 0))⟩,
    .ending 0]]

/-- The release counts as a second note, for which there is no room. -/
theorem File.not_settled_preview_muted :
    (∀ t ∈ muted.tracks, t.Settled) ∧
      (muted.preview ⟨0, 1⟩).tracks = [[⟨0, some (.channel 0 (.noteOn 60 64))⟩, .ending 0]] ∧
      ¬∀ t ∈ (muted.preview ⟨0, 1⟩).tracks, t.Settled := by
  have hpreview : (muted.preview ⟨0, 1⟩).tracks =
      [[⟨0, some (.channel 0 (.noteOn 60 64))⟩, .ending 0]] := by decide +kernel
  refine ⟨List.forall_mem_singleton.2
    (Track.settled_of_note (0, 60) (by decide) (by decide) (by decide)), hpreview, fun h => ?_⟩
  rw [hpreview] at h
  exact absurd ((h _ List.mem_cons_self).settled (0, 60)) (by decide)

end Midi

end DegreeScore
