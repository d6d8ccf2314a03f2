import DegreeScore.Chord
import Mathlib.Data.List.Induction

/-!
# Sounding notes as a list

What sounds is a list of notes in which only the numbers count (`Midi.Sounding.Holds`): an attack puts
a note in, and a release takes one out if it is there. A release without an attack before it is lost, so
after changes from silence a note is there at least as often as it was attacked and not released
(`NoteChange.le_sounding`), and just as often if nowhere before there were more releases than attacks
(`NoteChange.sounding_iff`).
-/

namespace DegreeScore

-- ════════════════════════════════════════════════════════════════════════
-- Tallies
-- ════════════════════════════════════════════════════════════════════════

namespace Tally

variable {α : Type} {cmp : α → α → Ordering} [BEq α]

/-- The tally of a list: what is in it, and how often. -/
def Tallies (t : Tally α cmp) (as : List α) : Prop :=
  ∀ a, t.entries[a]? = if as.count a = 0 then none else some (as.count a)

variable {t : Tally α cmp} {as bs : List α}

theorem Tallies.of_perm (h : t.Tallies as) (hperm : as.Perm bs) : t.Tallies bs := fun a => by
  rw [← hperm.count_eq, h a]

variable [Std.TransCmp cmp]

theorem tallies_empty : ({} : Tally α cmp).Tallies [] := fun a => by simp

theorem Tallies.count (h : t.Tallies as) (a : α) : t.count a = as.count a := by
  rw [Tally.count, Std.TreeMap.getD_eq_getD_getElem?, h a]
  split
  · next hzero => exact hzero.symm
  · rfl

variable [LawfulBEq α] [Std.LawfulEqCmp cmp]

theorem Tallies.more (h : t.Tallies as) (a : α) : (t.more a).Tallies (a :: as) := by
  intro b
  rw [Tally.more, Std.TreeMap.getElem?_insert, h.count]
  by_cases hab : a = b
  · subst hab
    simp
  · have hne : cmp a b ≠ .eq := fun heq => hab (Std.LawfulEqCmp.eq_of_compare heq)
    rw [if_neg hne, h b, List.count_cons_of_ne hab]

theorem Tallies.less (h : t.Tallies as) (a : α) : (t.less a).Tallies (as.erase a) := by
  intro b
  rw [Tally.less, h.count]
  by_cases hab : a = b
  · subst hab
    rw [List.count_erase_self]
    split
    · next hle => rw [Std.TreeMap.getElem?_erase_self, if_pos (by omega)]
    · next hlt => rw [Std.TreeMap.getElem?_insert_self, if_neg (by omega)]
  · have hne : cmp a b ≠ .eq := fun heq => hab (Std.LawfulEqCmp.eq_of_compare heq)
    have hkept : (as.erase a).count b = as.count b := List.count_erase_of_ne (Ne.symm hab)
    rw [hkept, ← h b]
    split
    · rw [Std.TreeMap.getElem?_erase, if_neg hne]
    · rw [Std.TreeMap.getElem?_insert, if_neg hne]

theorem Tallies.mem_toList (h : t.Tallies as) {a : α} : a ∈ t.toList ↔ a ∈ as := by
  rw [toList, Std.TreeMap.mem_keys, Std.TreeMap.mem_iff_isSome_getElem?, h a, ← List.count_pos_iff]
  split
  · next hzero => simp [hzero]
  · next hpos => simp [Nat.pos_of_ne_zero hpos]

theorem Tallies.isEmpty_iff (h : t.Tallies as) : t.isEmpty = true ↔ as = [] := by
  rw [isEmpty, Std.TreeMap.isEmpty_iff_forall_not_mem, List.eq_nil_iff_forall_not_mem]
  simp only [← h.mem_toList, toList, Std.TreeMap.mem_keys]

end Tally

-- ════════════════════════════════════════════════════════════════════════
-- Notes that sound
-- ════════════════════════════════════════════════════════════════════════

instance : Std.TransCmp Midi.compareNotes :=
  inferInstanceAs (Std.TransCmp (compareLex (compareOn Prod.fst) (compareOn Prod.snd)))

instance : Std.LawfulEqCmp Midi.compareNotes where
  eq_of_compare := by
    rintro ⟨c, k⟩ ⟨c', k'⟩ h
    obtain ⟨hc, hk⟩ := Ordering.then_eq_eq.1 h
    have hc : compare c c' = .eq := hc
    have hk : compare k k' = .eq := hk
    rw [Std.LawfulEqCmp.eq_of_compare hc, Std.LawfulEqCmp.eq_of_compare hk]

namespace Midi.Sounding

/-- What sounds are these notes, each a channel and a key. -/
structure Holds (s : Sounding) (ns : List (UInt8 × UInt8)) : Prop where
  notes : s.notes.Tallies ns
  byChannel : s.byChannel.Tallies (ns.map Prod.fst)
  byKey : s.byKey.Tallies (ns.map Prod.snd)

variable {s : Sounding} {ns : List (UInt8 × UInt8)}

theorem holds_empty : Holds {} [] := ⟨Tally.tallies_empty, Tally.tallies_empty, Tally.tallies_empty⟩

theorem Holds.start (h : s.Holds ns) (c k : UInt8) : (s.start c k).Holds ((c, k) :: ns) :=
  ⟨h.notes.more (c, k), h.byChannel.more c, h.byKey.more k⟩

/-- A note that does not sound is not there to be taken out. -/
theorem Holds.stop (h : s.Holds ns) (c k : UInt8) : (s.stop c k).Holds (ns.erase (c, k)) := by
  rw [Sounding.stop, contains, h.notes.count]
  by_cases hmem : (c, k) ∈ ns
  · have hsplit := List.perm_cons_erase hmem
    have hchannels := (hsplit.map Prod.fst).erase c
    have hkeys := (hsplit.map Prod.snd).erase k
    rw [List.map_cons, List.erase_cons_head] at hchannels hkeys
    rw [if_pos (by simpa using hmem)]
    exact ⟨h.notes.less _, (h.byChannel.less c).of_perm hchannels, (h.byKey.less k).of_perm hkeys⟩
  · rw [if_neg (by simpa using hmem), List.erase_of_not_mem hmem]
    exact h

theorem Holds.isSilent_iff (h : s.Holds ns) : s.isSilent = true ↔ ns = [] :=
  h.notes.isEmpty_iff

theorem Holds.mem_keys (h : s.Holds ns) {k : UInt8} : k ∈ s.keys ↔ ∃ a ∈ ns, a.2 = k := by
  rw [keys, h.byKey.mem_toList, List.mem_map]

theorem Holds.mem_channels (h : s.Holds ns) {c : UInt8} : c ∈ s.channels ↔ ∃ a ∈ ns, a.1 = c := by
  rw [channels, h.byChannel.mem_toList, List.mem_map]

theorem ordered_keys (s : Sounding) : s.keys.Pairwise (· < ·) :=
  Std.TreeMap.ordered_keys.imp Std.compare_eq_lt.1

theorem ordered_channels (s : Sounding) : s.channels.Pairwise (· < ·) :=
  Std.TreeMap.ordered_keys.imp Std.compare_eq_lt.1

end Midi.Sounding

-- ════════════════════════════════════════════════════════════════════════
-- Changes
-- ════════════════════════════════════════════════════════════════════════

namespace NoteChange

/-- The note that a change starts or stops. -/
def note (c : NoteChange) : UInt8 × UInt8 := (c.channel, c.key)

/-- The notes that sound after a change. -/
def apply (notes : List (UInt8 × UInt8)) (c : NoteChange) : List (UInt8 × UInt8) :=
  if c.attack then c.note :: notes else notes.erase c.note

/-- Whether a change is an attack of a note. -/
def attacks (a : UInt8 × UInt8) (c : NoteChange) : Bool := c.attack && c.note = a

/-- Whether a change is a release of a note. -/
def releases (a : UInt8 × UInt8) (c : NoteChange) : Bool := !c.attack && c.note = a

theorem holds_foldl {s : Midi.Sounding} {notes : List (UInt8 × UInt8)} (h : s.Holds notes)
    (cs : List NoteChange) : (cs.foldl Chord.change s).Holds (cs.foldl apply notes) := by
  induction cs generalizing s notes with
  | nil => exact h
  | cons c cs ih =>
    refine ih ?_
    rw [Chord.change, apply]
    split
    · exact h.start c.channel c.key
    · exact h.stop c.channel c.key

/-- How often a note is there after a change. -/
theorem count_apply (notes : List (UInt8 × UInt8)) (c : NoteChange) (a : UInt8 × UInt8) :
    (apply notes c).count a =
      if c.attacks a then notes.count a + 1 else if c.releases a then notes.count a - 1
      else notes.count a := by
  rw [apply, attacks, releases]
  by_cases hnote : c.note = a
  · subst hnote
    cases c.attack
    · simp
    · simp
  · cases c.attack
    · simp [hnote, List.count_erase_of_ne (Ne.symm hnote)]
    · simp [hnote]

/-- A change does not both start and stop a note. -/
theorem releases_eq_false {c : NoteChange} {a : UInt8 × UInt8} (h : c.attacks a = true) :
    c.releases a = false := by
  rw [releases, (Bool.and_eq_true_iff.1 h).1]
  rfl

/-- The number of a note after one more change, and of its attacks and releases. -/
theorem count_concat (cs : List NoteChange) (c : NoteChange) (a : UInt8 × UInt8) :
    ((cs ++ [c]).foldl apply []).count a =
        (if c.attacks a then (cs.foldl apply []).count a + 1
          else if c.releases a then (cs.foldl apply []).count a - 1
          else (cs.foldl apply []).count a) ∧
      (cs ++ [c]).countP (attacks a) = cs.countP (attacks a) + (if c.attacks a then 1 else 0) ∧
      (cs ++ [c]).countP (releases a) = cs.countP (releases a) + if c.releases a then 1 else 0 := by
  refine ⟨?_, by simp [List.countP_append, List.countP_cons],
    by simp [List.countP_append, List.countP_cons]⟩
  rw [List.foldl_append, List.foldl_cons, List.foldl_nil, count_apply]

/-- After changes from silence no note is missing. -/
theorem le_sounding (cs : List NoteChange) (a : UInt8 × UInt8) :
    cs.countP (attacks a) ≤ (cs.foldl apply []).count a + cs.countP (releases a) := by
  induction cs using List.reverseRecOn with
  | nil => exact Nat.zero_le _
  | append_singleton cs c ih =>
    obtain ⟨hcount, hattacks, hreleases⟩ := count_concat cs c a
    rw [hcount, hattacks, hreleases]
    cases hattack : c.attacks a
    · cases c.releases a <;> simp only [Bool.false_eq_true, ↓reduceIte] <;> omega
    · simp only [releases_eq_false hattack, Bool.false_eq_true, ↓reduceIte]
      omega

/-- No note is there too often exactly if a release was never lost. -/
theorem sounding_iff (cs : List NoteChange) (a : UInt8 × UInt8) :
    (cs.foldl apply []).count a + cs.countP (releases a) = cs.countP (attacks a) ↔
      ∀ before, before <+: cs → before.countP (releases a) ≤ before.countP (attacks a) := by
  induction cs using List.reverseRecOn with
  | nil => simp
  | append_singleton cs c ih =>
    have hbefore : (∀ before, before <+: cs ++ [c] →
        before.countP (releases a) ≤ before.countP (attacks a)) ↔
          (cs ++ [c]).countP (releases a) ≤ (cs ++ [c]).countP (attacks a) ∧
            ∀ before, before <+: cs → before.countP (releases a) ≤ before.countP (attacks a) := by
      simp only [List.prefix_concat_iff, or_imp, forall_and, forall_eq]
    -- Once a note is there too often it stays so, and a lost release makes it so.
    have hle := le_sounding cs a
    obtain ⟨hcount, hattacks, hreleases⟩ := count_concat cs c a
    rw [hbefore, ← ih, hcount, hattacks, hreleases]
    cases hattack : c.attacks a
    · cases c.releases a <;> simp only [Bool.false_eq_true, ↓reduceIte] <;> omega
    · simp only [releases_eq_false hattack, Bool.false_eq_true, ↓reduceIte]
      omega

end NoteChange

end DegreeScore
