import DegreeScore.Proofs.Sounding
import Mathlib.Data.List.SplitBy

/-!
# Changes tick by tick

The changes of a file are in order of time, with releases before attacks. So a release is lost exactly
if at some tick more have come than attacks before it (`NoteChange.forall_prefix_iff`). The chord of a
tick shows what sounds after all changes up to it, whichever tick they are of
(`Midi.File.chords_spec`).
-/

namespace DegreeScore

-- ════════════════════════════════════════════════════════════════════════
-- The order of changes
-- ════════════════════════════════════════════════════════════════════════

namespace NoteChange

theorem notAfter_iff {a b : NoteChange} :
    a.notAfter b = true ↔
      a.tick.toNat < b.tick.toNat ∨ a.tick.toNat = b.tick.toNat ∧ (a.attack → b.attack) := by
  rw [notAfter, Bool.or_eq_true, Bool.and_eq_true, decide_eq_true_iff, decide_eq_true_iff,
    UInt32.lt_iff_toNat_lt, UInt32.toNat_inj]
  cases a.attack <;> simp

theorem notAfter_trans (a b c : NoteChange) (hab : a.notAfter b = true) (hbc : b.notAfter c = true) :
    a.notAfter c = true := by
  rw [notAfter_iff] at hab hbc ⊢
  rcases hab with hab | ⟨hab, hattack⟩
  · exact .inl (by omega)
  · rcases hbc with hbc | ⟨hbc, hattack'⟩
    · exact .inl (by omega)
    · exact .inr ⟨by omega, fun h => hattack' (hattack h)⟩

theorem notAfter_total (a b : NoteChange) : (a.notAfter b || b.notAfter a) = true := by
  rw [Bool.or_eq_true, notAfter_iff, notAfter_iff]
  rcases Nat.lt_trichotomy a.tick.toNat b.tick.toNat with h | h | h
  · exact .inl (.inl h)
  · by_cases hb : b.attack = true
    · exact .inl (.inr ⟨h, fun _ => hb⟩)
    · exact .inr (.inr ⟨h.symm, fun h => absurd h hb⟩)
  · exact .inr (.inl h)

theorem ordered_ofFile (f : Midi.File) : (ofFile f).Pairwise fun a b => a.notAfter b = true :=
  List.pairwise_mergeSort notAfter_trans notAfter_total _

theorem tick_le {a b : NoteChange} (h : a.notAfter b = true) : a.tick.toNat ≤ b.tick.toNat := by
  rcases notAfter_iff.1 h with h | ⟨h, -⟩ <;> omega

/-- The last change is not earlier than any. -/
theorem tick_le_last {init : List NoteChange} {last : NoteChange}
    (h : (init ++ [last]).Pairwise fun a b => a.notAfter b = true) :
    ∀ c ∈ init ++ [last], c.tick ≤ last.tick := by
  intro c hc
  rw [UInt32.le_iff_toNat_le]
  rcases List.mem_append.1 hc with hc | hc
  · exact tick_le ((List.pairwise_append.1 h).2.2 c hc last (List.mem_singleton_self last))
  · exact List.mem_singleton.1 hc ▸ Nat.le_refl _

/-- Where what satisfies a test comes first, it is the front of the list. -/
theorem takeWhile_eq_filter {α : Type} {l : List α} {q : α → Bool}
    (h : l.Pairwise fun a b => q b = true → q a = true) : l.takeWhile q = l.filter q := by
  induction l with
  | nil => rfl
  | cons a l ih =>
    obtain ⟨ha, h⟩ := List.pairwise_cons.1 h
    by_cases hq : q a = true
    · rw [List.takeWhile_cons_of_pos hq, List.filter_cons_of_pos hq, ih h]
    · rw [List.takeWhile_cons_of_neg hq, List.filter_cons_of_neg hq, eq_comm, List.filter_eq_nil_iff]
      exact fun b hb hqb => hq (ha b hb hqb)

/-- The changes up to a tick come first. -/
theorem filter_tick_le_isPrefix {cs : List NoteChange}
    (h : cs.Pairwise fun a b => a.notAfter b = true) (T : UInt32) :
    (cs.filter fun c => c.tick ≤ T) <+: cs := by
  rw [← takeWhile_eq_filter (h.imp fun hab hb => ?_)]
  · exact List.takeWhile_prefix _
  · rw [decide_eq_true_iff, UInt32.le_iff_toNat_le] at hb ⊢
    exact (tick_le hab).trans hb

/-- The changes before the attacks of a tick. -/
def beforeAttacks (T : UInt32) (c : NoteChange) : Bool := c.tick < T || (c.tick = T && !c.attack)

theorem beforeAttacks_iff {T : UInt32} {c : NoteChange} :
    c.beforeAttacks T = true ↔
      c.tick.toNat < T.toNat ∨ c.tick.toNat = T.toNat ∧ ¬c.attack = true := by
  rw [beforeAttacks, Bool.or_eq_true, Bool.and_eq_true, decide_eq_true_iff, decide_eq_true_iff,
    UInt32.lt_iff_toNat_lt, UInt32.toNat_inj, Bool.not_eq_true', Bool.not_eq_true]

theorem beforeAttacks_of_notAfter {T : UInt32} {a b : NoteChange} (hab : a.notAfter b = true)
    (hb : b.beforeAttacks T = true) : a.beforeAttacks T = true := by
  rw [beforeAttacks_iff] at hb ⊢
  rcases notAfter_iff.1 hab with hab | ⟨hab, hattack⟩
  · exact .inl (by omega)
  · rw [hab]
    exact hb.imp_right fun ⟨heq, hb⟩ => ⟨heq, fun ha => hb (hattack ha)⟩

variable {cs : List NoteChange} {a : UInt8 × UInt8}

theorem releases_and_beforeAttacks (T : UInt32) (c : NoteChange) :
    (c.releases a && c.beforeAttacks T) = (c.releases a && c.tick ≤ T) := by
  rw [Bool.eq_iff_iff, Bool.and_eq_true, Bool.and_eq_true, beforeAttacks_iff, decide_eq_true_iff,
    UInt32.le_iff_toNat_le, and_congr_right_iff]
  intro hrelease
  have hattack : c.attack = false := by simpa using (Bool.and_eq_true_iff.1 hrelease).1
  rw [hattack]
  simp only [Bool.false_eq_true, not_false_eq_true, and_true]
  omega

theorem attacks_and_beforeAttacks (T : UInt32) (c : NoteChange) :
    (c.attacks a && c.beforeAttacks T) = (c.attacks a && c.tick < T) := by
  rw [Bool.eq_iff_iff, Bool.and_eq_true, Bool.and_eq_true, beforeAttacks_iff, decide_eq_true_iff,
    UInt32.lt_iff_toNat_lt, and_congr_right_iff]
  intro hattack
  simp only [(Bool.and_eq_true_iff.1 hattack).1, not_true_eq_false, and_false, or_false]

/-- No release is lost exactly if up to any tick there are at most as many releases of a note as there
are attacks before it. -/
theorem forall_prefix_iff (hordered : cs.Pairwise fun a b => a.notAfter b = true) :
    (∀ before, before <+: cs → before.countP (releases a) ≤ before.countP (attacks a)) ↔
      ∀ T : UInt32, cs.countP (fun c => c.releases a && c.tick ≤ T) ≤
        cs.countP fun c => c.attacks a && c.tick < T := by
  constructor
  · intro h T
    have hle := h _ (List.takeWhile_prefix (beforeAttacks T))
    rw [takeWhile_eq_filter (hordered.imp beforeAttacks_of_notAfter), List.countP_filter,
      List.countP_filter] at hle
    simpa only [releases_and_beforeAttacks, attacks_and_beforeAttacks] using hle
  · rintro h before ⟨after, rfl⟩
    rcases List.eq_nil_or_concat' before with rfl | ⟨init, last, rfl⟩
    · exact Nat.le_refl 0
    -- All that comes up to the last change is not later, and all that is earlier has come.
    obtain ⟨hinit, -, hafter⟩ := List.pairwise_append.1 hordered
    have hle := tick_le_last hinit
    have hge : ∀ c ∈ after, ¬c.tick < last.tick := by
      intro c hc
      rw [UInt32.lt_iff_toNat_lt, Nat.not_lt]
      exact tick_le (hafter last (by simp) c hc)
    calc (init ++ [last]).countP (releases a)
        = (init ++ [last]).countP fun c => c.releases a && c.tick ≤ last.tick := by
          refine List.countP_congr fun c hc => ?_
          simp [hle c hc]
      _ ≤ (init ++ [last] ++ after).countP fun c => c.releases a && c.tick ≤ last.tick :=
          (List.sublist_append_left _ after).countP_le
      _ ≤ (init ++ [last] ++ after).countP fun c => c.attacks a && c.tick < last.tick := h _
      _ = (init ++ [last]).countP fun c => c.attacks a && c.tick < last.tick := by
          have hnone : after.countP (fun c => c.attacks a && c.tick < last.tick) = 0 := by
            refine List.countP_eq_zero.2 fun c hc => ?_
            simp [hge c hc]
          refine List.countP_append.trans ?_
          rw [hnone, Nat.add_zero]
      _ ≤ (init ++ [last]).countP (attacks a) :=
          List.countP_mono_left fun c _ hc => (Bool.and_eq_true_iff.1 hc).1

end NoteChange

-- ════════════════════════════════════════════════════════════════════════
-- Changes tick by tick
-- ════════════════════════════════════════════════════════════════════════

/-- Changes cut into those of one tick each, the ticks going up. -/
structure NoteChange.ByTick (cs : List NoteChange) (gs : List (List NoteChange)) : Prop where
  flatten : gs.flatten = cs
  ne_nil : ∀ g ∈ gs, g ≠ []
  same : ∀ g ∈ gs, ∀ a ∈ g, ∀ b ∈ g, a.tick = b.tick
  apart : gs.Pairwise fun g h => ∀ a ∈ g, ∀ b ∈ h, a.tick < b.tick

namespace NoteChange

theorem same_of_isChain {g : List NoteChange}
    (h : g.IsChain fun a b => decide (a.tick = b.tick) = true) : ∀ a ∈ g, ∀ b ∈ g, a.tick = b.tick := by
  induction g with
  | nil => simp
  | cons c g ih =>
    have hhead : ∀ b ∈ g, c.tick = b.tick := by
      intro b hb
      cases g with
      | nil => cases hb
      | cons d g =>
        obtain ⟨hcd, hrest⟩ := List.isChain_cons_cons.1 h
        rw [of_decide_eq_true hcd]
        exact ih hrest d List.mem_cons_self b hb
    have hrest := ih h.tail
    intro a ha b hb
    rcases List.mem_cons.1 ha with rfl | hag
    · rcases List.mem_cons.1 hb with rfl | hbg
      · rfl
      · exact hhead b hbg
    · rcases List.mem_cons.1 hb with rfl | hbg
      · exact (hhead a hag).symm
      · exact hrest a hag b hbg

theorem apart_of_isChain {gs : List (List NoteChange)}
    (hsame : ∀ g ∈ gs, ∀ a ∈ g, ∀ b ∈ g, a.tick = b.tick)
    (hordered : gs.Pairwise fun g h => ∀ a ∈ g, ∀ b ∈ h, a.notAfter b = true)
    (hchain : gs.IsChain fun g h => ∃ (hg : g ≠ []) (hh : h ≠ []),
      decide ((g.getLast hg).tick = (h.head hh).tick) = false) :
    gs.Pairwise fun g h => ∀ a ∈ g, ∀ b ∈ h, a.tick < b.tick := by
  induction gs with
  | nil => exact .nil
  | cons g gs ih =>
    obtain ⟨hg, hsame⟩ := List.forall_mem_cons.1 hsame
    obtain ⟨hbefore, hordered⟩ := List.pairwise_cons.1 hordered
    refine List.pairwise_cons.2 ⟨fun h hh a ha b hb => ?_, ih hsame hordered hchain.tail⟩
    cases gs with
    | nil => cases hh
    | cons h' gs =>
      -- The next group begins at another tick, and it is the first of those after.
      obtain ⟨⟨hne, hne', hcut⟩, -⟩ := List.isChain_cons_cons.1 hchain
      have hnext := hbefore h' List.mem_cons_self a ha _ (List.head_mem hne')
      have hlast := hg a ha _ (List.getLast_mem hne)
      have hle : (h'.head hne').tick.toNat ≤ b.tick.toNat := by
        rcases List.mem_cons.1 hh with rfl | hh
        · rw [hsame h List.mem_cons_self _ (List.head_mem hne') b hb]
        · exact tick_le (List.rel_of_pairwise_cons hordered hh _ (List.head_mem hne') b hb)
      have hcut := of_decide_eq_false hcut
      rw [← hlast, ← UInt32.toNat_inj] at hcut
      rw [UInt32.lt_iff_toNat_lt]
      have := tick_le hnext
      omega

theorem byTick_splitBy {cs : List NoteChange}
    (hordered : cs.Pairwise fun a b => a.notAfter b = true) :
    ByTick cs (cs.splitBy fun a b => a.tick = b.tick) := by
  have hflatten := List.flatten_splitBy (fun a b : NoteChange => a.tick = b.tick) cs
  have hsame : ∀ g ∈ cs.splitBy fun a b => a.tick = b.tick, ∀ a ∈ g, ∀ b ∈ g, a.tick = b.tick :=
    fun g hg => same_of_isChain (List.isChain_of_mem_splitBy hg)
  refine ⟨hflatten, fun g hg hnil => ?_, hsame, ?_⟩
  · exact List.nil_notMem_splitBy (fun a b : NoteChange => a.tick = b.tick) cs (hnil ▸ hg)
  · rw [← hflatten] at hordered
    exact apart_of_isChain hsame (List.pairwise_flatten.1 hordered).2
      (List.isChain_getLast_head_splitBy (fun a b : NoteChange => a.tick = b.tick) cs)

end NoteChange

-- ════════════════════════════════════════════════════════════════════════
-- Chords
-- ════════════════════════════════════════════════════════════════════════

namespace Chord

/-- The chord after changes, of which `g` are those of the last tick. -/
def ofGroup? (done g : List NoteChange) : Option Chord :=
  match g with
  | [] => none
  | c :: _ =>
    let s := (done ++ g).foldl change {}
    if s.isSilent then none else some ⟨c.tick, s.keys, s.channels, g.any fun c => c.attack⟩

/-- The chords that the changes of some ticks lead to after others. -/
def ofGroups (done : List NoteChange) : List (List NoteChange) → List Chord
  | [] => []
  | g :: gs => (ofGroup? done g).toList ++ ofGroups (done ++ g) gs

theorem foldl_advance (gs : List (List NoteChange)) (done : List NoteChange) (chords : Array Chord) :
    (gs.foldl advance (done.foldl change {}, chords)).2.toList =
      chords.toList ++ ofGroups done gs := by
  induction gs generalizing done chords with
  | nil => simp [ofGroups]
  | cons g gs ih =>
    have hadvance : advance (done.foldl change {}, chords) g =
        ((done ++ g).foldl change {}, chords ++ (ofGroup? done g).toList) := by
      rw [advance.eq_def, ofGroup?.eq_def]
      cases g with
      | nil => simp
      | cons c g =>
        rw [List.foldl_append]
        dsimp only
        split <;> simp
    rw [List.foldl_cons, hadvance, ih, ofGroups]
    simp

theorem mem_ofGroups_iff {c : Chord} {gs : List (List NoteChange)} {done : List NoteChange} :
    c ∈ ofGroups done gs ↔
      ∃ before g after, gs = before ++ g :: after ∧ ofGroup? (done ++ before.flatten) g = some c := by
  induction gs generalizing done with
  | nil => simp [ofGroups]
  | cons g gs ih =>
    rw [ofGroups, List.mem_append, ih, Option.mem_toList]
    constructor
    · rintro (h | ⟨before, g', after, rfl, h⟩)
      · exact ⟨[], g, gs, rfl, by simpa using h⟩
      · exact ⟨g :: before, g', after, rfl, by simpa using h⟩
    · rintro ⟨before, g', after, hsplit, h⟩
      cases before with
      | nil =>
        obtain ⟨rfl, rfl⟩ := List.cons.inj hsplit
        exact .inl (by simpa using h)
      | cons _ before =>
        obtain ⟨rfl, rfl⟩ := List.cons.inj hsplit
        exact .inr ⟨before, g', after, rfl, by simpa using h⟩

theorem ofGroup?_eq_some {c : Chord} {done g : List NoteChange} (h : ofGroup? done g = some c) :
    (∃ x ∈ g, x.tick = c.tick) ∧ ((done ++ g).foldl change {}).isSilent = false ∧
      c.keys = ((done ++ g).foldl change {}).keys ∧
      c.channels = ((done ++ g).foldl change {}).channels := by
  rw [ofGroup?.eq_def] at h
  cases g with
  | nil => cases h
  | cons x g =>
    dsimp only at h
    split at h
    · cases h
    · next hsilent =>
      obtain rfl := Option.some.inj h
      exact ⟨⟨x, List.mem_cons_self, rfl⟩, Bool.eq_false_iff.2 hsilent, rfl, rfl⟩

theorem ordered_ofGroups {gs : List (List NoteChange)} (done : List NoteChange)
    (h : gs.Pairwise fun g h => ∀ a ∈ g, ∀ b ∈ h, a.tick < b.tick) :
    (ofGroups done gs).Pairwise fun c d => c.tick < d.tick := by
  induction gs generalizing done with
  | nil => exact .nil
  | cons g gs ih =>
    obtain ⟨hg, h⟩ := List.pairwise_cons.1 h
    rw [ofGroups]
    cases hgroup : ofGroup? done g with
    | none => exact ih _ h
    | some c =>
      obtain ⟨⟨x, hx, hc⟩, -⟩ := ofGroup?_eq_some hgroup
      refine List.pairwise_cons.2 ⟨fun d hd => ?_, ih _ h⟩
      obtain ⟨before, g', after, rfl, hgroup'⟩ := mem_ofGroups_iff.1 hd
      obtain ⟨⟨y, hy, hd⟩, -⟩ := ofGroup?_eq_some hgroup'
      rw [← hc, ← hd]
      exact hg g' (by simp) x hx y hy

end Chord

namespace NoteChange.ByTick

variable {cs : List NoteChange} {gs before after : List (List NoteChange)} {g : List NoteChange}
  {x : NoteChange}

theorem lt_of_mem_before (h : ByTick cs gs) (hsplit : gs = before ++ g :: after) (hx : x ∈ g) :
    ∀ c ∈ before.flatten, c.tick < x.tick := by
  intro c hc
  obtain ⟨g', hg', hc⟩ := List.mem_flatten.1 hc
  obtain ⟨-, -, hbefore⟩ := List.pairwise_append.1 (hsplit ▸ h.apart)
  exact hbefore g' hg' g List.mem_cons_self c hc x hx

theorem lt_of_mem_after (h : ByTick cs gs) (hsplit : gs = before ++ g :: after) (hx : x ∈ g) :
    ∀ c ∈ after.flatten, x.tick < c.tick := by
  intro c hc
  obtain ⟨g', hg', hc⟩ := List.mem_flatten.1 hc
  obtain ⟨-, hrest, -⟩ := List.pairwise_append.1 (hsplit ▸ h.apart)
  exact List.rel_of_pairwise_cons hrest hg' x hx c hc

/-- The changes of the group of a change are those of its tick. -/
theorem mem_group_iff (h : ByTick cs gs) (hsplit : gs = before ++ g :: after) (hx : x ∈ g)
    {c : NoteChange} : c ∈ g ↔ c ∈ cs ∧ c.tick = x.tick := by
  rw [← h.flatten, hsplit, List.flatten_append, List.flatten_cons]
  constructor
  · intro hc
    exact ⟨by simp [hc], h.same g (by simp [hsplit]) c hc x hx⟩
  · rintro ⟨hc, htick⟩
    rcases List.mem_append.1 hc with hc | hc
    · exact absurd (htick ▸ h.lt_of_mem_before hsplit hx c hc) (UInt32.lt_irrefl _)
    · rcases List.mem_append.1 hc with hc | hc
      · exact hc
      · exact absurd (htick ▸ h.lt_of_mem_after hsplit hx c hc) (UInt32.lt_irrefl _)

/-- The changes up to the last of a tick are those that are not later. -/
theorem upTo_eq (h : ByTick cs gs) (hsplit : gs = before ++ g :: after) (hx : x ∈ g) :
    before.flatten ++ g = cs.filter fun c => c.tick ≤ x.tick := by
  have hlow : ∀ c ∈ before.flatten ++ g, decide (c.tick ≤ x.tick) = true := by
    intro c hc
    rw [decide_eq_true_iff, UInt32.le_iff_toNat_le]
    rcases List.mem_append.1 hc with hc | hc
    · exact (UInt32.lt_iff_toNat_lt.1 (h.lt_of_mem_before hsplit hx c hc)).le
    · rw [((h.mem_group_iff hsplit hx).1 hc).2]
  have hhigh : ∀ c ∈ after.flatten, ¬decide (c.tick ≤ x.tick) = true := by
    intro c hc
    rw [decide_eq_true_iff, UInt32.le_iff_toNat_le, not_le]
    exact UInt32.lt_iff_toNat_lt.1 (h.lt_of_mem_after hsplit hx c hc)
  rw [← h.flatten, hsplit, List.flatten_append, List.flatten_cons, ← List.append_assoc,
    List.filter_append, List.filter_eq_self.2 hlow, List.filter_eq_nil_iff.2 hhigh, List.append_nil]

end NoteChange.ByTick

/-- What sounds after the changes up to a tick. -/
def NoteChange.soundingAt (cs : List NoteChange) (T : UInt32) : Midi.Sounding :=
  (cs.filter fun c => c.tick ≤ T).foldl Chord.change {}

/-- The chord of a tick, unless nothing sounds after it. -/
def Chord.at? (cs : List NoteChange) (T : UInt32) : Option Chord :=
  let s := NoteChange.soundingAt cs T
  if s.isSilent then none
  else some ⟨T, s.keys, s.channels, cs.any fun c => c.tick = T && c.attack⟩

theorem Chord.at?_eq_some_iff {cs : List NoteChange} {T : UInt32} {c : Chord} :
    Chord.at? cs T = some c ↔ (NoteChange.soundingAt cs T).isSilent = false ∧
      c = ⟨T, (NoteChange.soundingAt cs T).keys, (NoteChange.soundingAt cs T).channels,
        cs.any fun c => c.tick = T && c.attack⟩ := by
  rw [Chord.at?]
  cases (NoteChange.soundingAt cs T).isSilent <;> simp [eq_comm]

/-- A group of changes leads to the chord of its tick. -/
theorem NoteChange.ByTick.ofGroup?_eq {cs : List NoteChange}
    {gs before after : List (List NoteChange)} {g : List NoteChange} {x : NoteChange}
    (h : ByTick cs gs) (hsplit : gs = before ++ g :: after) (hx : x ∈ g) :
    Chord.ofGroup? before.flatten g = Chord.at? cs x.tick := by
  have hany : (g.any fun c => c.attack) = cs.any fun c => c.tick = x.tick && c.attack := by
    rw [Bool.eq_iff_iff, List.any_eq_true, List.any_eq_true]
    simp only [h.mem_group_iff hsplit hx, Bool.and_eq_true, decide_eq_true_iff, and_assoc]
  cases g with
  | nil => cases hx
  | cons y g =>
    have htick : y.tick = x.tick := ((h.mem_group_iff hsplit hx).1 List.mem_cons_self).2
    rw [Chord.ofGroup?.eq_def, Chord.at?, NoteChange.soundingAt, ← h.upTo_eq hsplit hx]
    dsimp only
    rw [hany, htick]

namespace Midi.File

variable (f : File)

theorem chords_eq_ofGroups : f.chords = Chord.ofGroups []
    ((NoteChange.ofFile f).splitBy fun a b => a.tick = b.tick) := Chord.foldl_advance _ [] #[]

/-- The chords of a file are those of the ticks of its changes. -/
theorem mem_chords_iff {c : Chord} :
    c ∈ f.chords ↔
      ∃ x ∈ NoteChange.ofFile f, Chord.at? (NoteChange.ofFile f) x.tick = some c := by
  have hgroups := NoteChange.byTick_splitBy (NoteChange.ordered_ofFile f)
  rw [chords_eq_ofGroups, Chord.mem_ofGroups_iff]
  constructor
  · rintro ⟨before, g, after, hsplit, hgroup⟩
    have hg : g ∈ (NoteChange.ofFile f).splitBy fun a b => a.tick = b.tick := by simp [hsplit]
    obtain ⟨x, hx⟩ := List.exists_mem_of_ne_nil g (hgroups.ne_nil g hg)
    rw [List.nil_append, hgroups.ofGroup?_eq hsplit hx] at hgroup
    exact ⟨x, ((hgroups.mem_group_iff hsplit hx).1 hx).1, hgroup⟩
  · rintro ⟨x, hx, hchord⟩
    obtain ⟨g, hg, hxg⟩ := List.mem_flatten.1 (hgroups.flatten.symm ▸ hx)
    obtain ⟨before, after, hsplit⟩ := List.append_of_mem hg
    refine ⟨before, g, after, hsplit, ?_⟩
    rw [List.nil_append, hgroups.ofGroup?_eq hsplit hxg, hchord]

theorem ordered_chords : f.chords.Pairwise fun c d => c.tick < d.tick := by
  rw [chords_eq_ofGroups]
  exact Chord.ordered_ofGroups [] (NoteChange.byTick_splitBy (NoteChange.ordered_ofFile f)).apart

/-- The chords of a file stand at ticks of changes, in order. At each they show what sounds after the
changes up to it, and none is missing unless nothing sounds. -/
theorem chords_spec :
    (∀ c ∈ f.chords, (NoteChange.soundingAt (NoteChange.ofFile f) c.tick).isSilent = false ∧
        c.keys = (NoteChange.soundingAt (NoteChange.ofFile f) c.tick).keys ∧
        c.channels = (NoteChange.soundingAt (NoteChange.ofFile f) c.tick).channels) ∧
      (∀ x ∈ NoteChange.ofFile f,
        (NoteChange.soundingAt (NoteChange.ofFile f) x.tick).isSilent = false →
          ∃ c ∈ f.chords, c.tick = x.tick) ∧
      f.chords.Pairwise fun c d => c.tick < d.tick := by
  refine ⟨fun c hc => ?_, fun x hx hsilent => ?_, f.ordered_chords⟩
  · obtain ⟨x, -, hchord⟩ := f.mem_chords_iff.1 hc
    obtain ⟨hsilent, rfl⟩ := Chord.at?_eq_some_iff.1 hchord
    exact ⟨hsilent, rfl, rfl⟩
  · exact ⟨_, f.mem_chords_iff.2 ⟨x, hx, Chord.at?_eq_some_iff.2 ⟨hsilent, rfl⟩⟩, rfl⟩

end Midi.File

end DegreeScore
