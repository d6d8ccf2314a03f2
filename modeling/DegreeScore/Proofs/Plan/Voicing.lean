import DegreeScore.Proofs.Plan.Invariants
import DegreeScore.Proofs.Plan.Programs

/-!
# What instruments are sent

Channels, keys, velocities and programs are bytes, and a message has room for less. The player stays
within that room: channels are those that are given out, keys are clamped, velocities come from the
table of dynamics, which has no zero, and programs from labels that are at most 127. So no event of
any performance is changed when it is written (`Tree.voiced_of_perform`).

## Main definitions

- `Midi.Event.Voiced` — a message on a melodic channel with its data in range, or a plain text
- `Context.Voiced` — a context under which notes are voiced
-/

namespace DegreeScore

/-- One of the sixteen channels, and not one of the two for percussion. -/
def Midi.IsMelodic (channel : UInt8) : Prop := channel < 16 ∧ channel ≠ 9 ∧ channel ≠ 10

/-- A note, a program change or a text as the player makes it. The start of a note is heard: its
velocity is not zero. -/
inductive Midi.Event.Voiced : Midi.Event → Prop
  | noteOn {channel key velocity : UInt8} (hchannel : IsMelodic channel) (hkey : key ≤ 127)
      (hvelocity : 8 ≤ velocity ∧ velocity ≤ 127) : Voiced (.channel channel (.noteOn key velocity))
  | noteOff {channel key : UInt8} (hchannel : IsMelodic channel) (hkey : key ≤ 127) :
      Voiced (.channel channel (.noteOff key 0))
  | program {channel p : UInt8} (hchannel : IsMelodic channel) (hp : p ≤ 127) :
      Voiced (.channel channel (.programChange p))
  | text {contents : Bytes} : Voiced (.info (.text 0x01 contents))

/-- A context with a melodic channel and the velocity of a dynamic. -/
structure Context.Voiced (c : Context) : Prop where
  channel : Midi.IsMelodic c.channel
  velocity : 8 ≤ c.velocity ∧ c.velocity ≤ 127

-- ════════════════════════════════════════════════════════════════════════
-- Where the bytes come from
-- ════════════════════════════════════════════════════════════════════════

namespace Channels

theorem isMelodic_number {ch : Fin 16} (h : ch ∈ playable) : Midi.IsMelodic (number ch) := by
  have hall : ∀ ch ∈ playable, number ch < 16 ∧ number ch ≠ 9 ∧ number ch ≠ 10 := by decide
  exact hall ch h

end Channels

theorem dynamic?_bounds {l : Bytes} {v : UInt8} (h : dynamic? l = some v) : 8 ≤ v ∧ v ≤ 127 := by
  have hall : ∀ x ∈ dynamics, 8 ≤ x.2 ∧ x.2 ≤ 127 := by simp [dynamics]
  obtain ⟨before, after, hsplit, -⟩ := List.lookup_eq_some_iff.1 h
  exact hall (l, v) (hsplit ▸ List.mem_append_right before List.mem_cons_self)

theorem program?_le {l : Bytes} {p : UInt8} (h : program? l = some p) : p ≤ 127 := by
  rw [program?] at h
  split at h
  · split at h
    · next n hn =>
      split at h
      · next hpos =>
        obtain rfl := Option.some.inj h
        have hle := (Text.Numeral.int?_bounds hn).2
        rw [UInt8.le_iff_toNat_le, UInt8.toNat_ofNat_of_lt' (by rw [UInt8.size]; omega)]
        show n.toNat ≤ 127
        omega
      · cases h
    · cases h
  · cases h

theorem pitch_le (degree accidental key : Int64) : pitch degree accidental key ≤ 127 := by
  rw [pitch]
  split
  · decide
  · next hlow =>
    split
    · decide
    · next hhigh =>
      rw [Int64.not_lt, Int64.le_iff_toInt_le] at hlow hhigh
      have h0 : (0 : Int64).toInt = 0 := rfl
      have h127 : (127 : Int64).toInt = 127 := rfl
      rw [UInt8.le_iff_toNat_le, UInt8.toNat_ofNat_of_lt' (by rw [UInt8.size]; omega)]
      show _ ≤ 127
      omega

-- ════════════════════════════════════════════════════════════════════════
-- Contexts
-- ════════════════════════════════════════════════════════════════════════

namespace Context.Voiced

variable {c : Context}

theorem initial : Context.initial.Voiced := ⟨⟨by decide, by decide, by decide⟩, by decide, by decide⟩

theorem withVelocity (h : c.Voiced) {l : Bytes} {v : UInt8} (hv : dynamic? l = some v) :
    Context.Voiced { c with velocity := v } :=
  ⟨h.channel, dynamic?_bounds hv⟩

theorem withChannel (h : c.Voiced) {ch : Fin 16} (hch : ch ∈ Channels.playable) :
    Context.Voiced { c with channel := Channels.number ch } :=
  ⟨Channels.isMelodic_number hch, h.velocity⟩

theorem withDynamics (h : c.Voiced) (ls : List Bytes) : (c.withDynamics ls).Voiced := by
  rw [Context.withDynamics]
  induction ls generalizing c with
  | nil => exact h
  | cons l rest ih =>
    rw [List.foldl_cons]
    split
    · next v hv => exact ih (h.withVelocity hv)
    · exact ih h

theorem override (h : c.Voiced) (o : Option Options) : (c.override o).Voiced := by
  cases o with
  | none => exact h
  | some o =>
    have hinner : Context.Voiced
        { c with duration := o.duration.getD c.duration, key := o.key.getD c.key } :=
      ⟨h.channel, h.velocity⟩
    exact hinner.withDynamics o.labels

end Context.Voiced

-- ════════════════════════════════════════════════════════════════════════
-- Stages
-- ════════════════════════════════════════════════════════════════════════

/-- What is kept while playing: all events so far are voiced, and sections are remembered with
contexts that are. -/
structure Stage.Voiced (s : Stage) : Prop where
  bound : ∀ (i : Nat) (c : Context), s.bound[i]? = some (some c) → c.Voiced
  events : ∀ e ∈ s.events, e.event.Voiced

namespace Stage.Voiced

variable {s u : Stage} {c d : Context} {t stop : Ratio}

theorem empty (sections : Nat) : (Stage.empty sections).Voiced := by
  refine ⟨fun i c hc => ?_, fun e he => ?_⟩
  · simp only [Stage.empty, Array.getElem?_replicate] at hc
    split at hc <;> cases hc
  · simp [Stage.empty] at he

theorem push (h : s.Voiced) (channels : Channels) {e : TimedEvent} (he : e.event.Voiced) :
    Stage.Voiced { s with channels, events := s.events.push e } := by
  refine ⟨h.bound, fun e' he' => ?_⟩
  rcases Array.mem_push.1 he' with he' | rfl
  · exact h.events e' he'
  · exact he

theorem label (h : s.Voiced) (hc : c.Voiced) {l : Bytes}
    (hrun : (Player.label c l t).run s = .ok (d, u)) : u.Voiced ∧ d.Voiced := by
  rcases Player.label_eq_ok hrun with ⟨v, hv, rfl, rfl⟩ | ⟨p, ch, -, -, hkept, rfl, rfl⟩ |
    ⟨p, ch, channels, -, hp, hfresh, rfl, rfl⟩ | ⟨-, -, rfl, rfl⟩
  · exact ⟨h, hc.withVelocity hv⟩
  · exact ⟨h, hc.withChannel (Channels.mem_playable_of_kept hkept)⟩
  · have hch := Channels.mem_playable_of_fresh hfresh
    exact ⟨h.push _ (.program (Channels.isMelodic_number hch) (program?_le hp)), hc.withChannel hch⟩
  · exact ⟨h.push _ .text, hc⟩

theorem note (h : s.Voiced) (hc : c.Voiced) {key : UInt8} (hkey : key ≤ 127)
    (hrun : (Player.note key c t).run s = .ok (stop, u)) : u.Voiced := by
  obtain ⟨-, rfl⟩ := Player.note_eq_ok hrun
  have hon := h.push s.channels (e := ⟨t, _⟩) (.noteOn hc.channel hkey hc.velocity)
  exact hon.push s.channels (.noteOff hc.channel hkey)

theorem contextFor (h : s.Voiced) (hc : c.Voiced) {i : Nat}
    (hrun : (Player.contextFor i c).run s = .ok (d, u)) : u.Voiced ∧ d.Voiced := by
  rcases Player.contextFor_eq_ok hrun with ⟨hfirst, rfl⟩ | ⟨-, rfl, rfl⟩
  · exact ⟨h, h.bound i d hfirst⟩
  · refine ⟨⟨fun j e he => ?_, h.events⟩, hc⟩
    rcases eq_or_of_getElem?_setIfInBounds he with rfl | he
    · exact hc
    · exact h.bound j e he

end Stage.Voiced

/-- The player stays voiced. -/
theorem player_voiced : player.Invariant Stage.Voiced Context.Voiced where
  override o hc := hc.override (some o)
  label _ _ hc _ _ _ hs hrun := hs.label hc hrun
  note _ _ _ hc _ _ _ hs hrun := ⟨hs.note hc (pitch_le ..) hrun, trivial⟩
  rest _ _ _ _ _ hs hrun := ⟨(Player.later_eq_ok hrun).2 ▸ hs, trivial⟩
  contextFor _ hc _ _ _ hs hrun := hs.contextFor hc hrun

theorem Tree.voiced_of_perform {tree : Tree} {p : Performance} (h : tree.perform = .ok p) :
    ∀ e ∈ p.events, e.event.Voiced := by
  obtain ⟨u, hu, hperm⟩ := player_voiced.perform_tree (.empty _) .initial h
  intro e he
  exact hu.events e (Array.mem_toList_iff.1 (hperm.mem_iff.1 he))

end DegreeScore
