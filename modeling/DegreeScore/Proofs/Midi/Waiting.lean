import DegreeScore.Proofs.Midi.Layout
import Mathlib.Algebra.Order.BigOperators.Group.List

/-!
# Time that is passed over

Events that are passed over take time, and the reader adds it to the delta time of the next event that
is heard. It adds up in 32 bits, while each delta time has 28. So the delta time of an event is the time
since the event heard before it exactly if that time has 32 bits (`Layout.waits_exactly_iff`): with up
to fifteen events passed over it always is, and with sixteen it may not be. Every track that is read has
a layout (`Reader.only_track`).
-/

namespace DegreeScore.Midi

/-- The ticks that have been waited for the next event when places have passed: those since the last
event that is heard. -/
def waitedAfter (waited : Nat) : List Place → Nat
  | [] => waited
  | p :: places => waitedAfter (if p.item.event?.isSome then 0 else waited + p.ticks) places

theorem heard_append (waited : Nat) (before after : List Place) :
    heard waited (before ++ after) = heard waited before ++ heard (waitedAfter waited before) after := by
  induction before generalizing waited with
  | nil => rfl
  | cons p before ih =>
    rw [List.cons_append, heard, heard, waitedAfter]
    cases p.item.event? with
    | none => exact ih _
    | some e => exact congrArg _ (ih 0)

theorem waitedAfter_concat_heard {p : Place} (h : p.item.event?.isSome) (waited : Nat)
    (before : List Place) : waitedAfter waited (before ++ [p]) = 0 := by
  induction before generalizing waited with
  | nil => exact if_pos h
  | cons q before ih => exact ih _

/-- Nothing is waited where the last place is heard. -/
theorem waitedAfter_eq_zero {before : List Place}
    (h : ∀ p ∈ before.getLast?, p.item.event?.isSome) : waitedAfter 0 before = 0 := by
  rcases List.eq_nil_or_concat' before with rfl | ⟨init, p, rfl⟩
  · rfl
  · exact waitedAfter_concat_heard (h p List.getLast?_concat) 0 init

variable {skipped : List Place}

/-- Nothing is heard of places that are passed over. -/
theorem heard_skipped (h : ∀ p ∈ skipped, p.item.event? = none) (waited : Nat) :
    heard waited skipped = [] := by
  induction skipped generalizing waited with
  | nil => rfl
  | cons p skipped ih =>
    obtain ⟨hp, h⟩ := List.forall_mem_cons.1 h
    rw [heard, hp]
    exact ih h _

theorem waitedAfter_skipped (h : ∀ p ∈ skipped, p.item.event? = none) (waited : Nat) :
    waitedAfter waited skipped = waited + (skipped.map (·.ticks)).sum := by
  induction skipped generalizing waited with
  | nil => rfl
  | cons p skipped ih =>
    obtain ⟨hp, h⟩ := List.forall_mem_cons.1 h
    rw [waitedAfter, hp, List.map_cons, List.sum_cons, ← Nat.add_assoc]
    exact ih h _

/-- The delta times that can be written have 28 bits. -/
theorem Layout.ticks_lt {before : Option UInt8} {places : List Place} {body : Bytes}
    (h : Layout before places body) : ∀ p ∈ places, p.ticks < 2 ^ 28 := by
  induction h with
  | nil => exact List.forall_mem_nil _
  | cons hdelta _ _ ih => exact List.forall_mem_cons.2 ⟨hdelta.lt, ih⟩

/-- A track in which some events are passed over after one that is heard, or from the beginning on, is
read with the next event in its place. Its delta time is the sum of theirs and its own exactly if the
sum has 32 bits. It has if there are at most fifteen of them. -/
theorem Layout.waits_exactly_iff {before skipped after : List Place} {p : Place} {e : Event}
    {body : Bytes} (h : Layout none (before ++ (skipped ++ p :: after)) body)
    (hlength : body.length < 2 ^ 32) (hbefore : ∀ q ∈ before.getLast?, q.item.event?.isSome)
    (hskipped : ∀ q ∈ skipped, q.item.event? = none) (hp : p.item.event? = some e) :
    ∃ delta : UInt32,
      Reader.Reads Reader.track (Track.chunk body) (Track.ofHeard (heard 0 before) ++
        ⟨delta, some e⟩ :: Track.ofHeard (heard 0 after)) ∧
      (delta.toNat = (skipped.map (·.ticks)).sum + p.ticks ↔
        (skipped.map (·.ticks)).sum + p.ticks < 2 ^ 32) ∧
      (skipped.length ≤ 15 → delta.toNat = (skipped.map (·.ticks)).sum + p.ticks) := by
  have hheard : heard 0 (before ++ (skipped ++ p :: after)) = heard 0 before ++
      ((skipped.map (·.ticks)).sum + p.ticks, e) :: heard 0 after := by
    rw [heard_append, heard_append, waitedAfter_eq_zero hbefore, heard_skipped hskipped,
      waitedAfter_skipped hskipped, List.nil_append, Nat.zero_add, heard, hp]
  have hread := Reader.reads_chunk h hlength
  rw [hheard, Track.ofHeard, List.map_append, List.map_cons] at hread
  have hticks : ∀ q ∈ skipped ++ [p], q.ticks < 2 ^ 28 := fun q hq =>
    h.ticks_lt q (List.mem_append_right _ (by simpa using List.mem_append_left after hq))
  obtain ⟨hskippedTicks, hpTicks⟩ := List.forall_mem_append.1 hticks
  have hsum : (skipped.map (·.ticks)).sum ≤ skipped.length * (2 ^ 28 - 1) := by
    have hle := List.sum_le_card_nsmul (skipped.map (·.ticks)) (2 ^ 28 - 1) fun n hn => by
      obtain ⟨q, hq, rfl⟩ := List.mem_map.1 hn
      exact Nat.le_sub_one_of_lt (hskippedTicks q hq)
    rwa [List.length_map, Nat.nsmul_eq_mul] at hle
  have hlast := hpTicks p (List.mem_singleton_self p)
  refine ⟨_, hread, ?_, ?_⟩
  all_goals rw [UInt32.toNat_ofNat']
  · omega
  · intro hfew
    omega

/-- Meta events of an unknown type, each after the longest time that can be written. -/
def silences (n : Nat) : List Place := List.replicate n ⟨2 ^ 28 - 1, .unknown 0x60 []⟩

/-- The bytes that they are written as. -/
def silenceBytes (n : Nat) : Bytes :=
  (List.replicate n ([0xff, 0xff, 0xff, 0x7f] ++ [0xff, 0x60, 0])).flatten

theorem layout_silences {places : List Place} {body : Bytes} (h : Layout none places body)
    (n : Nat) : Layout none (silences n ++ places) (silenceBytes n ++ body) := by
  induction n with
  | zero => exact h
  | succ n ih =>
    have hdelta : Quantity.Spells ([0xff, 0xff, 0xff] ++ [0x7f]) (2 ^ 28 - 1) :=
      .intro (by decide) (by simp) (by decide)
    have hlength : Quantity.Spells ([] ++ [0]) ([] : Bytes).length :=
      .intro (by decide) (by simp) (by decide)
    have hunknown : Item.Written none (.unknown 0x60 []) (0xff :: 0x60 :: ([] ++ [0] ++ [])) :=
      .unknown rfl hlength
    exact .cons (p := ⟨2 ^ 28 - 1, .unknown 0x60 []⟩) hdelta hunknown ih

/-- A note so many ticks after sixteen silences. -/
def lateNote (ticks : UInt8) : List Place :=
  silences 16 ++ [⟨ticks.toNat, .known (.channel 0 (.noteOn 60 64))⟩]

/-- The bytes that it is written as. -/
def lateNoteBytes (ticks : UInt8) : Bytes := silenceBytes 16 ++ [ticks, 0x90, 60, 64]

theorem layout_lateNote {ticks : UInt8} (h : ticks.toNat < 128) :
    Layout none (lateNote ticks) (lateNoteBytes ticks) := by
  have hdelta : Quantity.Spells ([] ++ [ticks]) ticks.toNat := by
    have hspells : Quantity.Spells ([] ++ [ticks]) _ := .intro (by decide) (by simp) h
    rwa [Quantity.value_eq_foldl, List.nil_append, List.foldl_cons, List.foldl_nil, Nat.zero_mul,
      Nat.zero_add, Nat.mod_eq_of_lt h] at hspells
  have hnote : Item.Written none (.known (.channel 0 (.noteOn 60 64))) [0x90, 60, 64] :=
    .message (by decide) rfl
  exact layout_silences (.cons (p := ⟨ticks.toNat, .known (.channel 0 (.noteOn 60 64))⟩) hdelta hnote
    .nil) 16

/-- The longest time that sixteen silences can take without being lost. -/
theorem Layout.waits_exactly_lateNote :
    Layout none ([] ++ (silences 16 ++ [⟨15, .known (.channel 0 (.noteOn 60 64))⟩]))
        (lateNoteBytes 15) ∧
      (lateNoteBytes 15).length < 2 ^ 32 ∧
      Reader.Reads Reader.track (Track.chunk (lateNoteBytes 15))
        [⟨0xffffffff, some (.channel 0 (.noteOn 60 64))⟩] := by
  have h : Layout none ([] ++ (silences 16 ++ [⟨15, .known (.channel 0 (.noteOn 60 64))⟩]))
      (lateNoteBytes 15) := layout_lateNote (show (15 : UInt8).toNat < 128 by decide)
  have hlength : (lateNoteBytes 15).length < 2 ^ 32 := by decide +kernel
  have hskipped : ∀ q ∈ silences 16, q.item.event? = none :=
    fun q hq => List.eq_of_mem_replicate hq ▸ rfl
  obtain ⟨delta, hread, hdelta, -⟩ := Layout.waits_exactly_iff h hlength (by simp) hskipped rfl
  have hvalue : delta.toNat = (0xffffffff : UInt32).toNat := hdelta.2 (by decide +kernel)
  obtain rfl : delta = 0xffffffff := UInt32.toNat_inj.1 hvalue
  exact ⟨h, hlength, hread⟩

/-- With one tick more all time is lost: the note comes at the beginning of the track. -/
theorem Layout.not_waits_exactly_lateNote :
    Layout none (lateNote 16) (lateNoteBytes 16) ∧ (lateNoteBytes 16).length < 2 ^ 32 ∧
      ((lateNote 16).map (·.ticks)).sum = 2 ^ 32 ∧
      File.decode (File.header 0 1 96 ++ Track.chunk (lateNoteBytes 16)) =
        .ok { format := 0, timing := some (.metric 96),
              tracks := [[⟨0, some (.channel 0 (.noteOn 60 64))⟩]] } := by
  refine ⟨layout_lateNote (by decide), by decide +kernel, by decide +kernel, ?_⟩
  decide +kernel

end DegreeScore.Midi
