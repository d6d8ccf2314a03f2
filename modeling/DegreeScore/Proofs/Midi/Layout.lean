import DegreeScore.Proofs.Midi.RoundTrip
import Mathlib.Data.Nat.Digits.Defs

/-!
# The ways to write a track

What a track says does not fix its bytes. A quantity may begin with groups of zeros, a message may
leave out a status byte that repeats the one before it, and between the events that are known there
may be others that are passed over. `Layout` relates the places of a track to all the bytes that
they may be written as, and `heard` gives the events that a listener who passes over the unknown
ones is left with, each after all the time since the one before it.

The reader takes every layout (`Reader.run_trackEvents_layout`), so that neither omitted status
bytes nor unknown events change what is heard.

## Main definitions

- `Quantity.Spells` — these bytes are a quantity worth so much
- `Item.Written` — these bytes are an item, after a message with some status byte
- `Layout` — these bytes are the places of a track in turn
- `heard` — the known events with the time that each took
-/

namespace DegreeScore.Midi

-- ════════════════════════════════════════════════════════════════════════
-- Quantities
-- ════════════════════════════════════════════════════════════════════════

namespace Quantity

/-- The number whose digits to the base 128 are the low seven bits of the bytes. -/
def value (bytes : Bytes) : Nat := Nat.ofDigits 128 (bytes.map fun b => b.toNat % 128).reverse

/-- The bytes are a quantity worth `n`: up to three bytes with the high bit set and one without. -/
inductive Spells : Bytes → Nat → Prop
  | intro {marked : Bytes} {last : UInt8} (hlength : marked.length ≤ 3)
      (hmarked : ∀ b ∈ marked, 128 ≤ b.toNat) (hlast : last.toNat < 128) :
      Spells (marked ++ [last]) (value (marked ++ [last]))

/-- Reading digit by digit gives the value. -/
theorem value_eq_foldl (bytes : Bytes) :
    value bytes = bytes.foldl (fun n b => n * 128 + b.toNat % 128) 0 := by
  have hstep : (fun (n : Nat) (b : UInt8) => n * 128 + b.toNat % 128) =
      fun n b => b.toNat % 128 + 128 * n := by
    funext n b
    omega
  rw [value, Nat.ofDigits_eq_foldr, List.foldr_reverse, List.foldl_map, hstep]
  rfl

theorem value_lt (bytes : Bytes) : value bytes < 128 ^ bytes.length := by
  have hdigits : ∀ d ∈ (bytes.map fun b => b.toNat % 128).reverse, d < 128 := by
    intro d hd
    obtain ⟨b, -, rfl⟩ := List.mem_map.1 (List.mem_reverse.1 hd)
    exact Nat.mod_lt _ (by decide)
  have h := Nat.ofDigits_lt_base_pow_length (by decide) hdigits
  rwa [List.length_reverse, List.length_map] at h

namespace Spells

variable {bytes : Bytes} {n : Nat}

theorem eq_value (h : Spells bytes n) : n = value bytes := by
  cases h
  rfl

theorem length_pos (h : Spells bytes n) : 0 < bytes.length := by
  cases h
  simp

theorem length_le (h : Spells bytes n) : bytes.length ≤ 4 := by
  cases h with
  | intro hlength =>
    rw [List.length_append]
    exact Nat.succ_le_succ hlength

theorem lt (h : Spells bytes n) : n < 2 ^ 28 :=
  calc n
    _ = value bytes := h.eq_value
    _ < 128 ^ bytes.length := value_lt bytes
    _ ≤ 128 ^ 4 := Nat.pow_le_pow_right (by decide) h.length_le

end Spells

end Quantity

-- ════════════════════════════════════════════════════════════════════════
-- Items
-- ════════════════════════════════════════════════════════════════════════

/-- Whether meta events of this type have a meaning. -/
def MetaEvent.isKnownKind (kind : UInt8) : Bool :=
  isTextKind kind || [0x00, 0x20, 0x2f, 0x51, 0x54, 0x58, 0x59, 0x7f].contains kind

/-- What stands at a place of a track. -/
inductive Item
  | known (event : Event)
  /-- A meta event of a type without a meaning. -/
  | unknown (kind : UInt8) (payload : Bytes)
  /-- System-exclusive data, or a part of them. -/
  | exclusive (status : UInt8) (payload : Bytes)
deriving Repr, DecidableEq

namespace Item

/-- The event that is heard. -/
def event? : Item → Option Event
  | .known e => some e
  | .unknown .. | .exclusive .. => none

/-- The status byte that a message right after this item may leave out. -/
def status? : Item → Option UInt8
  | .known (.channel c m) => some (m.status c)
  | .known (.info _) | .unknown .. | .exclusive .. => none

/-- The item may be written as these bytes where `before` is the status byte that may be left out.
Fields are in range, and lengths of payloads are written as quantities of any form. -/
inductive Written (before : Option UInt8) : Item → Bytes → Prop
  | message {c : UInt8} {m : ChannelMessage} {data : Bytes} (hrange : (Event.channel c m).InRange)
      (hdata : m.data = .ok data) : Written before (.known (.channel c m)) (m.status c :: data)
  | repeated {c : UInt8} {m : ChannelMessage} {data : Bytes} (hrange : (Event.channel c m).InRange)
      (hdata : m.data = .ok data) (hbefore : before = some (m.status c)) :
      Written before (.known (.channel c m)) data
  | info {e : MetaEvent} {length data : Bytes} (hdata : e.payload = .ok data)
      (hlength : Quantity.Spells length data.length) :
      Written before (.known (.info e)) (0xff :: e.kindByte :: (length ++ data))
  | unknown {kind : UInt8} {length data : Bytes} (hkind : MetaEvent.isKnownKind kind = false)
      (hlength : Quantity.Spells length data.length) :
      Written before (.unknown kind data) (0xff :: kind :: (length ++ data))
  | exclusive {status : UInt8} {length data : Bytes} (hstatus : status = 0xf0 ∨ status = 0xf7)
      (hlength : Quantity.Spells length data.length) :
      Written before (.exclusive status data) (status :: (length ++ data))

end Item

/-- A place of a track: what stands there, and the ticks since the place before. -/
structure Place where
  ticks : Nat
  item : Item
deriving Repr, DecidableEq

/-- The places may be written as these bytes where `before` is the status byte that may be left out
at the first of them. -/
inductive Layout : Option UInt8 → List Place → Bytes → Prop
  | nil {before : Option UInt8} : Layout before [] []
  | cons {before : Option UInt8} {p : Place} {places : List Place} {delta bytes rest : Bytes}
      (hdelta : Quantity.Spells delta p.ticks) (hitem : p.item.Written before bytes)
      (hrest : Layout p.item.status? places rest) :
      Layout before (p :: places) (delta ++ (bytes ++ rest))

/-- A place takes at least a byte. -/
theorem Layout.length_le {before : Option UInt8} {places : List Place} {body : Bytes}
    (h : Layout before places body) : places.length ≤ body.length := by
  induction h with
  | nil => exact Nat.le_refl 0
  | cons hdelta _ _ ih =>
    have := hdelta.length_pos
    rw [List.length_cons, List.length_append, List.length_append]
    omega

/-- The events that are heard, each with the ticks since the one before it. So many ticks have been
`waited` for the first already. -/
def heard (waited : Nat) : List Place → List (Nat × Event)
  | [] => []
  | p :: places =>
    match p.item.event? with
    | some e => (waited + p.ticks, e) :: heard 0 places
    | none => heard (waited + p.ticks) places

/-- A track of events with the ticks before each. A delta time has 32 bits. -/
def Track.ofHeard (events : List (Nat × Event)) : Track :=
  events.map fun x => ⟨UInt32.ofNat x.1, some x.2⟩

-- ════════════════════════════════════════════════════════════════════════
-- Reading quantities
-- ════════════════════════════════════════════════════════════════════════

namespace Reader

/-- Putting a group below the groups before it. The groups still to come have room in 32 bits. -/
theorem shiftLeft_or_group {n tries : Nat} (hn : (n + 1) * 128 ^ (tries + 1) ≤ 2 ^ 32) (b : UInt8) :
    UInt32.ofNat n <<< 7 ||| (b &&& 0x7f).toUInt32 = UInt32.ofNat (n * 128 + b.toNat % 128) ∧
      (n * 128 + b.toNat % 128 + 1) * 128 ^ tries ≤ 2 ^ 32 := by
  have hdigit : b.toNat % 128 < 128 := Nat.mod_lt _ (by decide)
  have hroom : (n * 128 + b.toNat % 128 + 1) * 128 ^ tries ≤ 2 ^ 32 :=
    calc (n * 128 + b.toNat % 128 + 1) * 128 ^ tries
      _ ≤ (n + 1) * 128 * 128 ^ tries := Nat.mul_le_mul_right _ (by omega)
      _ = (n + 1) * 128 ^ (tries + 1) := by rw [Nat.mul_assoc, Nat.pow_succ']
      _ ≤ 2 ^ 32 := hn
  have hlt : n * 128 + b.toNat % 128 < 2 ^ 32 := by
    have := Nat.le_mul_of_pos_right (n * 128 + b.toNat % 128 + 1) (Nat.pow_pos (n := tries)
      (by decide : 0 < 128))
    omega
  refine ⟨shiftLeft_or_eq 7 (by decide) hlt (by omega) ?_, hroom⟩
  rw [toNat_and_low]
  omega

/-- The groups of a quantity, of which those before are worth `n`. -/
theorem reads_groups {start : Nat} {marked : Bytes} {last : UInt8} {tries n : Nat}
    (hlength : marked.length < tries) (hmarked : ∀ b ∈ marked, 128 ≤ b.toNat)
    (hlast : last.toNat < 128) (hn : (n + 1) * 128 ^ tries ≤ 2 ^ 32) :
    Reads (groups start tries (UInt32.ofNat n)) (marked ++ [last])
      (UInt32.ofNat ((marked ++ [last]).foldl (fun n b => n * 128 + b.toNat % 128) n)) := by
  induction marked generalizing tries n with
  | nil =>
    obtain ⟨tries, rfl⟩ := Nat.exists_eq_succ_of_ne_zero (Nat.ne_zero_of_lt hlength)
    refine (reads_byte last).bind_right ?_
    rw [if_pos (and_high_eq_zero_iff.2 hlast), (shiftLeft_or_group hn last).1]
    exact reads_pure _
  | cons b marked ih =>
    obtain ⟨tries, rfl⟩ := Nat.exists_eq_succ_of_ne_zero (Nat.ne_zero_of_lt hlength)
    obtain ⟨hb, hmarked⟩ := List.forall_mem_cons.1 hmarked
    obtain ⟨hstep, hn⟩ := shiftLeft_or_group hn b
    refine (reads_byte b).bind ?_
    rw [if_neg (mt and_high_eq_zero_iff.1 (Nat.not_lt.2 hb)), hstep]
    exact ih (Nat.lt_of_succ_lt_succ hlength) hmarked hn

theorem reads_spelled {bytes : Bytes} {n : Nat} (h : Quantity.Spells bytes n) :
    Reads quantity bytes (UInt32.ofNat n) := by
  cases h with
  | intro hlength hmarked hlast =>
    rw [Quantity.value_eq_foldl]
    refine reads_offset_bind fun start => ?_
    exact reads_groups (n := 0) (Nat.lt_succ_of_le hlength) hmarked hlast (by decide)

theorem reads_prefixed_spelled {length data : Bytes} (h : Quantity.Spells length data.length) :
    Reads prefixed (length ++ data) data := by
  refine (reads_spelled h).bind ?_
  rw [UInt32.toNat_ofNat_of_lt' (h.lt.trans (by decide))]
  exact reads_take data

-- ════════════════════════════════════════════════════════════════════════
-- Reading items
-- ════════════════════════════════════════════════════════════════════════

/-- A meta event of any type, with a length of any form. -/
theorem reads_event_meta {kind : UInt8} {length data : Bytes} {e : Option MetaEvent}
    {running : UInt8} (hlength : Quantity.Spells length data.length)
    (he : ∀ lengthAt, Reads (metaEvent kind lengthAt data) [] e) :
    Reads (event running) (0xff :: kind :: (length ++ data)) (e.map Event.info, 0) := by
  refine reads_get_bind fun start => (reads_byte 0xff).bind ?_
  rw [if_pos rfl]
  refine (reads_byte kind).bind (reads_offset_bind fun lengthAt => ?_)
  exact (reads_prefixed_spelled hlength).bind_right ((he lengthAt).bind_right (reads_pure _))

theorem reads_metaEvent_unknown {kind : UInt8} (hkind : MetaEvent.isKnownKind kind = false)
    (lengthAt : Nat) (data : Bytes) : Reads (metaEvent kind lengthAt data) [] none := by
  simp only [MetaEvent.isKnownKind, Bool.or_eq_false_iff, List.contains_eq_mem,
    decide_eq_false_iff_not, List.mem_cons, List.not_mem_nil, or_false, not_or] at hkind
  obtain ⟨htext, h00, h20, h2f, h51, h54, h58, h59, h7f⟩ := hkind
  unfold metaEvent
  rw [if_neg h00, if_neg (Bool.eq_false_iff.1 htext), if_neg h20, if_neg h2f, if_neg h51, if_neg h54,
    if_neg h58, if_neg h59, if_neg h7f]
  exact reads_pure none

theorem reads_event_exclusive {status : UInt8} {length data : Bytes} {running : UInt8}
    (hstatus : status = 0xf0 ∨ status = 0xf7) (hlength : Quantity.Spells length data.length) :
    Reads (event running) (status :: (length ++ data)) (none, 0) := by
  have hne : status ≠ 0xff := by
    rcases hstatus with rfl | rfl <;> decide
  refine reads_get_bind fun start => (reads_byte status).bind ?_
  rw [if_neg hne, if_pos hstatus]
  exact (reads_prefixed_spelled hlength).bind_right (reads_pure _)

/-- The status byte of a message is none of the bytes that announce something else, and is not the
zero that stands for no status byte. -/
theorem status_bounds (c : UInt8) (m : ChannelMessage) :
    128 ≤ (m.status c).toNat ∧ (m.status c).toNat < 240 := by
  have hindex := m.index_le
  have hstatus := m.toNat_status c
  omega

/-- A byte with a clear high bit belongs to a message with the status byte before it: the reader
steps back and reads the message from there. -/
theorem run_event_data {running b : UInt8} (hrunning : running ≠ 0) (hb : b.toNat < 128)
    (offset : Nat) (rest : Bytes) :
    (event running).run ⟨offset, b :: rest⟩ =
      (channelEvent running >>= fun e => pure (some e, running)).run ⟨offset, b :: rest⟩ := by
  have hlow : b < 0x80 := UInt8.lt_iff_toNat_lt.2 hb
  have hne : ∀ x : UInt8, 0x80 ≤ x → b ≠ x := by
    rintro x hx rfl
    exact UInt8.not_le.2 hlow hx
  rw [event, run_bind_of_ok (r := get) rfl, run_bind_of_ok (r := byte) rfl,
    if_neg (hne 0xff (by decide)), if_neg (not_or.2 ⟨hne 0xf0 (by decide), hne 0xf7 (by decide)⟩),
    if_neg (fun h => UInt8.not_le.2 hlow (UInt8.le_trans (by decide) h)), if_pos hlow,
    if_neg hrunning]
  exact run_bind_of_ok (r := set _) rfl

theorem exists_cons_data {m : ChannelMessage} {data : Bytes} (h : m.data = .ok data) :
    ∃ b rest, data = b :: rest ∧ b.toNat < 128 := by
  cases m with
  | noteOff x y | noteOn x y | polyPressure x y | controller x y =>
    exact ⟨_, _, (Except.ok.inj h).symm, ChannelMessage.toNat_dataByte_lt x⟩
  | programChange x | channelPressure x =>
    exact ⟨_, _, (Except.ok.inj h).symm, ChannelMessage.toNat_dataByte_lt x⟩
  | pitchBend v =>
    rw [ChannelMessage.data] at h
    split_ifs at h with hv
    refine ⟨_, _, (Except.ok.inj h).symm, ?_⟩
    rw [UInt8.toNat_ofNat']
    omega

/-- A message without its status byte. -/
theorem reads_event_repeated {c : UInt8} {m : ChannelMessage} {data : Bytes}
    (hdata : m.data = .ok data) :
    Reads (event (m.status c)) data (some (Event.channel c m).narrowed, m.status c) := by
  have hnonzero : m.status c ≠ 0 := by
    intro h
    have hbounds := (status_bounds c m).1
    rw [h] at hbounds
    exact absurd hbounds (by decide)
  have hreads : Reads (channelEvent (m.status c) >>= fun e => pure (some e, m.status c)) data
      (some (Event.channel c m).narrowed, m.status c) := by
    refine Reads.bind_right (r := channelEvent (m.status c)) ?_ (reads_pure _)
    refine (reads_channelMessage hdata).bind_right ?_
    rw [m.status_and_low]
    exact reads_pure _
  obtain ⟨b, tail, rfl, hb⟩ := exists_cons_data hdata
  intro offset rest
  rw [List.cons_append, run_event_data hnonzero hb, ← List.cons_append]
  exact hreads offset rest

/-- An item is read from all the bytes it may be written as. -/
theorem reads_item {before : Option UInt8} {item : Item} {bytes : Bytes}
    (h : item.Written before bytes) :
    Reads (event (before.getD 0)) bytes (item.event?, item.status?.getD 0) := by
  cases h with
  | @message c _ _ hrange hdata =>
    have hreads : Reads (event (before.getD 0)) _ _ := reads_event_channel (c := c) hdata
    rwa [Event.narrowed_eq_self hrange] at hreads
  | @repeated c _ _ hrange hdata hbefore =>
    have hreads := reads_event_repeated (c := c) hdata
    rw [Event.narrowed_eq_self hrange] at hreads
    rw [hbefore]
    exact hreads
  | info hdata hlength => exact reads_event_meta hlength fun lengthAt => reads_metaEvent hdata
  | unknown hkind hlength =>
    exact reads_event_meta hlength fun lengthAt => reads_metaEvent_unknown hkind lengthAt _
  | exclusive hstatus hlength => exact reads_event_exclusive hstatus hlength

-- ════════════════════════════════════════════════════════════════════════
-- Reading tracks
-- ════════════════════════════════════════════════════════════════════════

/-- One turn of reading a track: what is known is kept after the time that was waited for it, and
the time of what is passed over is waited. -/
theorem run_trackEvents_place {before : Option UInt8} {p : Place} {delta bytes : Bytes}
    (hdelta : Quantity.Spells delta p.ticks) (hitem : p.item.Written before bytes) (rest : Bytes)
    (fuel offset waited : Nat) (kept : List TrackEvent) :
    (trackEvents (fuel + 1) (before.getD 0) (UInt32.ofNat waited) kept).run
        ⟨offset, delta ++ (bytes ++ rest)⟩ =
      (match p.item.event? with
        | some e => trackEvents fuel (p.item.status?.getD 0) 0
            (⟨UInt32.ofNat (waited + p.ticks), some e⟩ :: kept)
        | none => trackEvents fuel (p.item.status?.getD 0) (UInt32.ofNat (waited + p.ticks)) kept).run
        ⟨offset + (delta.length + bytes.length), rest⟩ := by
  have hnonempty : ¬(delta ++ (bytes ++ rest)).isEmpty = true := by
    have hpos := hdelta.length_pos
    rw [List.isEmpty_iff_length_eq_zero, List.length_append]
    omega
  rw [trackEvents, run_bind_of_ok (r := get) rfl, if_neg hnonempty,
    run_bind_of_ok (reads_spelled hdelta offset (bytes ++ rest)),
    run_bind_of_ok (reads_item hitem (offset + delta.length) rest), UInt32.ofNat_add,
    Nat.add_assoc]
  cases p.item.event? <;> rfl

/-- Every layout is read up to the end of its window, with the events that are heard. -/
theorem run_trackEvents_layout {before : Option UInt8} {places : List Place} {body : Bytes}
    (h : Layout before places body) {fuel : Nat} (hfuel : places.length ≤ fuel) (waited : Nat)
    (kept : List TrackEvent) (offset : Nat) :
    (trackEvents fuel (before.getD 0) (UInt32.ofNat waited) kept).run ⟨offset, body⟩ =
      .ok (kept.reverse ++ Track.ofHeard (heard waited places)) ⟨offset + body.length, []⟩ := by
  -- Between two places the running status is that of the item before, and the carried time is what
  -- has been waited since the last event that was kept.
  induction h generalizing fuel waited kept offset with
  | nil =>
    rw [heard, Track.ofHeard, List.map_nil, List.append_nil]
    cases fuel with
    | zero => rfl
    | succ fuel => rfl
  | @cons before p places delta bytes rest hdelta hitem _ ih =>
    obtain ⟨fuel, rfl⟩ := Nat.exists_eq_add_of_le' (Nat.le_trans (Nat.succ_pos _) hfuel)
    have hfuel := Nat.le_of_succ_le_succ hfuel
    have hoffset : offset + (delta ++ (bytes ++ rest)).length =
        offset + (delta.length + bytes.length) + rest.length := by
      rw [List.length_append, List.length_append]
      omega
    rw [run_trackEvents_place hdelta hitem, heard, hoffset]
    cases p.item.event? with
    | some e =>
      refine (ih hfuel 0 _ _).trans ?_
      rw [List.reverse_cons, List.append_assoc]
      rfl
    | none => exact ih hfuel _ kept _

end Reader

/-- A track chunk with this body. -/
def Track.chunk (body : Bytes) : Bytes := tag ++ fixedWidth 4 (UInt32.ofNat body.length) ++ body

theorem Reader.reads_chunk {places : List Place} {body : Bytes} (h : Layout none places body)
    (hlength : body.length < 2 ^ 32) :
    Reads track (Track.chunk body) (Track.ofHeard (heard 0 places)) :=
  reads_window hlength fun offset => run_trackEvents_layout h h.length_le 0 [] offset

/-- However the places of a track are written, the track is read, and holds the events that are known
in their order. The delta time of each is the time since the event that is known before it, in 32
bits. -/
theorem Layout.reads_known {places : List Place} {body : Bytes} (h : Layout none places body)
    (hlength : body.length < 2 ^ 32) :
    ∃ t, Reader.Reads Reader.track (Track.chunk body) t ∧
      List.Forall₂ (fun e x => e.event = some x.2 ∧ e.delta.toNat = x.1 % 2 ^ 32) t
        (heard 0 places) := by
  refine ⟨_, Reader.reads_chunk h hlength, ?_⟩
  rw [Track.ofHeard, List.forall₂_map_left_iff]
  exact List.forall₂_same.2 fun x _ => ⟨rfl, UInt32.toNat_ofNat'⟩

/-- Two notes, the second without its status byte and after a delta time of four groups. The release
comes after system-exclusive data and a meta event that mean nothing. -/
def terseTrack : List Place :=
  [⟨0, .known (.channel 0 (.noteOn 60 64))⟩, ⟨5, .known (.channel 0 (.noteOn 64 64))⟩,
    ⟨96, .exclusive 0xf0 [1, 2]⟩, ⟨4, .unknown 0x60 [9]⟩,
    ⟨1, .known (.channel 0 (.noteOff 60 0))⟩, ⟨0, .known (.info .endOfTrack)⟩]

/-- The bytes that it may be written as. -/
def terseBody : Bytes :=
  [0, 0x90, 60, 64] ++ [0x80, 0x80, 0x80, 5, 64, 64] ++ [96, 0xf0, 2, 1, 2] ++
    [4, 0xff, 0x60, 0x80, 1, 9] ++ [1, 0x80, 60, 0] ++ [0, 0xff, 0x2f, 0]

theorem Layout.reads_known_terseTrack :
    Layout none terseTrack terseBody ∧ terseBody.length < 2 ^ 32 ∧
      ∃ t, Reader.Reads Reader.track (Track.chunk terseBody) t ∧
        t.map (fun e => e.delta.toNat) = [0, 5, 101, 0] := by
  have hbyte : ∀ b : UInt8, b.toNat < 128 → Quantity.Spells ([] ++ [b]) (Quantity.value [b]) :=
    fun b hb => .intro (by decide) (by simp) hb
  have hdelta : Quantity.Spells ([0x80, 0x80, 0x80] ++ [5]) 5 :=
    .intro (by decide) (by simp) (by decide)
  have hlength : Quantity.Spells ([0x80] ++ [1]) 1 := .intro (by decide) (by simp) (by decide)
  have hexclusive : Item.Written (some 0x90) (.exclusive 0xf0 [1, 2]) (0xf0 :: ([2] ++ [1, 2])) :=
    .exclusive (.inl rfl) (hbyte 2 (by decide))
  have hunknown : Item.Written none (.unknown 0x60 [9])
      (0xff :: 0x60 :: (([0x80] ++ [1]) ++ [9])) :=
    .unknown rfl hlength
  have hending : Item.Written (some 0x80) (.known (.info .endOfTrack))
      (0xff :: 0x2f :: (([] ++ [0]) ++ [])) := .info rfl (hbyte 0 (by decide))
  have hlayout : Layout none terseTrack terseBody := by
    show Layout none terseTrack ([0] ++ ([0x90, 60, 64] ++ (([0x80, 0x80, 0x80] ++ [5]) ++
      ([64, 64] ++ ([96] ++ ([0xf0, 2, 1, 2] ++ ([4] ++ ([0xff, 0x60, 0x80, 1, 9] ++ ([1] ++
      ([0x80, 60, 0] ++ ([0] ++ ([0xff, 0x2f, 0] ++ []))))))))))))
    refine .cons (hbyte 0 (by decide)) (.message (by decide) rfl) ?_
    refine .cons hdelta (.repeated (by decide) rfl rfl) ?_
    refine .cons (hbyte 96 (by decide)) hexclusive ?_
    refine .cons (hbyte 4 (by decide)) hunknown ?_
    refine .cons (hbyte 1 (by decide)) (.message (by decide) rfl) ?_
    exact .cons (hbyte 0 (by decide)) hending .nil
  have hsize : terseBody.length < 2 ^ 32 := by decide
  obtain ⟨t, hreads, hevents⟩ := Layout.reads_known hlayout hsize
  refine ⟨hlayout, hsize, t, hreads, ?_⟩
  have hdeltas : t.map (fun e => e.delta.toNat) = (heard 0 terseTrack).map fun x => x.1 % 2 ^ 32 := by
    rw [← List.forall₂_eq_eq_eq, List.forall₂_map_left_iff, List.forall₂_map_right_iff]
    exact hevents.imp fun _ _ h => h.2
  exact hdeltas

end DegreeScore.Midi
