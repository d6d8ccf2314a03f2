import DegreeScore.Proofs.Midi.Reading
import DegreeScore.Proofs.Midi.Writing

/-!
# Reading back what was written

A file that has a byte form is read back from it, with the channel of every message cut down to four
bits and its data bytes to seven: nothing else is lost. The lemmas follow the levels of the format:
channel messages, meta events, events, tracks and files. Below a track each level is a `Reads` fact,
so that it holds at any place in a file; the events of a track are read in a window of their own,
up to its end.

## Main definitions

- `File.narrowed` — the file with the channels and data bytes of its messages cut down
- `File.InRange` — no channel or data byte of the file has a bit to lose

## Main results

- `File.decode_of_encode` — a file that is written is read back narrowed
-/

namespace DegreeScore.Midi

-- ════════════════════════════════════════════════════════════════════════
-- What is kept of a file
-- ════════════════════════════════════════════════════════════════════════

/-- The message with its data bytes cut down to seven bits. -/
def ChannelMessage.narrowed : ChannelMessage → ChannelMessage
  | .noteOff k v => .noteOff (dataByte k) (dataByte v)
  | .noteOn k v => .noteOn (dataByte k) (dataByte v)
  | .polyPressure k p => .polyPressure (dataByte k) (dataByte p)
  | .controller n v => .controller (dataByte n) (dataByte v)
  | .programChange p => .programChange (dataByte p)
  | .channelPressure p => .channelPressure (dataByte p)
  | .pitchBend v => .pitchBend v

/-- The data bytes of a message. The fourteen bits of a bend are not one of them. -/
def ChannelMessage.dataBytes : ChannelMessage → List UInt8
  | .noteOff k v | .noteOn k v | .polyPressure k v | .controller k v => [k, v]
  | .programChange p | .channelPressure p => [p]
  | .pitchBend _ => []

/-- The event with the channel of a message cut down to four bits and its data bytes to seven. -/
def Event.narrowed : Event → Event
  | .channel c m => .channel (c &&& 0x0f) m.narrowed
  | .info e => .info e

/-- A message to one of the sixteen channels, with data bytes of seven bits. -/
def Event.InRange : Event → Prop
  | .channel c m => c < 16 ∧ ∀ b ∈ m.dataBytes, b < 0x80
  | .info _ => True

@[inherit_doc Event.narrowed]
def TrackEvent.narrowed (e : TrackEvent) : TrackEvent :=
  { e with event := e.event.map Event.narrowed }

/-- The file with the channel of every message cut down to four bits and its data bytes to seven. -/
def File.narrowed (f : File) : File :=
  { f with tracks := f.tracks.map (·.map TrackEvent.narrowed) }

/-- No channel or data byte of the file has a bit to lose. -/
def File.InRange (f : File) : Prop :=
  ∀ t ∈ f.tracks, ∀ e ∈ t, ∀ event ∈ e.event, event.InRange

instance : DecidablePred Event.InRange
  | .channel c m =>
    @instDecidableAnd (c < 16) _ inferInstance (List.decidableBAll (· < 0x80) m.dataBytes)
  | .info _ => .isTrue trivial

instance : DecidablePred File.InRange := fun f =>
  inferInstanceAs (Decidable (∀ t ∈ f.tracks, ∀ e ∈ t, ∀ event ∈ e.event, event.InRange))

theorem ChannelMessage.dataByte_eq_self {b : UInt8} (h : b < 0x80) : dataByte b = b := by
  rw [dataByte, ← UInt8.toNat_inj, toNat_and_low]
  exact Nat.mod_eq_of_lt (UInt8.lt_iff_toNat_lt.1 h)

theorem ChannelMessage.narrowed_eq_self {m : ChannelMessage} (h : ∀ b ∈ m.dataBytes, b < 0x80) :
    m.narrowed = m := by
  cases m <;> simp_all [narrowed, dataBytes, dataByte_eq_self]

theorem Event.narrowed_eq_self {e : Event} (h : e.InRange) : e.narrowed = e := by
  cases e with
  | channel c m =>
    obtain ⟨hc, hm⟩ := h
    have hchannel : c &&& 0x0f = c := by
      rw [← UInt8.toNat_inj, toNat_and_nibble]
      exact Nat.mod_eq_of_lt (UInt8.lt_iff_toNat_lt.1 hc)
    rw [narrowed, hchannel, ChannelMessage.narrowed_eq_self hm]
  | info e => rfl

theorem TrackEvent.narrowed_eq_self {e : TrackEvent}
    (h : ∀ event ∈ e.event, event.InRange) : e.narrowed = e := by
  obtain ⟨delta, event⟩ := e
  cases event with
  | none => rfl
  | some event => rw [narrowed, Option.map_some, Event.narrowed_eq_self (h event rfl)]

/-- A file that is in range loses nothing. -/
theorem File.narrowed_eq_self {f : File} (h : f.InRange) : f.narrowed = f := by
  have htrack : ∀ t ∈ f.tracks, t.map TrackEvent.narrowed = t := by
    intro t ht
    rw [List.map_congr_left fun e he => TrackEvent.narrowed_eq_self (h t ht e he)]
    exact List.map_id' t
  rw [narrowed, (List.map_congr_left htrack).trans (List.map_id' f.tracks)]

-- ════════════════════════════════════════════════════════════════════════
-- Channel messages
-- ════════════════════════════════════════════════════════════════════════

namespace ChannelMessage

theorem index_le (m : ChannelMessage) : m.index ≤ 6 := by
  cases m <;> simp [index]

theorem toNat_status (c : UInt8) (m : ChannelMessage) :
    (m.status c).toNat = 0x80 + 0x10 * m.index + c.toNat % 16 := by
  have := m.index_le
  rw [status, UInt8.toNat_ofNat_of_lt' (by rw [UInt8.size]; omega)]

theorem toNat_dataByte_lt (b : UInt8) : (dataByte b).toNat < 128 := by
  rw [dataByte, toNat_and_low]
  exact Nat.mod_lt _ (by decide)

/-- The high half of a status byte tells the type of the message. -/
theorem toNat_status_shiftRight (c : UInt8) (m : ChannelMessage) :
    (m.status c >>> 4).toNat = 8 + m.index := by
  have h : (m.status c >>> 4).toNat = (m.status c).toNat / 2 ^ 4 := by
    rw [UInt8.toNat_shiftRight]
    exact Nat.shiftRight_eq_div_pow _ 4
  rw [h, toNat_status]
  omega

/-- The low half of a status byte tells the channel. -/
theorem status_and_low (c : UInt8) (m : ChannelMessage) : m.status c &&& 0x0f = c &&& 0x0f := by
  rw [← UInt8.toNat_inj, toNat_and_nibble, toNat_and_nibble, toNat_status]
  omega

end ChannelMessage

namespace Reader

theorem reads_oneByte {α : Type} {f : UInt8 → α} {x : UInt8} (hx : x.toNat < 128) :
    Reads (do return f (← dataByte)) [x] (f x) :=
  (reads_dataByte hx).bind_right (reads_pure _)

theorem reads_twoBytes {α : Type} {f : UInt8 → UInt8 → α} {x y : UInt8} (hx : x.toNat < 128)
    (hy : y.toNat < 128) : Reads (do return f (← dataByte) (← dataByte)) [x, y] (f x y) :=
  (reads_dataByte hx).bind (reads_oneByte hy)

/-- The fourteen bits of a bend come back from its two halves. -/
theorem reads_pitchBend {v : UInt16} (hv : v.toNat ≤ 0x3fff) :
    Reads (do
      let low ← dataByte
      let high ← dataByte
      return ChannelMessage.pitchBend (high.toUInt16 <<< 7 ||| low.toUInt16))
      [UInt8.ofNat (v.toNat % 128), UInt8.ofNat (v.toNat / 128)] (.pitchBend v) := by
  have hlow : (UInt8.ofNat (v.toNat % 128)).toNat = v.toNat % 128 :=
    UInt8.toNat_ofNat_of_lt' (by rw [UInt8.size]; omega)
  have hhigh : (UInt8.ofNat (v.toNat / 128)).toNat = v.toNat / 128 :=
    UInt8.toNat_ofNat_of_lt' (by rw [UInt8.size]; omega)
  have hvalue : (UInt8.ofNat (v.toNat / 128)).toUInt16 <<< 7 |||
      (UInt8.ofNat (v.toNat % 128)).toUInt16 = v := by
    rw [← UInt16.toNat_inj]
    refine (toNat_toUInt16_shiftLeft_or 7 (by decide) (by omega)).trans ?_
    omega
  refine (reads_dataByte (by omega)).bind ((reads_dataByte (by omega)).bind_right ?_)
  rw [hvalue]
  exact reads_pure _

theorem reads_channelMessage {c : UInt8} {m : ChannelMessage} {data : Bytes}
    (h : m.data = .ok data) : Reads (channelMessage (m.status c)) data m.narrowed := by
  have hindex := m.toNat_status_shiftRight c
  have hdata := ChannelMessage.toNat_dataByte_lt
  rw [channelMessage, hindex]
  cases m with
  | noteOff x y | noteOn x y | polyPressure x y | controller x y =>
    obtain rfl := Except.ok.inj h
    exact reads_twoBytes (hdata x) (hdata y)
  | programChange x | channelPressure x =>
    obtain rfl := Except.ok.inj h
    exact reads_oneByte (hdata x)
  | pitchBend v =>
    rw [ChannelMessage.data] at h
    split_ifs at h with hv
    obtain rfl := Except.ok.inj h
    exact reads_pitchBend (UInt16.le_iff_toNat_le.1 (UInt16.not_lt.1 hv))

-- ════════════════════════════════════════════════════════════════════════
-- Meta events
-- ════════════════════════════════════════════════════════════════════════

/-- The two bytes of a sequence number, put together again. -/
theorem sequenceNumber_eq (n : UInt16) :
    (byteAt n.toUInt32 1).toUInt16 <<< 8 ||| (byteAt n.toUInt32 0).toUInt16 = n := by
  have hn := n.toNat_lt
  have hhigh : (byteAt n.toUInt32 1).toNat = n.toNat / 256 % 2 ^ 8 := toNat_byteAt ..
  have hlow : (byteAt n.toUInt32 0).toNat = n.toNat / 1 % 2 ^ 8 := toNat_byteAt ..
  rw [← UInt16.toNat_inj]
  refine (toNat_toUInt16_shiftLeft_or 8 (by decide) (by omega)).trans ?_
  omega

theorem reads_keySignature {sharps : Int8} {minor : Bool} {lengthAt : Nat}
    (h : ¬(sharps < -7 ∨ 7 < sharps)) :
    Reads (metaEvent 0x59 lengthAt [sharps.toUInt8, if minor then 1 else 0]) []
      (some (.keySignature sharps minor)) := by
  change Reads (if sharps.toUInt8.toInt8 < -7 ∨ 7 < sharps.toUInt8.toInt8 ∨ _ then _ else _) [] _
  rw [Int8.toInt8_toUInt8]
  cases minor with
  | false =>
    rw [if_neg (by simpa using h)]
    exact reads_pure _
  | true =>
    rw [if_neg (by simpa using h)]
    exact reads_pure _

/-- A meta event is read from its payload, wherever its length stands. -/
theorem reads_metaEvent {e : MetaEvent} {data : Bytes} {lengthAt : Nat} (h : e.payload = .ok data) :
    Reads (metaEvent e.kindByte lengthAt data) [] (some e) := by
  cases e with
  | sequenceNumber n =>
    obtain rfl := Except.ok.inj h
    change Reads (pure (some (MetaEvent.sequenceNumber (_ ||| _)))) [] _
    rw [sequenceNumber_eq]
    exact reads_pure _
  | text kind contents =>
    rw [MetaEvent.payload] at h
    split_ifs at h with hkind
    obtain rfl := Except.ok.inj h
    have hzero : kind ≠ 0x00 := by
      rintro rfl
      cases hkind
    change Reads (if kind = 0x00 then _ else if MetaEvent.isTextKind kind then _ else _) [] _
    rw [if_neg hzero, if_pos hkind]
    exact reads_pure _
  | tempo t =>
    rw [MetaEvent.payload] at h
    split_ifs at h with ht
    obtain rfl := Except.ok.inj h
    have ht : t.toNat ≤ 0xffffff := UInt32.le_iff_toNat_le.1 (UInt32.not_lt.1 ht)
    change Reads (pure (some (MetaEvent.tempo (word (fixedWidth 3 t))))) [] _
    rw [word_fixedWidth (by omega)]
    exact reads_pure _
  | keySignature sharps minor =>
    rw [MetaEvent.payload] at h
    by_cases hsharps : sharps < -7 ∨ 7 < sharps
    · rw [if_pos hsharps] at h
      cases h
    · rw [if_neg hsharps] at h
      obtain rfl := Except.ok.inj h
      exact reads_keySignature hsharps
  | channelPrefix _ | endOfTrack | smpteOffset _ _ _ _ _ | timeSignature _ _ _ _
  | sequencerSpecific _ =>
    obtain rfl := Except.ok.inj h
    exact reads_pure _

-- ════════════════════════════════════════════════════════════════════════
-- Events
-- ════════════════════════════════════════════════════════════════════════

/-- The status byte of a message is none of the bytes that announce something else. -/
theorem reads_event_channel {c : UInt8} {m : ChannelMessage} {data : Bytes} {running : UInt8}
    (h : m.data = .ok data) :
    Reads (event running) (m.status c :: data)
      (some (Event.channel c m).narrowed, m.status c) := by
  have hstatus := m.toNat_status c
  have hindex := m.index_le
  have hbelow : m.status c < 0xf0 := by
    rw [UInt8.lt_iff_toNat_lt, hstatus]
    change _ < 240
    omega
  have habove : 0x80 ≤ m.status c := by
    rw [UInt8.le_iff_toNat_le, hstatus]
    change 128 ≤ _
    omega
  have hne : ∀ b : UInt8, 0xf0 ≤ b → m.status c ≠ b := by
    intro b hb heq
    exact UInt8.not_le.2 hbelow (heq ▸ hb)
  have hexclusive : ¬(m.status c = 0xf0 ∨ m.status c = 0xf7) :=
    not_or.2 ⟨hne 0xf0 (by decide), hne 0xf7 (by decide)⟩
  refine reads_get_bind fun start => (reads_byte (m.status c)).bind ?_
  rw [if_neg (hne 0xff (by decide)), if_neg hexclusive, if_neg (UInt8.not_le.2 hbelow),
    if_neg (UInt8.not_lt.2 habove)]
  refine Reads.bind_right (r := channelEvent (m.status c)) ?_ (reads_pure _)
  refine (reads_channelMessage h).bind_right ?_
  rw [m.status_and_low]
  exact reads_pure _

theorem reads_event_info {e : MetaEvent} {data body : Bytes} {running : UInt8}
    (hdata : e.payload = .ok data) (hlength : data.length < 2 ^ 32)
    (hbody : Quantity.prefixed? data = some body) :
    Reads (event running) (0xff :: e.kindByte :: body) (some (.info e), 0) := by
  refine reads_get_bind fun start => (reads_byte 0xff).bind ?_
  rw [if_pos rfl]
  refine (reads_byte e.kindByte).bind (reads_offset_bind fun lengthAt => ?_)
  refine (reads_prefixed hlength hbody).bind_right ?_
  exact (reads_metaEvent hdata).bind_right (reads_pure _)

/-- An event is read back narrowed, whatever message came before it. -/
theorem reads_event {e : Event} {b : Bytes} (running : UInt8) (h : e.encode = .ok b)
    (hlength : b.length < 2 ^ 32) :
    ∃ running', Reads (event running) b (some e.narrowed, running') := by
  cases e with
  | channel c m =>
    obtain ⟨data, hdata, rfl⟩ := Traversal.map_eq_ok_iff.1 h
    exact ⟨m.status c, reads_event_channel hdata⟩
  | info e =>
    obtain ⟨data, body, hdata, hbody, rfl⟩ := Event.encode_info_eq_ok_iff.1 h
    refine ⟨0, reads_event_info hdata ?_ hbody⟩
    obtain ⟨length, -, rfl⟩ := Option.map_eq_some_iff.1 hbody
    simp only [List.length_cons, List.length_append] at hlength
    omega

-- ════════════════════════════════════════════════════════════════════════
-- Tracks
-- ════════════════════════════════════════════════════════════════════════

/-- One turn of reading a track: an event is read, narrowed, and kept. No time is carried over,
since nothing that is written is skipped. -/
theorem run_trackEvents_step {e : TrackEvent} {part : Bytes} (h : e.WrittenAs part)
    (hlength : part.length < 2 ^ 32) (rest : Bytes) (fuel offset : Nat) (running : UInt8)
    (kept : List TrackEvent) :
    ∃ running', (trackEvents (fuel + 1) running 0 kept).run ⟨offset, part ++ rest⟩ =
      (trackEvents fuel running' 0 (e.narrowed :: kept)).run ⟨offset + part.length, rest⟩ := by
  have hpart : ¬(part ++ rest).isEmpty = true := by
    intro hempty
    have := h.length_pos
    rw [List.isEmpty_iff_length_eq_zero, List.length_append] at hempty
    omega
  obtain ⟨delta, event, body, hdelta, hevent, hbody, rfl⟩ := h
  rw [List.length_append] at hlength
  -- The bytes of an event are part of the window, so the length of a payload is written in full.
  obtain ⟨running', hreads⟩ := reads_event running hbody (by omega)
  refine ⟨running', ?_⟩
  rw [trackEvents, run_bind_of_ok (r := get) rfl, if_neg hpart, List.append_assoc,
    run_bind_of_ok (reads_quantity hdelta offset (body ++ rest)),
    run_bind_of_ok (hreads (offset + delta.length) rest)]
  dsimp only
  rw [UInt32.zero_add, List.length_append, Nat.add_assoc, TrackEvent.narrowed, hevent,
    Option.map_some]

/-- The events of a track are read up to the end of its window. -/
theorem run_trackEvents {t : Track} {parts : List Bytes}
    (h : List.Forall₂ TrackEvent.WrittenAs t parts) (hlength : parts.flatten.length < 2 ^ 32)
    {fuel : Nat} (hfuel : t.length ≤ fuel) (running : UInt8) (kept : List TrackEvent)
    (offset : Nat) :
    (trackEvents fuel running 0 kept).run ⟨offset, parts.flatten⟩ =
      .ok (kept.reverse ++ t.map TrackEvent.narrowed) ⟨offset + parts.flatten.length, []⟩ := by
  -- Between two events `kept` holds what has been read, and the running status may be any.
  induction h generalizing fuel running kept offset with
  | nil =>
    rw [List.map_nil, List.append_nil]
    cases fuel with
    | zero => rfl
    | succ fuel => rfl
  | @cons e part t parts he _ ih =>
    obtain ⟨fuel, rfl⟩ := Nat.exists_eq_add_of_le' (Nat.le_trans (Nat.succ_pos t.length) hfuel)
    rw [List.flatten_cons, List.length_append] at hlength
    rw [List.flatten_cons]
    obtain ⟨running', hstep⟩ :=
      run_trackEvents_step he (by omega) parts.flatten fuel offset running kept
    rw [hstep, ih (by omega) (Nat.le_of_succ_le_succ hfuel), List.reverse_cons, List.append_assoc,
      List.length_append, Nat.add_assoc]
    rfl

/-- A chunk is read if its body is read to its end, and the length of the body is what is written
before it. -/
theorem reads_window {t : Track} {body : Bytes} (hlength : body.length < 2 ^ 32)
    (h : ∀ offset, (trackEvents body.length 0 0 []).run ⟨offset, body⟩ =
      .ok t ⟨offset + body.length, []⟩) :
    Reads track (Track.tag ++ fixedWidth 4 (UInt32.ofNat body.length) ++ body) t := by
  have hsize : (UInt32.ofNat body.length).toNat = body.length := UInt32.toNat_ofNat_of_lt' hlength
  have hword : Reads (fixed 4) (fixedWidth 4 (UInt32.ofNat body.length))
      (UInt32.ofNat body.length) := reads_fixed (UInt32.toNat_lt _)
  rw [List.append_assoc]
  refine (reads_expectAll Track.tag).bind (hword.bind ?_)
  intro offset rest
  rw [run_bind_of_ok (r := get) rfl]
  dsimp only
  rw [hsize, List.take_left, if_neg (Nat.lt_irrefl _), run_bind_of_ok (r := set _) rfl,
    run_bind_of_ok (h offset), run_bind_of_ok (r := set _) rfl, List.drop_left]
  rfl

/-- A track is read back narrowed, if the length of its body is what is written before it. -/
theorem reads_track {t : Track} {body b : Bytes} (hbody : t.body = .ok body)
    (hlength : body.length < 2 ^ 32) (h : t.encode = .ok b) :
    Reads track b (t.map TrackEvent.narrowed) := by
  obtain ⟨body', hbody', rfl⟩ := Track.encode_eq_ok_iff.1 h
  obtain rfl : body = body' := Except.ok.inj (hbody.symm.trans hbody')
  obtain ⟨parts, hparts, rfl⟩ := Track.body_eq_ok_iff.1 hbody
  -- The fuel is the length of the body, and no event takes less than a byte.
  have hfuel : t.length ≤ parts.flatten.length := Track.length_le_of_writtenAs hparts
  exact reads_window hlength fun offset => run_trackEvents hparts hlength hfuel 0 [] offset

/-- So many tracks are read back narrowed, one after the other. -/
theorem reads_tracks {ts : List Track} {parts : List Bytes}
    (h : List.Forall₂ (fun t part => t.encode = .ok part) ts parts)
    (hlength : ∀ t ∈ ts, ∀ body, t.body = .ok body → body.length < 2 ^ 32) (done : List Track) :
    Reads (tracks ts.length done) parts.flatten
      (done.reverse ++ ts.map (·.map TrackEvent.narrowed)) := by
  induction h generalizing done with
  | nil =>
    rw [List.map_nil, List.append_nil]
    exact reads_pure done.reverse
  | @cons t part ts parts ht _ ih =>
    obtain ⟨body, hbody, -⟩ := Track.encode_eq_ok_iff.1 ht
    have htrack := reads_track hbody (hlength t List.mem_cons_self body hbody) ht
    have hrest := ih (fun t' ht' => hlength t' (List.mem_cons_of_mem t ht'))
      (t.map TrackEvent.narrowed :: done)
    rw [List.reverse_cons, List.append_assoc] at hrest
    exact htrack.bind hrest

end Reader

-- ════════════════════════════════════════════════════════════════════════
-- Files
-- ════════════════════════════════════════════════════════════════════════

/-- A division word stands for the timing it was written for. A frame rate between 1 and 128 is the
complement of a byte with its high bit set. -/
theorem Timing.ofDivision_division {timing : Timing} {d : UInt16} (h : timing.division = .ok d) :
    ofDivision d = timing := by
  cases timing with
  | metric ticks =>
    rw [division] at h
    split_ifs at h with hticks
    obtain rfl := Except.ok.inj h
    rw [ofDivision, if_pos (not_not.1 hticks)]
  | smpte fps subframes =>
    rw [division] at h
    split_ifs at h with hfps
    obtain rfl := Except.ok.inj h
    rw [not_or, UInt8.not_lt, UInt8.le_iff_toNat_le, ← UInt8.toNat_inj] at hfps
    have hhigh : 128 ≤ (-fps).toNat := by
      have hpos : ¬fps.toNat = 0 := hfps.1
      have hle : fps.toNat ≤ 128 := hfps.2
      rw [UInt8.toNat_neg, UInt8.size]
      omega
    rw [ofDivision, if_neg (shiftLeft_or_and_high hhigh), shiftLeft_or_shiftRight,
      shiftLeft_or_toUInt8, UInt8.neg_neg]

/-- The header and the tracks after it. -/
theorem Reader.reads_file {f : File} {timing : Timing} {division : UInt16} {body : Bytes}
    (hformat : f.format ≤ 2) (hcount : f.tracks.length ≤ 0xffff) (htiming : f.timing = some timing)
    (hdivision : timing.division = .ok division)
    (hbody : Reads (tracks f.tracks.length []) body f.narrowed.tracks) :
    Reads file (File.header f.format f.tracks.length division ++ body) f.narrowed := by
  have hsize : (UInt32.ofNat f.tracks.length).toNat = f.tracks.length :=
    UInt32.toNat_ofNat_of_lt' (by rw [UInt32.size]; omega)
  have hfixed : ∀ n : UInt32, n.toNat < 2 ^ 16 → Reads (fixed 2) (fixedWidth 2 n) n := by
    intro n hn
    exact reads_fixed hn
  have hword : ∀ n : UInt16, Reads (fixed 2) (fixedWidth 2 n.toUInt32) n.toUInt32 := by
    intro n
    refine hfixed n.toUInt32 ?_
    rw [UInt16.toNat_toUInt32]
    exact n.toNat_lt
  have hvalid : ¬2 < f.format.toUInt32 := by
    rw [UInt32.not_lt, UInt32.le_iff_toNat_le, UInt16.toNat_toUInt32]
    exact UInt16.le_iff_toNat_le.1 hformat
  simp only [File.header, List.append_assoc]
  refine (reads_expectAll File.tag).bind ((reads_expectAll File.headerLength).bind ?_)
  refine (hword f.format).bind ?_
  rw [if_neg hvalid]
  refine (hfixed (UInt32.ofNat f.tracks.length) (by omega)).bind ((hword division).bind ?_)
  rw [hsize]
  refine hbody.bind_right ?_
  rw [UInt16.toUInt16_toUInt32, UInt16.toUInt16_toUInt32, Timing.ofDivision_division hdivision,
    ← htiming]
  exact reads_pure f.narrowed

theorem Reader.reads_encoded {f : File} {b : Bytes} (h : f.encode = .ok b)
    (hlength : ∀ t ∈ f.tracks, ∀ body, t.body = .ok body → body.length < 2 ^ 32) :
    Reads file b f.narrowed := by
  obtain ⟨hformat, hcount, timing, division, body, htiming, hdivision, hbody, rfl⟩ :=
    File.encode_eq_ok_iff.1 h
  obtain ⟨parts, hparts, rfl⟩ := File.chunks_eq_ok_iff.1 hbody
  exact reads_file hformat hcount htiming hdivision (reads_tracks hparts hlength [])

/-- A file that has no bit to lose is read back as it was. -/
theorem File.decode_encoded {f : File} {b : Bytes} (h : f.encode = .ok b)
    (hlength : ∀ t ∈ f.tracks, ∀ body, t.body = .ok body → body.length < 2 ^ 32)
    (hrange : f.InRange) : File.decode b = .ok f := by
  have hreads := Reader.reads_encoded h hlength
  rw [narrowed_eq_self hrange] at hreads
  exact congrArg Prod.fst hreads.runOn

/-- A file that is written is read back with the channels of its messages cut down to four bits and
their data bytes to seven, and unchanged if they are in range. The length of a track has to be what
is written before it. -/
theorem File.decode_of_encode {f : File} {b : Bytes} (h : f.encode = .ok b)
    (hlength : ∀ t ∈ f.tracks, ∀ body, t.body = .ok body → body.length < 2 ^ 32) :
    File.decode b = .ok f.narrowed ∧ (f.InRange → File.decode b = .ok f) := by
  have hdecode : File.decode b = .ok f.narrowed :=
    congrArg Prod.fst (Reader.reads_encoded h hlength).runOn
  exact ⟨hdecode, File.decode_encoded h hlength⟩

/-- Two tracks at the highest frame rate. The first message has a channel of five bits and a key of
eight; the delta time of the text is the longest there is. -/
def wideFile : File where
  format := 1
  timing := some (.smpte 128 80)
  tracks := [
    [⟨200, some (.channel 0x13 (.noteOn 0xbc 0x40))⟩, ⟨0, some (.channel 2 (.pitchBend 0x3fff))⟩,
      .ending 0],
    [⟨0, some (.info (.keySignature (-7) true))⟩, ⟨0x0fffffff, some (.info (.text 1 [0x61]))⟩]]

/-- It is read back with channel 3 and key 60, and so it is a file in range that is read back as it
was. -/
theorem File.decode_of_encode_wideFile :
    wideFile.narrowed.InRange ∧ wideFile.narrowed ≠ wideFile ∧
      ∃ b, wideFile.encode = .ok b ∧ wideFile.narrowed.encode = .ok b ∧
        File.decode b = .ok wideFile.narrowed := by
  have hlength : ∀ t ∈ wideFile.tracks, ∀ body, t.body = .ok body → body.length < 2 ^ 32 := by
    intro t ht body hbody
    rcases List.mem_pair.1 ht with rfl | rfl
    · obtain rfl := Except.ok.inj hbody
      decide
    · obtain rfl := Except.ok.inj hbody
      decide
  exact ⟨by decide, by decide, _, rfl, rfl, (File.decode_of_encode rfl hlength).1⟩

end DegreeScore.Midi
