import DegreeScore.Proofs.Midi.Layout

/-!
# What the reader takes

`Only r P` says that the reader `r`, where it succeeds, has taken bytes that `P` relates to its
result. It is the other half of `Reads`: what is read has been written in one of the ways that there
are. An event is only read from an item as it may be written, a track only from a layout of places of
which it holds the known events, and a file only from chunks of such tracks.

## Main definitions

- `Reader.Only` — a reader takes nothing but bytes related to its result
- `Track.ReadFrom` — a chunk with a layout of which the track holds the known events

## Main results

- `Reader.only_event` — an event and the item that it is read from
- `File.readFrom_of_decode` — the header and the tracks of a file that is read
-/

namespace DegreeScore.Midi

-- ════════════════════════════════════════════════════════════════════════
-- Words
-- ════════════════════════════════════════════════════════════════════════

theorem lt_of_mem_digits {bytes : Bytes} :
    ∀ d ∈ (bytes.map fun b => b.toNat).reverse, d < 256 := by
  intro d hd
  obtain ⟨b, -, rfl⟩ := List.mem_map.1 (List.mem_reverse.1 hd)
  exact b.toNat_lt

theorem bigEndian_lt (bytes : Bytes) : bigEndian bytes < 256 ^ bytes.length := by
  have hdigits : ∀ d ∈ (bytes.map fun b => b.toNat).reverse, d < 256 := lt_of_mem_digits
  have h := Nat.ofDigits_lt_base_pow_length (by decide) hdigits
  rwa [List.length_reverse, List.length_map] at h

/-- Bytes are determined by their number and how many they are. -/
theorem eq_of_bigEndian_eq {bytes other : Bytes} (hlength : bytes.length = other.length)
    (h : bigEndian bytes = bigEndian other) : bytes = other := by
  have hinjective : Function.Injective fun b : UInt8 => b.toNat := fun _ _ => UInt8.toNat_inj.1
  apply List.map_injective_iff.2 hinjective
  apply List.reverse_injective
  refine Nat.ofDigits_inj_of_len_eq (by decide) ?_ lt_of_mem_digits lt_of_mem_digits h
  rw [List.length_reverse, List.length_reverse, List.length_map, List.length_map, hlength]

namespace Reader

/-- Four bytes fit in 32 bits. -/
theorem toNat_word_of_length_le {bytes : Bytes} (h : bytes.length ≤ 4) :
    (word bytes).toNat = bigEndian bytes := by
  have hpow : 256 ^ bytes.length ≤ 256 ^ 4 := Nat.pow_le_pow_right (by decide) h
  rw [toNat_word]
  exact Nat.mod_eq_of_lt ((bigEndian_lt bytes).trans_le hpow)

theorem toNat_word_lt {bytes : Bytes} (h : bytes.length ≤ 4) :
    (word bytes).toNat < 256 ^ bytes.length := by
  rw [toNat_word_of_length_le h]
  exact bigEndian_lt bytes

/-- Up to four bytes are written for the number that is read from them. -/
theorem fixedWidth_word {bytes : Bytes} (h : bytes.length ≤ 4) :
    fixedWidth bytes.length (word bytes) = bytes := by
  apply eq_of_bigEndian_eq (length_fixedWidth ..)
  rw [bigEndian_fixedWidth, Nat.mod_eq_of_lt (toNat_word_lt h), toNat_word_of_length_le h]

variable {α β : Type} {P : Bytes → α → Prop} {Q : Bytes → β → Prop} {r : Reader α}

/-- Where the reader succeeds, it has taken bytes that `P` relates to its result. -/
def Only (r : Reader α) (P : Bytes → α → Prop) : Prop :=
  ∀ ⦃offset bytes a c⦄, r.run ⟨offset, bytes⟩ = .ok a c →
    ∃ taken rest, bytes = taken ++ rest ∧ c = ⟨offset + taken.length, rest⟩ ∧ P taken a

-- ════════════════════════════════════════════════════════════════════════
-- Structural rules
-- ════════════════════════════════════════════════════════════════════════

theorem run_bind_eq_ok {k : α → Reader β} {c c' : Cursor} {b : β}
    (h : (r >>= k).run c = .ok b c') : ∃ a d, r.run c = .ok a d ∧ (k a).run d = .ok b c' := by
  cases hr : r.run c with
  | error e d =>
    change EStateM.bind r k c = _ at h
    rw [EStateM.bind, show r c = .error e d from hr] at h
    cases h
  | ok a d => exact ⟨a, d, rfl, (run_bind_of_ok hr).symm.trans h⟩

theorem only_pure {a : α} (h : P [] a) : Only (pure a) P := by
  intro offset bytes a' c hrun
  obtain ⟨rfl, rfl⟩ := EStateM.Result.ok.inj hrun
  exact ⟨[], bytes, rfl, rfl, h⟩

theorem only_failAt {offset : Nat} {fault : ReadFault} : Only (failAt offset fault) P := by
  intro offset bytes a c hrun
  cases hrun

theorem Only.bind {k : α → Reader β} (hr : Only r P)
    (hk : ∀ taken a, P taken a → Only (k a) fun more b => Q (taken ++ more) b) :
    Only (r >>= k) Q := by
  intro offset bytes b c hrun
  obtain ⟨a, d, ha, hb⟩ := run_bind_eq_ok hrun
  obtain ⟨taken, rest, rfl, rfl, hP⟩ := hr ha
  obtain ⟨more, rest, rfl, rfl, hQ⟩ := hk taken a hP hb
  exact ⟨taken ++ more, rest, (List.append_assoc ..).symm,
    by rw [List.length_append, Nat.add_assoc], hQ⟩

theorem Only.mono {P' : Bytes → α → Prop} (h : Only r P) (hP : ∀ taken a, P taken a → P' taken a) :
    Only r P' := by
  intro offset bytes a c hrun
  obtain ⟨taken, rest, hbytes, hc, ha⟩ := h hrun
  exact ⟨taken, rest, hbytes, hc, hP taken a ha⟩

theorem only_offset_bind {k : Nat → Reader α} (hk : ∀ n, Only (k n) P) : Only (offset >>= k) P :=
  fun at_ _ _ _ hrun => hk at_ hrun

theorem only_ite {p : Prop} [Decidable p] {x y : Reader α} (hx : p → Only x P) (hy : ¬p → Only y P) :
    Only (if p then x else y) P := by
  split
  · next h => exact hx h
  · next h => exact hy h

-- ════════════════════════════════════════════════════════════════════════
-- Bytes
-- ════════════════════════════════════════════════════════════════════════

theorem only_byte : Only byte fun taken b => taken = [b] := by
  intro offset bytes b c hrun
  cases bytes with
  | nil => cases hrun
  | cons b' rest =>
    obtain ⟨rfl, rfl⟩ := EStateM.Result.ok.inj hrun
    exact ⟨[b'], rest, rfl, rfl, rfl⟩

theorem only_expectAll (wanted : Bytes) : Only (expectAll wanted) fun taken _ => taken = wanted := by
  induction wanted with
  | nil => exact only_pure rfl
  | cons want wanted ih =>
    have hexpect : Only (expect want) fun taken _ => taken = [want] := by
      refine only_offset_bind fun at_ => only_byte.bind ?_
      rintro _ got rfl
      refine only_ite (fun _ => only_failAt) fun h => only_pure ?_
      rw [not_not.1 h, List.append_nil]
    refine hexpect.bind ?_
    rintro _ - rfl
    exact ih.mono fun taken _ h => congrArg (want :: ·) h

theorem only_take (n : Nat) : Only (take n) fun taken data => taken = data ∧ data.length = n := by
  intro offset bytes data c hrun
  rw [take, run_bind_of_ok (r := get) rfl] at hrun
  dsimp only at hrun
  rw [Int.toNat_natCast] at hrun
  split at hrun
  · cases hrun
  · next hfits =>
    obtain ⟨rfl, rfl⟩ := EStateM.Result.ok.inj hrun
    have hlength : (bytes.take n).length = n := by
      have hle := List.length_take_le n bytes
      omega
    refine ⟨bytes.take n, bytes.drop n, (List.take_append_drop n bytes).symm, ?_, rfl, hlength⟩
    rw [hlength]

theorem only_dataByte : Only dataByte fun taken b => taken = [b] ∧ b.toNat < 128 := by
  refine only_offset_bind fun at_ => only_byte.bind ?_
  rintro _ b rfl
  refine only_ite (fun _ => only_failAt) fun h => only_pure ?_
  exact ⟨rfl, and_high_eq_zero_iff.1 (not_not.1 h)⟩

theorem only_fixed (size : Nat) :
    Only (fixed size) fun taken n => taken.length = size ∧ n = word taken := by
  refine (only_take size).bind ?_
  rintro _ data ⟨rfl, hlength⟩
  refine only_pure ?_
  rw [List.append_nil]
  exact ⟨hlength, rfl⟩

-- ════════════════════════════════════════════════════════════════════════
-- Quantities
-- ════════════════════════════════════════════════════════════════════════

/-- The groups of a quantity, of which those before are worth `n`. -/
theorem only_groups {start tries n : Nat} (hn : (n + 1) * 128 ^ tries ≤ 2 ^ 32) :
    Only (groups start tries (UInt32.ofNat n)) fun taken v =>
      ∃ marked last, taken = marked ++ [last] ∧ marked.length < tries ∧
        (∀ b ∈ marked, 128 ≤ b.toNat) ∧ last.toNat < 128 ∧
        v = UInt32.ofNat (taken.foldl (fun n b => n * 128 + b.toNat % 128) n) := by
  induction tries generalizing n with
  | zero => exact only_failAt
  | succ tries ih =>
    refine only_byte.bind ?_
    rintro _ b rfl
    obtain ⟨hstep, hroom⟩ := shiftLeft_or_group hn b
    refine only_ite (fun hb => ?_) fun hb => ?_
    · rw [hstep]
      exact only_pure ⟨[], b, rfl, Nat.succ_pos tries, List.forall_mem_nil _,
        and_high_eq_zero_iff.1 hb, rfl⟩
    · rw [hstep]
      refine (ih hroom).mono ?_
      rintro _ v ⟨marked, last, rfl, hlength, hmarked, hlast, rfl⟩
      have hb : 128 ≤ b.toNat := Nat.not_lt.1 (mt and_high_eq_zero_iff.2 hb)
      exact ⟨b :: marked, last, rfl, Nat.succ_lt_succ hlength,
        List.forall_mem_cons.2 ⟨hb, hmarked⟩, hlast, rfl⟩

theorem only_quantity : Only quantity fun taken n => Quantity.Spells taken n.toNat := by
  refine only_offset_bind fun start => ?_
  refine (only_groups (n := 0) (by decide)).mono ?_
  rintro _ v ⟨marked, last, rfl, hlength, hmarked, hlast, rfl⟩
  have hspells := Quantity.Spells.intro (Nat.le_of_lt_succ hlength) hmarked hlast
  rw [← Quantity.value_eq_foldl, UInt32.toNat_ofNat_of_lt' (hspells.lt.trans (by decide))]
  exact hspells

theorem only_prefixed :
    Only prefixed fun taken data =>
      ∃ length, taken = length ++ data ∧ Quantity.Spells length data.length := by
  refine only_quantity.bind ?_
  rintro length n hlength
  refine (only_take n.toNat).mono ?_
  rintro _ data ⟨rfl, hdata⟩
  exact ⟨length, rfl, hdata ▸ hlength⟩

-- ════════════════════════════════════════════════════════════════════════
-- Messages
-- ════════════════════════════════════════════════════════════════════════

/-- The message has this index and is sent as these bytes, and its data bytes have seven bits. -/
structure Sends (index : Nat) (data : Bytes) (m : ChannelMessage) : Prop where
  index : m.index = index
  data : m.data = .ok data
  narrow : ∀ b ∈ m.dataBytes, b < 0x80

theorem only_oneByte {index : Nat} {f : UInt8 → ChannelMessage}
    (hf : ∀ x, (f x).index = index ∧ (f x).data = .ok [ChannelMessage.dataByte x] ∧
      (f x).dataBytes = [x]) :
    Only (do return f (← dataByte)) (Sends index) := by
  refine only_dataByte.bind ?_
  rintro _ x ⟨rfl, hx⟩
  have hx : x < 0x80 := UInt8.lt_iff_toNat_lt.2 hx
  obtain ⟨hindex, hdata, hbytes⟩ := hf x
  refine only_pure ⟨hindex, ?_, ?_⟩
  · rw [hdata, ChannelMessage.dataByte_eq_self hx]
    rfl
  · rw [hbytes]
    exact List.forall_mem_singleton.2 hx

theorem only_twoBytes {index : Nat} {f : UInt8 → UInt8 → ChannelMessage}
    (hf : ∀ x y, (f x y).index = index ∧
      (f x y).data = .ok [ChannelMessage.dataByte x, ChannelMessage.dataByte y] ∧
      (f x y).dataBytes = [x, y]) :
    Only (do return f (← dataByte) (← dataByte)) (Sends index) := by
  refine only_dataByte.bind ?_
  rintro _ x ⟨rfl, hx⟩
  refine only_dataByte.bind ?_
  rintro _ y ⟨rfl, hy⟩
  have hx : x < 0x80 := UInt8.lt_iff_toNat_lt.2 hx
  have hy : y < 0x80 := UInt8.lt_iff_toNat_lt.2 hy
  obtain ⟨hindex, hdata, hbytes⟩ := hf x y
  refine only_pure ⟨hindex, ?_, ?_⟩
  · rw [hdata, ChannelMessage.dataByte_eq_self hx, ChannelMessage.dataByte_eq_self hy]
    rfl
  · rw [hbytes]
    exact List.forall_mem_cons.2 ⟨hx, List.forall_mem_singleton.2 hy⟩

/-- A bend is sent as the two halves that it was read from. -/
theorem sends_pitchBend {low high : UInt8} (hlow : low.toNat < 128) (hhigh : high.toNat < 128) :
    Sends 6 [low, high] (.pitchBend (high.toUInt16 <<< 7 ||| low.toUInt16)) := by
  have hvalue : (high.toUInt16 <<< 7 ||| low.toUInt16).toNat = high.toNat * 128 + low.toNat :=
    toNat_toUInt16_shiftLeft_or 7 (by decide) hlow
  have hfits : ¬(0x3fff : UInt16) < high.toUInt16 <<< 7 ||| low.toUInt16 := by
    rw [UInt16.not_lt, UInt16.le_iff_toNat_le, hvalue]
    show _ ≤ 0x3fff
    omega
  refine ⟨rfl, ?_, List.forall_mem_nil _⟩
  rw [ChannelMessage.data, if_neg hfits, hvalue]
  congr 3
  · rw [← UInt8.toNat_inj, UInt8.toNat_ofNat']
    omega
  · rw [← UInt8.toNat_inj, UInt8.toNat_ofNat']
    omega

theorem only_channelMessage {status : UInt8} (hlow : 128 ≤ status.toNat) (hhigh : status.toNat < 240) :
    Only (channelMessage status) (Sends (status.toNat / 16 - 8)) := by
  have hshift : (status >>> 4).toNat = status.toNat / 16 := by
    rw [UInt8.toNat_shiftRight]
    exact Nat.shiftRight_eq_div_pow _ 4
  rw [channelMessage, hshift]
  obtain h | h | h | h | h | h | h : status.toNat / 16 = 8 ∨ status.toNat / 16 = 9 ∨
    status.toNat / 16 = 10 ∨ status.toNat / 16 = 11 ∨ status.toNat / 16 = 12 ∨
    status.toNat / 16 = 13 ∨ status.toNat / 16 = 14 := by omega
  all_goals rw [h]
  · exact only_twoBytes fun x y => ⟨rfl, rfl, rfl⟩
  · exact only_twoBytes fun x y => ⟨rfl, rfl, rfl⟩
  · exact only_twoBytes fun x y => ⟨rfl, rfl, rfl⟩
  · exact only_twoBytes fun x y => ⟨rfl, rfl, rfl⟩
  · exact only_oneByte fun x => ⟨rfl, rfl, rfl⟩
  · exact only_oneByte fun x => ⟨rfl, rfl, rfl⟩
  · refine only_dataByte.bind ?_
    rintro _ low ⟨rfl, hlow⟩
    refine only_dataByte.bind ?_
    rintro _ high ⟨rfl, hhigh⟩
    exact only_pure (sends_pitchBend hlow hhigh)

/-- A message is sent with the status byte under which it was read. -/
theorem status_of_sends {status : UInt8} {data : Bytes} {m : ChannelMessage}
    (hlow : 128 ≤ status.toNat) (hhigh : status.toNat < 240)
    (h : Sends (status.toNat / 16 - 8) data m) : m.status (status &&& 0x0f) = status := by
  rw [← UInt8.toNat_inj, m.toNat_status, toNat_and_nibble, h.index]
  omega

/-- The message under a status byte is read from the data bytes that it is written as. -/
theorem only_channelEvent {status : UInt8} (hlow : 128 ≤ status.toNat) (hhigh : status.toNat < 240) :
    Only (channelEvent status) fun taken e =>
      ∃ c m, e = .channel c m ∧ m.status c = status ∧ e.InRange ∧ m.data = .ok taken := by
  refine (only_channelMessage hlow hhigh).bind ?_
  intro data m hm
  have hchannel : status &&& 0x0f < 16 := by
    rw [UInt8.lt_iff_toNat_lt, toNat_and_nibble]
    exact Nat.mod_lt _ (by decide)
  refine only_pure ⟨_, m, rfl, status_of_sends hlow hhigh hm, ⟨hchannel, hm.narrow⟩, ?_⟩
  rw [List.append_nil]
  exact hm.data

-- ════════════════════════════════════════════════════════════════════════
-- Meta events
-- ════════════════════════════════════════════════════════════════════════

/-- The meta event has this type and this payload, or is none because the type is not known. -/
def Means (kind : UInt8) (data : Bytes) : Option MetaEvent → Prop
  | some e => e.kindByte = kind ∧ e.payload = .ok data
  | none => MetaEvent.isKnownKind kind = false

theorem payload_sequenceNumber (a b : UInt8) :
    (MetaEvent.sequenceNumber (a.toUInt16 <<< 8 ||| b.toUInt16)).payload = .ok [a, b] := by
  have hvalue : (a.toUInt16 <<< 8 ||| b.toUInt16).toNat = a.toNat * 2 ^ 8 + b.toNat :=
    toNat_toUInt16_shiftLeft_or 8 (by decide) b.toNat_lt
  have ha := a.toNat_lt
  have hb := b.toNat_lt
  have hbytes : ∀ i x, (a.toNat * 2 ^ 8 + b.toNat) / 256 ^ i % 2 ^ 8 = x.toNat →
      byteAt (a.toUInt16 <<< 8 ||| b.toUInt16).toUInt32 i = x := by
    intro i x hx
    rw [← UInt8.toNat_inj, toNat_byteAt, UInt16.toNat_toUInt32, hvalue, hx]
  rw [MetaEvent.payload, fixedWidth_succ, fixedWidth_succ, hbytes 1 a (by omega),
    hbytes 0 b (by omega)]
  rfl

theorem payload_tempo (a b c : UInt8) :
    (MetaEvent.tempo (word [a, b, c])).payload = .ok [a, b, c] := by
  have hlength : [a, b, c].length ≤ 4 := Nat.le_succ 3
  have hlt := toNat_word_lt hlength
  rw [show 256 ^ [a, b, c].length = 0x1000000 by simp] at hlt
  have hfits : ¬(0xffffff : UInt32) < word [a, b, c] := by
    rw [UInt32.lt_iff_toNat_lt]
    show ¬0xffffff < _
    omega
  rw [MetaEvent.payload, if_neg hfits]
  exact congrArg _ (fixedWidth_word hlength)

theorem payload_keySignature {s mode : UInt8} (h : ¬(s.toInt8 < -7 ∨ 7 < s.toInt8 ∨ 1 < mode)) :
    (MetaEvent.keySignature s.toInt8 (mode = 1)).payload = .ok [s, mode] := by
  obtain ⟨hlow, hhigh, hmode⟩ : ¬s.toInt8 < -7 ∧ ¬7 < s.toInt8 ∧ ¬1 < mode := by
    simpa only [not_or] using h
  have hminor : (if decide (mode = 1) = true then (1 : UInt8) else 0) = mode := by
    by_cases hone : mode = 1
    · rw [if_pos (decide_eq_true hone), hone]
    · rw [if_neg (mt of_decide_eq_true hone)]
      have hle : mode.toNat ≤ 1 := UInt8.le_iff_toNat_le.1 (UInt8.not_lt.1 hmode)
      have hne : mode.toNat ≠ 1 := fun h => hone (UInt8.toNat_inj.1 h)
      apply UInt8.toNat_inj.1
      show 0 = mode.toNat
      omega
  rw [MetaEvent.payload, if_neg (not_or.2 ⟨hlow, hhigh⟩), hminor, UInt8.toUInt8_toInt8]

theorem only_metaEvent (kind : UInt8) (lengthAt : Nat) (data : Bytes) :
    Only (metaEvent kind lengthAt data) fun taken e => taken = [] ∧ Means kind data e := by
  have hknown : ∀ e : MetaEvent, e.kindByte = kind → e.payload = .ok data →
      Only (pure (some e)) fun taken e => taken = [] ∧ Means kind data e :=
    fun e hkind hdata => only_pure ⟨rfl, hkind, hdata⟩
  unfold metaEvent
  refine only_ite (fun h00 => ?_) fun h00 => only_ite (fun htext => ?_) fun htext =>
    only_ite (fun h20 => ?_) fun h20 => only_ite (fun h2f => ?_) fun h2f =>
    only_ite (fun h51 => ?_) fun h51 => only_ite (fun h54 => ?_) fun h54 =>
    only_ite (fun h58 => ?_) fun h58 => only_ite (fun h59 => ?_) fun h59 =>
    only_ite (fun h7f => ?_) fun h7f => only_pure ⟨rfl, ?_⟩
  · split
    · exact hknown _ h00.symm (payload_sequenceNumber ..)
    · exact only_failAt
  · exact hknown _ rfl (if_pos htext)
  · split
    · exact hknown _ h20.symm rfl
    · exact only_failAt
  · split
    · exact hknown _ h2f.symm rfl
    · exact only_failAt
  · split
    · exact hknown _ h51.symm (payload_tempo ..)
    · exact only_failAt
  · split
    · exact hknown _ h54.symm rfl
    · exact only_failAt
  · split
    · exact hknown _ h58.symm rfl
    · exact only_failAt
  · split
    · exact only_ite (fun _ => only_failAt) fun h => hknown _ h59.symm (payload_keySignature h)
    · exact only_failAt
  · exact hknown _ h7f.symm rfl
  · simp [Means, MetaEvent.isKnownKind, htext, h00, h20, h2f, h51, h54, h58, h59, h7f]

-- ════════════════════════════════════════════════════════════════════════
-- Events
-- ════════════════════════════════════════════════════════════════════════

/-- The status byte that may be left out is that of a message. -/
def Running (before : Option UInt8) : Prop :=
  ∀ status ∈ before, 128 ≤ status.toNat ∧ status.toNat < 240

theorem running_status? (item : Item) : Running item.status? := by
  intro status hstatus
  match item with
  | .known (.channel c m) =>
    obtain rfl := Option.some.inj hstatus
    exact status_bounds c m
  | .known (.info _) | .unknown .. | .exclusive .. => cases hstatus

/-- The item that an event has been read from, and the status byte that is left after it. -/
def ReadAs (before : Option UInt8) (taken : Bytes) (r : Option Event × UInt8) : Prop :=
  ∃ item : Item, item.Written before taken ∧ r = (item.event?, item.status?.getD 0)

theorem only_event_meta {before : Option UInt8} :
    Only (do
      let kind ← byte
      let lengthAt ← offset
      let data ← prefixed
      let e ← metaEvent kind lengthAt data
      return (e.map Event.info, (0 : UInt8))) fun taken r => ReadAs before (0xff :: taken) r := by
  refine only_byte.bind ?_
  rintro _ kind rfl
  refine only_offset_bind fun lengthAt => only_prefixed.bind ?_
  rintro _ data ⟨length, rfl, hlength⟩
  refine (only_metaEvent kind lengthAt data).bind ?_
  rintro _ e ⟨rfl, he⟩
  refine only_pure ?_
  rw [List.append_nil, List.append_nil, List.singleton_append]
  cases e with
  | some e =>
    obtain ⟨rfl, hdata⟩ := he
    exact ⟨.known (.info e), .info hdata hlength, rfl⟩
  | none => exact ⟨.unknown kind data, .unknown he hlength, rfl⟩

theorem only_event_exclusive {before : Option UInt8} {status : UInt8}
    (hstatus : status = 0xf0 ∨ status = 0xf7) :
    Only (do
      let _ ← prefixed
      return ((none : Option Event), (0 : UInt8)))
      fun taken r => ReadAs before (status :: taken) r := by
  refine only_prefixed.bind ?_
  rintro _ data ⟨length, rfl, hlength⟩
  refine only_pure ?_
  rw [List.append_nil]
  exact ⟨.exclusive status data, .exclusive hstatus hlength, rfl⟩

theorem only_event_message (before : Option UInt8) {status : UInt8} (hlow : 128 ≤ status.toNat)
    (hhigh : status.toNat < 240) :
    Only (channelEvent status >>= fun e => pure (some e, status))
      fun taken r => ReadAs before (status :: taken) r ∧
        (before = some status → ReadAs before taken r) := by
  refine (only_channelEvent hlow hhigh).bind ?_
  rintro data _ ⟨c, m, rfl, rfl, hrange, hdata⟩
  refine only_pure ?_
  rw [List.append_nil]
  exact ⟨⟨.known (.channel c m), .message hrange hdata, rfl⟩,
    fun hbefore => ⟨.known (.channel c m), .repeated hrange hdata hbefore, rfl⟩⟩

/-- What a reader takes after a first byte. -/
theorem Only.after_byte {Q : Bytes → α → Prop} {offset : Nat} {x : UInt8} {rest : Bytes} {a : α}
    {c : Cursor} (hr : Only r P) (hQ : ∀ taken a, P taken a → Q (x :: taken) a)
    (hrun : r.run ⟨offset + 1, rest⟩ = .ok a c) :
    ∃ taken rest', x :: rest = taken ++ rest' ∧ c = ⟨offset + taken.length, rest'⟩ ∧ Q taken a := by
  obtain ⟨taken, rest', rfl, rfl, ha⟩ := hr hrun
  refine ⟨x :: taken, rest', rfl, ?_, hQ taken a ha⟩
  rw [List.length_cons, Nat.add_assoc, Nat.add_comm 1]

/-- An event is read from an item as it may be written after the one before. -/
theorem only_event {before : Option UInt8} (hbefore : Running before) :
    Only (event (before.getD 0)) (ReadAs before) := by
  -- The first byte tells what follows. A data byte is given back, so `Only.bind` does not apply.
  intro offset bytes a c hrun
  cases bytes with
  | nil => cases hrun
  | cons status rest =>
    rw [event, run_bind_of_ok (r := get) rfl, run_bind_of_ok (r := byte) rfl] at hrun
    split at hrun
    · next hmeta =>
      subst hmeta
      exact only_event_meta.after_byte (fun _ _ h => h) hrun
    split at hrun
    · next hexclusive =>
      exact (only_event_exclusive hexclusive).after_byte (fun _ _ h => h) hrun
    split at hrun
    · cases hrun
    next hbelow =>
    split at hrun
    · next hdata =>
      split at hrun
      · cases hrun
      · next hrunning =>
        cases before with
        | none => exact absurd rfl hrunning
        | some running =>
          obtain ⟨hlow, hhigh⟩ := hbefore running rfl
          have hmessage := (run_bind_of_ok (r := set _) rfl).symm.trans hrun
          obtain ⟨taken, rest', hbytes, hc, -, ha⟩ :=
            only_event_message (some running) hlow hhigh hmessage
          exact ⟨taken, rest', hbytes, hc, ha rfl⟩
    · next habove =>
      rw [UInt8.not_lt, UInt8.le_iff_toNat_le] at habove
      rw [UInt8.not_le, UInt8.lt_iff_toNat_lt] at hbelow
      exact (only_event_message before habove hbelow).after_byte (fun _ _ h => h.1) hrun

-- ════════════════════════════════════════════════════════════════════════
-- Tracks
-- ════════════════════════════════════════════════════════════════════════

/-- A body that is read to its end has a layout of which the track holds the known events. -/
theorem layout_of_run_trackEvents {before : Option UInt8} (hbefore : Running before)
    {fuel waited offset : Nat} {kept t : List TrackEvent} {body : Bytes} {c : Cursor}
    (hfuel : body.length ≤ fuel)
    (hrun : (trackEvents fuel (before.getD 0) (UInt32.ofNat waited) kept).run ⟨offset, body⟩ =
      .ok t c) :
    ∃ places, Layout before places body ∧
      t = kept.reverse ++ Track.ofHeard (heard waited places) := by
  have hnil : ∀ before waited (kept : List TrackEvent), ∃ places, Layout before places [] ∧
      kept.reverse = kept.reverse ++ Track.ofHeard (heard waited places) :=
    fun _ _ _ => ⟨[], .nil, (List.append_nil _).symm⟩
  induction fuel generalizing before waited offset kept body with
  | zero =>
    obtain rfl := List.length_eq_zero_iff.1 (Nat.le_zero.1 hfuel)
    obtain ⟨rfl, rfl⟩ := EStateM.Result.ok.inj hrun
    exact hnil before waited kept
  | succ fuel ih =>
    rw [trackEvents, run_bind_of_ok (r := get) rfl] at hrun
    split at hrun
    · next hempty =>
      obtain rfl := List.isEmpty_iff.1 hempty
      obtain ⟨rfl, rfl⟩ := EStateM.Result.ok.inj hrun
      exact hnil before waited kept
    obtain ⟨n, _, hquantity, hrun⟩ := run_bind_eq_ok hrun
    obtain ⟨delta, _, rfl, rfl, hdelta⟩ := only_quantity hquantity
    obtain ⟨_, _, hevent, hrun⟩ := run_bind_eq_ok hrun
    obtain ⟨bytes, rest, rfl, rfl, item, hitem, rfl⟩ := only_event hbefore hevent
    have hpos := hdelta.length_pos
    rw [List.length_append, List.length_append] at hfuel
    have hfuel : rest.length ≤ fuel := by omega
    have hcarry : UInt32.ofNat waited + n = UInt32.ofNat (waited + n.toNat) := by
      rw [UInt32.ofNat_add, UInt32.ofNat_toNat]
    have hrunning := running_status? item
    dsimp only at hrun
    rw [hcarry] at hrun
    cases hevent? : item.event? with
    | none =>
      rw [hevent?] at hrun
      obtain ⟨places, hplaces, rfl⟩ := ih hrunning hfuel hrun
      refine ⟨⟨n.toNat, item⟩ :: places, .cons hdelta hitem hplaces, ?_⟩
      rw [heard, hevent?]
    | some e =>
      rw [hevent?] at hrun
      obtain ⟨places, hplaces, rfl⟩ :
          ∃ places, Layout item.status? places rest ∧
            t = (⟨UInt32.ofNat (waited + n.toNat), some e⟩ :: kept).reverse ++
              Track.ofHeard (heard 0 places) := ih hrunning hfuel hrun
      refine ⟨⟨n.toNat, item⟩ :: places, .cons hdelta hitem hplaces, ?_⟩
      rw [heard, hevent?, List.reverse_cons, List.append_assoc]
      rfl

end Reader

/-- The bytes are a chunk with a layout of which the track holds the known events. -/
def Track.ReadFrom (bytes : Bytes) (t : Track) : Prop :=
  ∃ places body, bytes = chunk body ∧ body.length < 2 ^ 32 ∧ Layout none places body ∧
    t = ofHeard (heard 0 places)

/-- The file has a header as it is read, and its tracks have been read from chunks that are part of
the bytes. -/
structure File.ReadFrom (bytes : Bytes) (f : File) : Prop where
  format : f.format ≤ 2
  timing : ∃ division, f.timing = some (.ofDivision division)
  count : f.tracks.length < 2 ^ 16
  tracks : ∃ parts, List.Forall₂ Track.ReadFrom parts f.tracks ∧
    parts.flatten.length ≤ bytes.length

namespace Reader

theorem only_track : Only track Track.ReadFrom := by
  refine (only_expectAll Track.tag).bind ?_
  rintro _ - rfl
  refine (only_fixed 4).bind ?_
  rintro size _ ⟨hsize, rfl⟩
  -- The body is read in a window of its own, and then taken in one go.
  intro offset bytes t c hrun
  rw [run_bind_of_ok (r := get) rfl] at hrun
  dsimp only at hrun
  split at hrun
  · cases hrun
  next hfits =>
  rw [run_bind_of_ok (r := set _) rfl] at hrun
  obtain ⟨_, _, hevents, hrun⟩ := run_bind_eq_ok hrun
  rw [run_bind_of_ok (r := set _) rfl] at hrun
  obtain ⟨rfl, rfl⟩ := EStateM.Result.ok.inj hrun
  have hnone : Running none := by
    intro _ h
    cases h
  obtain ⟨places, hplaces, rfl⟩ : ∃ places, Layout none places (bytes.take (word size).toNat) ∧
      _ = Track.ofHeard (heard 0 places) := layout_of_run_trackEvents hnone (Nat.le_refl _) hevents
  have hlength : (bytes.take (word size).toNat).length = (word size).toNat := by
    have hle := List.length_take_le (word size).toNat bytes
    omega
  refine ⟨bytes.take (word size).toNat, bytes.drop (word size).toNat,
    (List.take_append_drop _ bytes).symm, by rw [hlength], places, _, ?_, ?_, hplaces, rfl⟩
  · rw [Track.chunk, hlength, UInt32.ofNat_toNat, ← hsize, fixedWidth_word hsize.le,
      List.append_assoc]
  · rw [hlength]
    exact (word size).toNat_lt

theorem only_tracks (count : Nat) (done : List Track) :
    Only (tracks count done) fun taken ts => ∃ parts read, taken = parts.flatten ∧
      ts = done.reverse ++ read ∧ read.length = count ∧ List.Forall₂ Track.ReadFrom parts read := by
  induction count generalizing done with
  | zero => exact only_pure ⟨[], [], rfl, (List.append_nil _).symm, rfl, .nil⟩
  | succ count ih =>
    refine only_track.bind fun part t ht => (ih (t :: done)).mono ?_
    rintro _ _ ⟨parts, read, rfl, rfl, hcount, hread⟩
    refine ⟨part :: parts, t :: read, rfl, ?_, congrArg Nat.succ hcount, .cons ht hread⟩
    rw [List.reverse_cons, List.append_assoc]
    rfl

theorem only_file : Only file File.ReadFrom := by
  refine (only_expectAll File.tag).bind ?_
  rintro _ - rfl
  refine (only_expectAll File.headerLength).bind ?_
  rintro _ - rfl
  refine (only_fixed 2).bind ?_
  rintro format _ ⟨hformat, rfl⟩
  refine only_ite (fun _ => ?_) fun hvalid => ?_
  · refine only_offset_bind fun at_ => ?_
    exact (only_failAt (P := fun _ _ => False)).bind fun _ _ h => h.elim
  refine (only_fixed 2).bind ?_
  rintro count _ ⟨hcount, rfl⟩
  refine (only_fixed 2).bind ?_
  rintro division _ ⟨-, rfl⟩
  refine (only_tracks (word count).toNat []).bind ?_
  rintro _ _ ⟨parts, ts, rfl, rfl, hlength, hts⟩
  have hvalid : (word format).toNat ≤ 2 := UInt32.le_iff_toNat_le.1 (UInt32.not_lt.1 hvalid)
  have hword : ∀ {bytes : Bytes}, bytes.length = 2 → (word bytes).toNat < 2 ^ 16 := by
    intro bytes hbytes
    have hlt := toNat_word_lt (hbytes.le.trans (by decide))
    rwa [hbytes] at hlt
  refine only_pure ⟨?_, ⟨_, rfl⟩, ?_, parts, hts, ?_⟩
  · rw [UInt16.le_iff_toNat_le, UInt32.toNat_toUInt16]
    exact (Nat.mod_le _ _).trans hvalid
  · exact hlength.trans_lt (hword hcount)
  · simp only [List.length_append]
    omega

end Reader

theorem File.readFrom_of_decode {b : Bytes} {f : File} (h : File.decode b = .ok f) :
    f.ReadFrom b := by
  unfold File.decode Reader.runOn at h
  split at h
  · next hrun =>
    obtain rfl := Except.ok.inj h
    obtain ⟨taken, rest, rfl, -, hformat, htiming, hcount, parts, hparts, hlength⟩ :=
      Reader.only_file hrun
    refine ⟨hformat, htiming, hcount, parts, hparts, ?_⟩
    rw [List.length_append]
    omega
  · cases h

end DegreeScore.Midi
