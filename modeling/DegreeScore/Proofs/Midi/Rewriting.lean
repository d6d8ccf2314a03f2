import DegreeScore.Proofs.Midi.Parsing

/-!
# Writing what has been read

A file that has been read, in whatever form, has nothing but events that can be written. Only a
delta time may not: the times of events that are passed over add up without a bound. Where the file
is written, its tracks come to no more than twice the bytes that they were read from, so that the
lengths of their chunks are written in full, and it is read back as it was.

## Main results

- `Layout.length_le_of_heard` — how long the events of a layout are when they are written
- `File.rewritten_of_decode` — reading and then writing loses nothing
-/

namespace DegreeScore.Midi

-- ════════════════════════════════════════════════════════════════════════
-- Lengths
-- ════════════════════════════════════════════════════════════════════════

/-- The shortest form of a quantity. -/
theorem Quantity.length_le_of_encode? {n : UInt32} {short : Bytes} {k : Nat}
    (h : encode? n = some short) (hk : 0 < k) (hn : n.toNat < 128 ^ k) : short.length ≤ k := by
  by_contra hlt
  rw [Nat.not_le] at hlt
  have hpow : 128 ^ k ≤ 128 ^ (short.length - 1) := Nat.pow_le_pow_right (by decide) (by omega)
  unfold encode? at h
  dsimp only at h
  split_ifs at h
  all_goals
    obtain rfl := Option.some.inj h
    simp only [List.length_cons, List.length_nil] at hpow hlt
    omega

theorem Quantity.lt_iff_le_maxValue {n : UInt32} : n.toNat < 2 ^ 28 ↔ n ≤ maxValue := by
  rw [UInt32.le_iff_toNat_le]
  exact Nat.lt_succ_iff

theorem Quantity.Spells.length_short_le {bytes short : Bytes} {n : Nat} (h : Spells bytes n)
    (hshort : encode? (UInt32.ofNat n) = some short) : short.length ≤ bytes.length := by
  refine length_le_of_encode? hshort h.length_pos ?_
  rw [UInt32.toNat_ofNat_of_lt' (h.lt.trans (by decide)), h.eq_value]
  exact value_lt bytes

namespace Item.Written

variable {before : Option UInt8} {item : Item} {e : Event} {bytes b : Bytes}

theorem length_pos (h : item.Written before bytes) : 0 < bytes.length := by
  cases h with
  | repeated _ hdata =>
    obtain ⟨x, rest, rfl, -⟩ := Reader.exists_cons_data hdata
    exact Nat.succ_pos _
  | message | info | unknown | exclusive => exact Nat.succ_pos _

theorem inRange (h : Item.Written before (.known e) bytes) : e.InRange := by
  cases h with
  | message hrange | repeated hrange => exact hrange
  | info => trivial

theorem exists_encode (h : Item.Written before (.known e) bytes) : ∃ b, e.encode = .ok b := by
  cases h with
  | message _ hdata | repeated _ hdata => exact ⟨_, Traversal.map_eq_ok_iff.2 ⟨_, hdata, rfl⟩⟩
  | info hdata hlength => exact Event.exists_encode_info hdata hlength.lt

/-- A status byte that was left out doubles a message at most. -/
theorem length_encode_le (h : Item.Written before (.known e) bytes) (hb : e.encode = .ok b) :
    b.length ≤ 2 * bytes.length := by
  cases h with
  | message _ hdata =>
    obtain ⟨data, hdata', rfl⟩ := Traversal.map_eq_ok_iff.1 hb
    obtain rfl := Except.ok.inj (hdata.symm.trans hdata')
    exact Nat.le_mul_of_pos_left _ Nat.two_pos
  | repeated _ hdata =>
    obtain ⟨data, hdata', rfl⟩ := Traversal.map_eq_ok_iff.1 hb
    obtain rfl := Except.ok.inj (hdata.symm.trans hdata')
    obtain ⟨x, rest, rfl, -⟩ := Reader.exists_cons_data hdata
    simp only [List.length_cons]
    omega
  | info hdata hlength =>
    obtain ⟨data, body, hdata', hbody, rfl⟩ := Event.encode_info_eq_ok_iff.1 hb
    obtain rfl := Except.ok.inj (hdata.symm.trans hdata')
    obtain ⟨short, hshort, rfl⟩ := Option.map_eq_some_iff.1 hbody
    have hle := hlength.length_short_le hshort
    simp only [List.length_cons, List.length_append]
    omega

end Item.Written

namespace Layout

variable {before : Option UInt8} {places : List Place} {body : Bytes} {waited : Nat}

/-- What is heard has been written somewhere. -/
theorem written_of_mem_heard (h : Layout before places body) {x : Nat × Event}
    (hx : x ∈ heard waited places) : ∃ before bytes, Item.Written before (.known x.2) bytes := by
  induction h generalizing waited with
  | nil => cases hx
  | @cons before p places delta bytes rest _ hitem _ ih =>
    obtain ⟨ticks, item⟩ := p
    cases item with
    | known e =>
      rcases List.mem_cons.1 hx with rfl | hx
      · exact ⟨before, bytes, hitem⟩
      · exact ih hx
    | unknown | exclusive => exact ih hx

/-- Written with all status bytes and shortest quantities, the events that are heard take at most
twice the bytes of a layout. The delta time of the first may need four bytes for what has been waited
before. -/
theorem length_le_of_heard (h : Layout before places body) {parts : List Bytes}
    (hparts : List.Forall₂ TrackEvent.WrittenAs (Track.ofHeard (heard waited places)) parts) :
    parts.flatten.length ≤ 2 * body.length + if waited = 0 then 0 else 4 := by
  induction h generalizing waited parts with
  | nil =>
    cases hparts
    exact Nat.zero_le _
  | @cons before p places delta bytes rest hdelta hitem _ ih =>
    have hpos := hdelta.length_pos
    have hitemPos := hitem.length_pos
    obtain ⟨ticks, item⟩ := p
    simp only [List.length_append]
    cases item with
    | known e =>
      obtain ⟨_, others, ⟨short, _, b, hshort, hevent, hb, rfl⟩, hothers, rfl⟩ :=
        List.forall₂_cons_left_iff.1 hparts
      obtain rfl := Option.some.inj hevent
      have hrest := ih hothers
      have hbytes := hitem.length_encode_le hb
      have hfour : short.length ≤ 4 := Quantity.length_le_of_encode? hshort (by decide)
        (Quantity.exists_encode?_iff.1 ⟨short, hshort⟩)
      have hnone : waited = 0 → short.length ≤ delta.length := by
        rintro rfl
        rw [Nat.zero_add] at hshort
        exact hdelta.length_short_le hshort
      rw [if_pos rfl] at hrest
      rw [List.flatten_cons, List.length_append, List.length_append]
      split
      · next hwaited =>
        have hshort := hnone hwaited
        omega
      · omega
    | unknown | exclusive =>
      have hrest := ih hparts
      split at hrest
      · omega
      · split
        · omega
        · omega

end Layout

-- ════════════════════════════════════════════════════════════════════════
-- Tracks and files
-- ════════════════════════════════════════════════════════════════════════

namespace Track.ReadFrom

variable {bytes : Bytes} {t : Track}

theorem exists_event (h : t.ReadFrom bytes) {e : TrackEvent} (he : e ∈ t) :
    ∃ event, e.event = some event ∧ event.InRange ∧ ∃ b, event.encode = .ok b := by
  obtain ⟨places, body, -, -, hlayout, rfl⟩ := h
  obtain ⟨x, hx, rfl⟩ := List.mem_map.1 he
  obtain ⟨before, bytes, hwritten⟩ := hlayout.written_of_mem_heard hx
  exact ⟨x.2, rfl, hwritten.inRange, hwritten.exists_encode⟩

theorem length_body_le (h : t.ReadFrom bytes) {out : Bytes} (hout : t.body = .ok out) :
    out.length ≤ 2 * bytes.length := by
  obtain ⟨places, body, rfl, -, hlayout, rfl⟩ := h
  obtain ⟨parts, hparts, rfl⟩ := Track.body_eq_ok_iff.1 hout
  refine (hlayout.length_le_of_heard hparts).trans ?_
  rw [if_pos rfl, chunk, List.length_append]
  omega

end Track.ReadFrom

/-- What a division word stands for has a division word. -/
theorem Timing.exists_division_ofDivision (d : UInt16) :
    ∃ division, (ofDivision d).division = .ok division := by
  rw [ofDivision]
  split
  · next hmetric => exact ⟨d, if_neg (not_not_intro hmetric)⟩
  · next hframes =>
    refine ⟨_, if_neg ?_⟩
    have hd : 2 ^ 15 ≤ d.toNat := by
      rw [← UInt16.toNat_inj, UInt16.toNat_and] at hframes
      exact Nat.not_lt.1 (mt (and_two_pow_eq_zero_iff d.toNat_lt).2 hframes)
    have hlt := d.toNat_lt
    have hhigh : (d >>> 8).toUInt8.toNat = d.toNat / 2 ^ 8 % 2 ^ 8 := by
      rw [UInt16.toNat_toUInt8, UInt16.toNat_shiftRight]
      exact congrArg (· % 2 ^ 8) (Nat.shiftRight_eq_div_pow _ 8)
    have hrate : (-(d >>> 8).toUInt8).toNat = 2 ^ 8 - d.toNat / 2 ^ 8 := by
      rw [UInt8.toNat_neg, hhigh, UInt8.size]
      omega
    rw [not_or, UInt8.not_lt, UInt8.le_iff_toNat_le, ← UInt8.toNat_inj, hrate]
    show _ ≠ 0 ∧ _ ≤ 128
    omega

namespace File.ReadFrom

variable {b : Bytes} {f : File}

theorem exists_part (h : f.ReadFrom b) {t : Track} (ht : t ∈ f.tracks) :
    ∃ part : Bytes, t.ReadFrom part ∧ part.length ≤ b.length := by
  obtain ⟨parts, hparts, hlength⟩ := h.tracks
  obtain ⟨part, hpart, hread⟩ := Traversal.exists_of_mem_right hparts ht
  exact ⟨part, hread, (List.sublist_flatten_of_mem hpart).length_le.trans hlength⟩

theorem exists_event (h : f.ReadFrom b) {t : Track} (ht : t ∈ f.tracks) {e : TrackEvent}
    (he : e ∈ t) :
    ∃ event, e.event = some event ∧ event.InRange ∧ ∃ bytes, event.encode = .ok bytes := by
  obtain ⟨part, hpart, -⟩ := h.exists_part ht
  exact hpart.exists_event he

theorem inRange (h : f.ReadFrom b) : f.InRange := by
  intro t ht e he event hevent
  obtain ⟨event', hevent', hrange, -⟩ := h.exists_event ht he
  obtain rfl := Option.some.inj (hevent'.symm.trans hevent)
  exact hrange

theorem length_body_lt (h : f.ReadFrom b) (hb : b.length < 2 ^ 31) {t : Track}
    (ht : t ∈ f.tracks) {body : Bytes} (hbody : t.body = .ok body) : body.length < 2 ^ 32 := by
  obtain ⟨part, hpart, hle⟩ := h.exists_part ht
  have := hpart.length_body_le hbody
  omega

/-- Only a delta time can keep a file that has been read from being written. -/
theorem exists_encode_iff (h : f.ReadFrom b) :
    (∃ out, f.encode = .ok out) ↔ ∀ t ∈ f.tracks, ∀ e ∈ t, e.delta ≤ Quantity.maxValue := by
  rw [File.exists_encode_iff]
  constructor
  · rintro ⟨-, -, -, hwritable⟩ t ht e he
    exact Quantity.lt_iff_le_maxValue.1 (hwritable t ht e he).delta
  · intro hdelta
    obtain ⟨division, htiming⟩ := h.timing
    obtain ⟨word, hword⟩ := Timing.exists_division_ofDivision division
    refine ⟨h.format, Nat.le_of_lt_succ h.count, ⟨_, word, htiming, hword⟩, ?_⟩
    intro t ht e he
    obtain ⟨event, hevent, -, hbytes⟩ := h.exists_event ht he
    exact ⟨Quantity.lt_iff_le_maxValue.2 (hdelta t ht e he), event, hevent, hbytes⟩

end File.ReadFrom

/-- Reading and then writing is stable. Every event of a file that has been read can be written; the
file can be written if no delta time has grown beyond four groups; and what is written is read as the
same file again. -/
theorem File.rewritten_of_decode {b : Bytes} {f : File} (hb : b.length < 2 ^ 31)
    (h : File.decode b = .ok f) :
    (∀ t ∈ f.tracks, ∀ e ∈ t, ∃ event, e.event = some event ∧ ∃ bytes, event.encode = .ok bytes) ∧
      ((∃ out, f.encode = .ok out) ↔ ∀ t ∈ f.tracks, ∀ e ∈ t, e.delta ≤ Quantity.maxValue) ∧
      ∀ out, f.encode = .ok out → File.decode out = .ok f := by
  have hread := readFrom_of_decode h
  refine ⟨?_, hread.exists_encode_iff, ?_⟩
  · intro t ht e he
    obtain ⟨event, hevent, -, hbytes⟩ := hread.exists_event ht he
    exact ⟨event, hevent, hbytes⟩
  · intro out hout
    have hlength : ∀ t ∈ f.tracks, ∀ body, t.body = .ok body → body.length < 2 ^ 32 :=
      fun t ht body hbody => hread.length_body_lt hb ht hbody
    exact decode_encoded hout hlength hread.inRange

/-- A file with `terseBody` as its only track, and three bytes after it. -/
def terseBytes : Bytes := File.header 0 1 96 ++ Track.chunk terseBody ++ [1, 2, 3]

/-- It is written in other bytes than it was read from, but as the same file. -/
theorem File.rewritten_of_decode_terseBytes :
    terseBytes.length < 2 ^ 31 ∧ ∃ f out, File.decode terseBytes = .ok f ∧ f.encode = .ok out ∧
      out ≠ terseBytes ∧ File.decode out = .ok f := by
  have hlength : terseBytes.length < 2 ^ 31 := by decide
  have hread : File.decode terseBytes =
      .ok ⟨0, some (.metric 96), [Track.ofHeard (heard 0 terseTrack)]⟩ := rfl
  obtain ⟨-, hwrites, hstable⟩ := File.rewritten_of_decode hlength hread
  obtain ⟨out, hout⟩ := hwrites.2 (by decide)
  refine ⟨hlength, _, out, hread, hout, ?_, hstable out hout⟩
  rintro rfl
  exact absurd hout (by decide)

/-- The time of what is passed over makes a delta time that cannot be written. -/
example : ∃ f, File.decode (File.header 0 1 96 ++ Track.chunk
      ([0xff, 0xff, 0xff, 0x7f, 0xf0, 0] ++ [1, 0xff, 0x2f, 0])) = .ok f ∧
    f.encode = .error (.track 0 (.delta 0 0x10000000)) := ⟨_, rfl, rfl⟩

end DegreeScore.Midi
