import DegreeScore.Compilation
import DegreeScore.Proofs.Arrangement

/-!
# What compiles can be written

The events of a compiled file come from the score and from its header. Of these all have a byte form
as long as the source is shorter than 2²⁸ bytes, but for one: a tempo of at most three beats a minute
has more microseconds in a quarter note than three bytes hold.
-/

namespace DegreeScore

theorem Midi.Event.Played.exists_encode {size : Nat} {e : Midi.Event} (h : e.Played size)
    (hsize : size < 2 ^ 28) : ∃ b, e.encode = .ok b := by
  cases h with
  | noteOn | noteOff | program => exact ⟨_, rfl⟩
  | text hl => exact exists_encode_info rfl (Nat.lt_of_le_of_lt hl hsize)

-- ════════════════════════════════════════════════════════════════════════
-- Headers
-- ════════════════════════════════════════════════════════════════════════

/-- A tempo in beats a minute has a byte form from four beats on. -/
theorem Midi.Event.exists_encode_tempo_iff {beats : Nat} (hpos : 0 < beats) :
    (∃ b, Event.encode (.info (.tempo (Tempo.ofBeats beats))) = .ok b) ↔ 3 < beats := by
  have hlt : Tempo.minute / beats < UInt32.size :=
    Nat.lt_of_le_of_lt (Nat.div_le_self ..) (by decide)
  have hlarge : (0xffffff : UInt32) < Tempo.ofBeats beats ↔ 0x1000000 * beats ≤ Tempo.minute := by
    rw [UInt32.lt_iff_toNat_lt, Tempo.ofBeats, UInt32.toNat_ofNat_of_lt' hlt,
      ← Nat.le_div_iff_mul_le hpos]
    exact Iff.rfl
  have hminute : Tempo.minute = 60000000 := rfl
  by_cases h : 3 < beats
  · refine iff_of_true ?_ h
    have hpayload : (MetaEvent.tempo (Tempo.ofBeats beats)).payload =
        .ok (fixedWidth 3 (Tempo.ofBeats beats)) :=
      if_neg (by rw [hlarge]; omega)
    exact exists_encode_info hpayload (by simp [fixedWidth])
  · refine iff_of_false ?_ h
    have hpayload : (MetaEvent.tempo (Tempo.ofBeats beats)).payload =
        .error (.tempoRange (Tempo.ofBeats beats)) :=
      if_pos (by rw [hlarge]; omega)
    rintro ⟨b, hb⟩
    obtain ⟨data, hdata, -⟩ := exists_encode_info_iff.1 ⟨b, hb⟩
    rw [hpayload] at hdata
    cases hdata

namespace Header

variable {metadata : Option Table} {size : Nat}

/-- The events of a header are those that the known entries give. -/
theorem mem_events_iff {e : TimedEvent} :
    e ∈ events metadata ↔ ∃ entry ∈ known, ∃ v event,
      (metadata.getD []).get? (Bytes.ofString entry.key) = some v ∧
        entry.event? v = some event ∧ e = ⟨.zero, .info event⟩ := by
  rw [events, List.mem_filterMap]
  constructor
  · rintro ⟨r, hr, he⟩
    obtain ⟨entry, hentry, hfind⟩ := List.mem_filterMap.1 hr
    obtain ⟨v, hv, hr⟩ := Option.map_eq_some_iff.1 hfind
    cases hevent : entry.event? v with
    | none =>
      rw [hevent] at hr
      subst hr
      cases he
    | some event =>
      rw [hevent] at hr
      subst hr
      exact ⟨entry, hentry, v, event, hv, hevent, (Option.some.inj he).symm⟩
  · rintro ⟨entry, hentry, v, event, hv, hevent, rfl⟩
    refine ⟨.ok event, List.mem_filterMap.2 ⟨entry, hentry, ?_⟩, rfl⟩
    rw [Entry.find, hv, Option.map_some, hevent]

theorem exists_encode_text {kind : UInt8} {v : Metadata} {event : Midi.MetaEvent}
    (hkind : Midi.MetaEvent.isTextKind kind = true) (hv : v.Within size) (hsize : size < 2 ^ 28)
    (h : text? kind v = some event) : ∃ b, Midi.Event.encode (.info event) = .ok b := by
  cases v with
  | text t =>
    obtain rfl := Option.some.inj h
    exact Midi.Event.exists_encode_info (if_pos hkind) (Nat.lt_of_le_of_lt hv hsize)
  | number | list | table => cases h

theorem exists_encode_timeSignature {v : Metadata} {event : Midi.MetaEvent}
    (h : timeSignature? v = some event) : ∃ b, Midi.Event.encode (.info event) = .ok b := by
  rw [timeSignature?.eq_def] at h
  split at h
  · split at h
    · obtain rfl := Option.some.inj h
      exact ⟨_, rfl⟩
    · cases h
  · cases h

theorem tempo?_number {n : Int64} (h : 1 ≤ n ∧ n ≤ 1000) :
    tempo? (.number n) = some (.tempo (Midi.Tempo.ofBeats n.toInt.toNat)) := by
  have hpos : 0 < n := Int64.lt_of_lt_of_le (by decide : (0 : Int64) < 1) h.1
  exact if_pos ⟨hpos, h.2⟩

theorem exists_encode_tempo {v : Metadata} {event : Midi.MetaEvent} (h : tempo? v = some event)
    (hv : ∀ n : Int64, v = .number n → n < 1 ∨ 3 < n) :
    ∃ b, Midi.Event.encode (.info event) = .ok b := by
  cases v with
  | number n =>
    rw [tempo?] at h
    split at h
    · next hn =>
      obtain rfl := Option.some.inj h
      have hslow := hv n rfl
      simp only [Int64.lt_iff_toInt_lt] at hn hslow
      have h0 : (0 : Int64).toInt = 0 := rfl
      have h1 : (1 : Int64).toInt = 1 := rfl
      have h3 : (3 : Int64).toInt = 3 := rfl
      exact (Midi.Event.exists_encode_tempo_iff (by omega)).2 (by omega)
    · cases h
  | text | list | table => cases h

/-- Only a slow tempo makes a header that cannot be written. -/
theorem forall_exists_encode_iff (hsize : size < 2 ^ 28)
    (hmetadata : ∀ t ∈ metadata, t.Within size) :
    (∀ e ∈ events metadata, ∃ b, e.event.encode = .ok b) ↔
      ∀ n : Int64, (metadata.getD []).get? (Bytes.ofString "tempo") = some (.number n) →
        n < 1 ∨ 3 < n := by
  constructor
  · intro h n hn
    by_contra hslow
    obtain ⟨h1, h3⟩ := not_or.1 hslow
    rw [Int64.not_lt] at h1 h3
    have hmem : ⟨.zero, .info (.tempo (Midi.Tempo.ofBeats n.toInt.toNat))⟩ ∈ events metadata := by
      refine mem_events_iff.2
        ⟨⟨"tempo", tempo?, "want beats per minute"⟩, by simp [known], _, _, hn, ?_, rfl⟩
      exact tempo?_number ⟨h1, Int64.le_trans h3 (by decide)⟩
    rw [Int64.le_iff_toInt_le] at h1 h3
    have hn1 : (1 : Int64).toInt = 1 := rfl
    have hn3 : (3 : Int64).toInt = 3 := rfl
    have := (Midi.Event.exists_encode_tempo_iff (by omega)).1 (h _ hmem)
    omega
  · intro h e he
    obtain ⟨entry, hentry, v, event, hv, hevent, rfl⟩ := mem_events_iff.1 he
    have hwithin : v.Within size := by
      cases metadata with
      | none => cases hv
      | some t => exact hmetadata t rfl _ v hv
    simp only [known, List.mem_cons, List.not_mem_nil, or_false] at hentry
    rcases hentry with rfl | rfl | rfl | rfl
    · exact exists_encode_text rfl hwithin hsize hevent
    · exact exists_encode_text rfl hwithin hsize hevent
    · exact exists_encode_tempo hevent fun n hn => h n (hn ▸ hv)
    · exact exists_encode_timeSignature hevent

theorem isTime_of_mem_events {e : TimedEvent} (he : e ∈ events metadata) : e.time.IsTime := by
  obtain ⟨_, _, _, _, _, _, rfl⟩ := mem_events_iff.1 he
  exact Ratio.isTime_zero

end Header

-- ════════════════════════════════════════════════════════════════════════
-- Compiled sources
-- ════════════════════════════════════════════════════════════════════════

theorem Compilation.exists_compiled_of_error?_eq_none {src : Bytes}
    (h : (compile src).error? = none) : ∃ p f, (compile src).outcome = .compiled p f := by
  rw [Compilation.error?] at h
  split at h
  · cases h
  · cases h
  · cases h
  · next p f hc => exact ⟨p, f, hc⟩

/-- A compiled source has been played and arranged. -/
theorem Compilation.perform_of_compiled {src : Bytes} {p : Performance} {f : Midi.File}
    (h : (compile src).outcome = .compiled p f) :
    (compile src).tree.perform = .ok p ∧
      p.arrange (Header.events (compile src).tree.metadata) = .ok f := by
  have htree : (compile src).tree.compile = .compiled p f := by
    rw [compile] at h ⊢
    cases hd : (Tree.parse src).2 with
    | nil =>
      simp only [hd] at h
      exact h
    | cons first rest =>
      simp only [hd] at h
      cases h
  rw [Tree.compile] at htree
  split at htree
  · cases htree
  · next q hq =>
    split at htree
    · cases htree
    · next g hg =>
      obtain ⟨rfl, rfl⟩ := Outcome.compiled.inj htree
      exact ⟨hq, hg⟩

/-- A compilation without an error has played and arranged its tree. -/
theorem Compilation.file?_of_error?_eq_none {src : Bytes} (h : (compile src).error? = none) :
    ∃ p f, (compile src).tree.perform = .ok p ∧
      p.arrange (Header.events (compile src).tree.metadata) = .ok f ∧
      (compile src).file? = some f := by
  obtain ⟨p, f, hc⟩ := Compilation.exists_compiled_of_error?_eq_none h
  obtain ⟨hp, hf⟩ := Compilation.perform_of_compiled hc
  exact ⟨p, f, hp, hf, by rw [Compilation.file?, hc]⟩

/-- A performance whose header is `extra` has a byte form exactly if the header has one. -/
theorem Performance.Sound.exists_encode_iff {size : Nat} {p : Performance}
    {extra : List TimedEvent} {f : Midi.File} (h : p.Sound size) (hsize : size < 2 ^ 28)
    (hextra : ∀ e ∈ extra, e.time.IsTime) (hf : p.arrange extra = .ok f) :
    (∃ b, f.encode = .ok b) ↔ ∀ e ∈ extra, ∃ b, e.event.encode = .ok b := by
  obtain ⟨hformat, htiming, hcount, hdeltas, hevents⟩ := h.arrange_spec hextra hf
  rw [Midi.File.exists_encode_iff, hformat, htiming, hcount]
  constructor
  · rintro ⟨-, -, -, hwritable⟩ e he
    obtain ⟨t, ht, x, hx, hevent⟩ :=
      (hevents (some e.event)).2 (.inl ⟨e, List.mem_append_left _ he, rfl⟩)
    obtain ⟨-, event, hsome, hb⟩ := hwritable t ht x hx
    rw [hevent] at hsome
    exact Option.some.inj hsome ▸ hb
  · intro h'
    refine ⟨by decide, by decide, ⟨_, 96, rfl, rfl⟩, fun t ht x hx => ⟨hdeltas t ht x hx, ?_⟩⟩
    rcases (hevents x.event).1 ⟨t, ht, x, hx, rfl⟩ with ⟨e, he, hevent⟩ | hend
    · refine ⟨e.event, hevent.symm, ?_⟩
      rcases List.mem_append.1 he with he | he
      · exact h' e he
      · exact (h.events e he).event.exists_encode hsize
    · exact ⟨_, hend, _, rfl⟩

/-- What compiles from less than 2²⁸ bytes has a byte form, unless its metadata ask for a tempo of
one to three beats a minute. -/
theorem Compilation.exists_bytes_iff {src : Bytes} (hsize : src.length < 2 ^ 28)
    (h : (compile src).error? = none) :
    (∃ b, (compile src).bytes = .ok b) ↔
      ∀ n : Int64,
        ((compile src).tree.metadata.getD []).get? (Bytes.ofString "tempo") = some (.number n) →
          n < 1 ∨ 3 < n := by
  obtain ⟨p, f, hp, hf, hfile⟩ := Compilation.file?_of_error?_eq_none h
  obtain ⟨htree, hmetadata⟩ := Tree.parse_sound src
  have hbytes : (∃ b, (compile src).bytes = .ok b) ↔ ∃ b, f.encode = .ok b := by
    rw [Compilation.bytes, hfile]
    dsimp only
    cases f.encode <;> simp
  rw [hbytes, (htree.perform_sound hp).exists_encode_iff hsize
    (fun e he => Header.isTime_of_mem_events he) hf]
  exact Header.forall_exists_encode_iff hsize hmetadata

/-- A note at the slowest tempo that can be written. -/
def fourBeats : Bytes := Bytes.ofString "0, \x7b'tempo' = 4\x7d"

theorem Compilation.exists_bytes_at_four_beats :
    fourBeats.length < 2 ^ 28 ∧ (compile fourBeats).error? = none ∧
      ∃ b, (compile fourBeats).bytes = .ok b := by
  have hsize : fourBeats.length < 2 ^ 28 := by decide +kernel
  have herror : (compile fourBeats).error? = none := by decide +kernel
  refine ⟨hsize, herror, (Compilation.exists_bytes_iff hsize herror).2 ?_⟩
  intro n hn
  have htempo : (((compile fourBeats).tree.metadata.getD []).get? (Bytes.ofString "tempo")).bind
      Header.tempo? = some (.tempo 15000000) := by decide +kernel
  rw [hn, Option.bind_some] at htempo
  by_contra hslow
  rw [not_or, Int64.not_lt, Int64.not_lt, Int64.le_iff_toInt_le, Int64.le_iff_toInt_le] at hslow
  change 1 ≤ n.toInt ∧ n.toInt ≤ 3 at hslow
  obtain hn | hn | hn : n.toInt = 1 ∨ n.toInt = 2 ∨ n.toInt = 3 := by omega
  · obtain rfl : n = 1 := Int64.toInt_inj.1 hn
    cases htempo
  · obtain rfl : n = 2 := Int64.toInt_inj.1 hn
    cases htempo
  · obtain rfl : n = 3 := Int64.toInt_inj.1 hn
    cases htempo

/-- A note at a tempo that is too slow. -/
def threeBeats : Bytes := Bytes.ofString "0, \x7b'tempo' = 3\x7d"

theorem Compilation.not_exists_bytes_at_three_beats :
    threeBeats.length < 2 ^ 28 ∧ (compile threeBeats).error? = none ∧
      ¬∃ b, (compile threeBeats).bytes = .ok b := by
  have hbytes : (compile threeBeats).bytes =
      .error (.unencodable (.track 0 (.event 0 (.tempoRange 20000000)))) := by decide +kernel
  refine ⟨by decide +kernel, by decide +kernel, ?_⟩
  rw [hbytes]
  simp

end DegreeScore
