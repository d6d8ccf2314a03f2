import DegreeScore.Arrangement
import DegreeScore.Proofs.Midi.Writing
import DegreeScore.Proofs.Plan.Playing

/-!
# The tracks of a performance

The tick of a time is the floor of its value in ticks (`Ratio.pulses_eq_ok_iff`), so later times
have later ticks. In a track of events in order of time no delta wraps round, and no delta is larger
than the last tick. The events of a track are those it was made from, with one that closes it.
-/

namespace DegreeScore

namespace Ratio

theorem toInt_floor_pulses {t : Ratio} (ht : t.Proper) :
    (t.floor pulsesPerWhole).toInt = clamp ⌊t.value * 384⌋ := by
  have h := toInt_floor ht pulsesPerWhole
  rwa [show pulsesPerWhole.toInt = 384 by decide, Int.cast_ofNat] at h

/-- The tick of a time: the floor of its value in ticks, but not below zero. -/
theorem pulses_eq_ok_iff {t : Ratio} (ht : t.Proper) {n : UInt32} :
    t.pulses = .ok n ↔ ⌊t.value * 384⌋ < 2 ^ 28 ∧ (n.toNat : ℤ) = Max.max 0 ⌊t.value * 384⌋ := by
  have hfloor := toInt_floor_pulses ht
  have hneg : t.floor pulsesPerWhole < 0 ↔ (t.floor pulsesPerWhole).toInt < 0 :=
    Int64.lt_iff_toInt_lt
  have hmax : Int64.ofNat Midi.Quantity.maxValue.toNat < t.floor pulsesPerWhole ↔
      2 ^ 28 - 1 < (t.floor pulsesPerWhole).toInt := by
    rw [Int64.lt_iff_toInt_lt]
    exact Iff.rfl
  rw [clamp] at hfloor
  rw [pulses]
  split
  · next h =>
    rw [hneg] at h
    rw [Except.ok.injEq, ← UInt32.toNat_inj, UInt32.toNat_zero]
    omega
  · next h =>
    rw [hneg] at h
    split
    · next hlarge =>
      rw [hmax] at hlarge
      simp only [reduceCtorEq, false_iff]
      omega
    · next hsmall =>
      rw [hmax] at hsmall
      have hlt : (t.floor pulsesPerWhole).toInt.toNat < UInt32.size := by
        rw [UInt32.size]
        omega
      rw [Except.ok.injEq, ← UInt32.toNat_inj, UInt32.toNat_ofNat_of_lt' hlt]
      omega

theorem pulses_lt {t : Ratio} (ht : t.Proper) {n : UInt32} (h : t.pulses = .ok n) :
    n.toNat < 2 ^ 28 := by
  have := (pulses_eq_ok_iff ht).1 h
  omega

theorem pulses_mono {t u : Ratio} (ht : t.Proper) (hu : u.Proper) (hle : t.value ≤ u.value)
    {m n : UInt32} (hm : t.pulses = .ok m) (hn : u.pulses = .ok n) : m.toNat ≤ n.toNat := by
  have hm := ((pulses_eq_ok_iff ht).1 hm).2
  have hn := ((pulses_eq_ok_iff hu).1 hn).2
  have hfloor : ⌊t.value * 384⌋ ≤ ⌊u.value * 384⌋ := Int.floor_le_floor (by linarith)
  omega

end Ratio

namespace Arrangement

/-- Ticks that go up from `before` on have differences that do not wrap round. -/
theorem lt_of_mem_steps {before : UInt32} {ticks : List UInt32} {bound : Nat}
    (hsorted : (before :: ticks).Pairwise fun m n => m.toNat ≤ n.toNat)
    (hbound : ∀ n ∈ ticks, n.toNat < bound) :
    ∀ d ∈ ticks.zipWith (fun now before => now - before) (before :: ticks), d.toNat < bound := by
  induction ticks generalizing before with
  | nil => simp
  | cons n rest ih =>
    obtain ⟨hbefore, hrest⟩ := List.pairwise_cons.1 hsorted
    intro d hd
    rw [List.zipWith_cons_cons] at hd
    rcases List.mem_cons.1 hd with rfl | hd
    · have hle := hbefore n List.mem_cons_self
      have hn := hbound n List.mem_cons_self
      rw [UInt32.toNat_sub_of_le _ _ (UInt32.le_iff_toNat_le.2 hle)]
      omega
    · exact ih hrest (fun m hm => hbound m (List.mem_cons_of_mem n hm)) d hd

theorem length_steps (ticks : List UInt32) : (steps ticks).length = ticks.length := by
  rw [steps, List.length_zipWith, List.length_cons]
  omega

theorem closing_lt {closing last : UInt32} {bound : Nat} (h : closing.toNat < bound) :
    ((if closing < last then last else closing) - last).toNat < bound := by
  split
  · rw [UInt32.sub_self]
    exact Nat.zero_lt_of_lt h
  · next hle =>
    rw [UInt32.toNat_sub_of_le _ _ (UInt32.not_lt.1 hle)]
    omega

/-- The ticks of events in order of time go up. -/
theorem ordered_ticks {events : List TimedEvent} {ticks : List UInt32}
    (htimes : ∀ e ∈ events, e.time.Proper)
    (hordered : events.Pairwise fun a b => a.time.value ≤ b.time.value)
    (h : List.Forall₂ (fun e n => e.time.pulses = .ok n) events ticks) :
    ticks.Pairwise (fun m n => m.toNat ≤ n.toNat) ∧ ∀ n ∈ ticks, n.toNat < 2 ^ 28 := by
  induction h with
  | nil => simp
  | @cons e n events ticks he hrest ih =>
    obtain ⟨hle, hordered⟩ := List.pairwise_cons.1 hordered
    obtain ⟨hproper, htimes⟩ := List.forall_mem_cons.1 htimes
    obtain ⟨hticks, hbound⟩ := ih htimes hordered
    refine ⟨List.pairwise_cons.2 ⟨fun m hm => ?_, hticks⟩, ?_⟩
    · obtain ⟨e', he', hm⟩ := Traversal.exists_of_mem_right hrest hm
      exact Ratio.pulses_mono hproper (htimes e' he') (hle e' he') he hm
    · exact List.forall_mem_cons.2 ⟨Ratio.pulses_lt hproper he, hbound⟩

section

variable {events : List TimedEvent} {deltas : List UInt32}

theorem map_event_placed (h : events.length ≤ deltas.length) :
    (events.zipWith (fun e delta => Midi.TrackEvent.mk delta (some e.event)) deltas).map (·.event) =
      events.map fun e => some e.event := by
  rw [← List.map_uncurry_zip_eq_zipWith, List.map_map]
  change (events.zip deltas).map ((fun e : TimedEvent => some e.event) ∘ Prod.fst) = _
  rw [← List.map_map, List.map_fst_zip h]

theorem map_delta_placed (h : deltas.length ≤ events.length) :
    (events.zipWith (fun e delta => Midi.TrackEvent.mk delta (some e.event)) deltas).map (·.delta) =
      deltas := by
  rw [← List.map_uncurry_zip_eq_zipWith, List.map_map]
  change (events.zip deltas).map Prod.snd = _
  rw [List.map_snd_zip h]

end

/-- There is a track if all events and its end have ticks. -/
theorem track_eq_ok_iff {events : List TimedEvent} {stop : Ratio} {track : Midi.Track} :
    Arrangement.track events stop = .ok track ↔ ∃ ticks closing,
      List.Forall₂ (fun e n => e.time.pulses = .ok n) events ticks ∧ stop.pulses = .ok closing ∧
      events.zipWith (fun e delta => Midi.TrackEvent.mk delta (some e.event)) (steps ticks) ++
        [.ending ((if closing < ticks.getLastD 0 then ticks.getLastD 0 else closing) -
          ticks.getLastD 0)] = track := by
  rw [Arrangement.track]
  constructor
  · intro h
    split at h
    · cases h
    · next ticks hticks =>
      split at h
      · cases h
      · next closing hclosing =>
        exact ⟨ticks, closing, Traversal.mapM_eq_ok_iff.1 hticks, hclosing, Except.ok.inj h⟩
  · rintro ⟨ticks, closing, hpulses, hclosing, rfl⟩
    rw [Traversal.mapM_eq_ok_iff.2 hpulses, hclosing]

/-- What a track holds: the events it was made from and the one that closes it, with deltas that can
be written. -/
theorem track_spec {events : List TimedEvent} {stop : Ratio} {track : Midi.Track}
    (htimes : ∀ e ∈ events, e.time.Proper)
    (hordered : events.Pairwise fun a b => a.time.value ≤ b.time.value) (hstop : stop.Proper)
    (h : Arrangement.track events stop = .ok track) :
    track.map (·.event) = events.map (fun e => some e.event) ++ [some (.info .endOfTrack)] ∧
      ∀ d ∈ track.map (·.delta), d.toNat < 2 ^ 28 := by
  obtain ⟨ticks, closing, hpulses, hclosing, rfl⟩ := track_eq_ok_iff.1 h
  have hlength : (steps ticks).length = events.length := by
    rw [length_steps, hpulses.length_eq]
  obtain ⟨hsorted, hbound⟩ := ordered_ticks htimes hordered hpulses
  rw [List.map_append, List.map_append, map_event_placed hlength.ge, map_delta_placed hlength.le]
  refine ⟨rfl, fun d hd => ?_⟩
  rcases List.mem_append.1 hd with hd | hd
  · have hzero : ((0 : UInt32) :: ticks).Pairwise fun m n => m.toNat ≤ n.toNat :=
      List.pairwise_cons.2 ⟨fun n _ => Nat.zero_le _, hsorted⟩
    exact lt_of_mem_steps hzero hbound d hd
  · obtain rfl := List.mem_singleton.1 hd
    exact closing_lt (Ratio.pulses_lt hstop hclosing)

end Arrangement

namespace Performance

variable {size : Nat} {p : Performance} {extra : List TimedEvent} {f : Midi.File}

/-- Every event is in one of the two parts. -/
theorem mem_parts_iff {e : TimedEvent} :
    (e ∈ extra ++ p.events.filter (fun e => e.event.isMeta) ∨
      e ∈ p.events.filter fun e => !e.event.isMeta) ↔ e ∈ extra ++ p.events := by
  simp only [List.mem_append, List.mem_filter]
  cases e.event.isMeta <;> simp

theorem exists_tracks (hf : p.arrange extra = .ok f) :
    ∃ first second,
      Arrangement.track (Sorting.sort TimedEvent.notAfter
        (extra ++ p.events.filter fun e => e.event.isMeta)) p.duration = .ok first ∧
      Arrangement.track (p.events.filter fun e => !e.event.isMeta) p.duration = .ok second ∧
      f = { format := 1, timing := some (.metric ticksPerQuarter), tracks := [first, second] } := by
  rw [arrange] at hf
  split at hf
  · cases hf
  · next first hfirst =>
    split at hf
    · cases hf
    · next second hsecond => exact ⟨first, second, hfirst, hsecond, (Except.ok.inj hf).symm⟩

/-- A file of two tracks: meta events and those in `extra` on the first, messages on the second. -/
theorem Sound.arrange_spec (h : p.Sound size) (hextra : ∀ e ∈ extra, e.time.IsTime)
    (hf : p.arrange extra = .ok f) :
    f.format = 1 ∧ f.timing = some (.metric ticksPerQuarter) ∧ f.tracks.length = 2 ∧
      (∀ t ∈ f.tracks, ∀ e ∈ t, e.delta.toNat < 2 ^ 28) ∧
      ∀ event, (∃ t ∈ f.tracks, ∃ e ∈ t, e.event = event) ↔
        (∃ e ∈ extra ++ p.events, some e.event = event) ∨ event = some (.info .endOfTrack) := by
  have hinfo : ∀ e ∈ extra ++ p.events.filter (fun e => e.event.isMeta), e.time.IsTime := by
    intro e he
    rcases List.mem_append.1 he with he | he
    · exact hextra e he
    · exact (h.events e (List.mem_of_mem_filter he)).time
  have hsort := TimedEvent.isStable_sort hinfo
  obtain ⟨first, second, hfirst, hsecond, rfl⟩ := exists_tracks hf
  obtain ⟨hevents₁, hdeltas₁⟩ := Arrangement.track_spec
    (fun e he => (hinfo e ((hsort.mem_iff e).1 he)).proper) hsort.ordered h.duration.proper
    hfirst
  obtain ⟨hevents₂, hdeltas₂⟩ := Arrangement.track_spec
    (fun e he => (h.events e (List.mem_of_mem_filter he)).time.proper)
    (h.ordered.filter _) h.duration.proper hsecond
  have hmem : ∀ e, (e ∈ Sorting.sort TimedEvent.notAfter
      (extra ++ p.events.filter fun e => e.event.isMeta) ∨
        e ∈ p.events.filter fun e => !e.event.isMeta) ↔ e ∈ extra ++ p.events := fun e => by
    rw [hsort.mem_iff, mem_parts_iff]
  refine ⟨rfl, rfl, rfl, ?_, fun event => ?_⟩
  · intro t ht e he
    rcases List.mem_cons.1 ht with rfl | ht
    · exact hdeltas₁ e.delta (List.mem_map_of_mem he)
    · obtain rfl := List.mem_singleton.1 ht
      exact hdeltas₂ e.delta (List.mem_map_of_mem he)
  · have htracks : (∃ t ∈ [first, second], ∃ e ∈ t, e.event = event) ↔
        event ∈ first.map (·.event) ∨ event ∈ second.map (·.event) := by
      simp only [List.mem_cons, List.not_mem_nil, or_false, exists_eq_or_imp, exists_eq_left,
        List.mem_map]
    rw [htracks, hevents₁, hevents₂]
    simp only [← hmem, List.mem_append, List.mem_map, List.mem_singleton, or_and_right,
      exists_or]
    rw [or_or_or_comm, or_self]

end Performance

end DegreeScore
