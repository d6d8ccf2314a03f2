import DegreeScore.Proofs.Compilation
import DegreeScore.Proofs.Placing
import DegreeScore.Proofs.Plan.Balance

/-!
# Where notes and tracks end

A performance begins at zero and holds all its events up to its duration, with every note ended
(`Tree.Sound.perform_spans`). Its tracks end with it: the deltas of a track add up to the tick of the
duration, since no event lies later (`Arrangement.sum_delta_track`).
-/

namespace DegreeScore

theorem Spans.perm {start stop : Ratio} {es fs : List TimedEvent} (h : Spans start stop es)
    (hperm : fs.Perm es) : Spans start stop fs := by
  obtain ⟨notes, hnotes⟩ := h.noted
  exact ⟨fun e he => h.time e (hperm.mem_iff.1 he), fun e he => h.within e (hperm.mem_iff.1 he),
    notes, hnotes.of_perm hperm⟩

/-- The events of a performance lie between zero and its duration. -/
theorem Tree.Sound.perform_spans {size : Nat} {tree : Tree} (h : tree.Sound size) {p : Performance}
    (hp : tree.perform = .ok p) : Spans .zero p.duration p.events := by
  obtain ⟨vs, stop, u, hwalk, rfl⟩ := h.exists_walk hp
  obtain ⟨hstretch, -⟩ := hwalk.stretch (.initial _) Ratio.isTime_zero le_rfl
  obtain ⟨new, hnew, hspans⟩ := hstretch.events
  obtain rfl : u.events.toList = new := hnew
  exact hspans.perm (TimedEvent.isStable_sort hspans.time).perm

-- ════════════════════════════════════════════════════════════════════════
-- Tracks
-- ════════════════════════════════════════════════════════════════════════

/-- Messages are what notes are made of, so the events of a second track are paired. -/
theorem Paired.messages {channel key : UInt8} {es : List TimedEvent} (h : Paired channel key es) :
    Paired channel key (es.filter fun e => !e.event.isMeta) := by
  have hon : ∀ e : TimedEvent, e.event.isNoteOn channel key → !e.event.isMeta := by
    rintro ⟨t, _ | _⟩ he <;> simp_all [Midi.Event.isNoteOn, Midi.Event.isMeta]
  have hoff : ∀ e : TimedEvent, e.event.isNoteOff channel key → !e.event.isMeta := by
    rintro ⟨t, _ | _⟩ he <;> simp_all [Midi.Event.isNoteOff, Midi.Event.isMeta]
  exact (Paired.filter_iff hon hoff).2 h

/-- The tick at which a track ends. -/
def Midi.Track.ticks (track : Midi.Track) : Nat := (track.map (·.delta.toNat)).sum

namespace Arrangement

/-- The events have ticks, and none of them is after the tick of `stop`. -/
def InTime (events : List TimedEvent) (stop : Ratio) : Prop :=
  ∃ ticks closing, events.mapM (fun e => e.time.pulses) = .ok ticks ∧ stop.pulses = .ok closing ∧
    ¬closing < ticks.getLastD 0

/-- A track whose events all lie before its end: no event is too late for the closing one, and the
deltas add up to the tick of the end. -/
theorem closes_track {events : List TimedEvent} {stop : Ratio} {track : Midi.Track}
    (hspans : ∀ e ∈ events, e.time.IsTime ∧ e.time.value ≤ stop.value)
    (hordered : events.Pairwise fun a b => a.time.value ≤ b.time.value) (hstop : stop.IsTime)
    (h : Arrangement.track events stop = .ok track) :
    InTime events stop ∧ (track.ticks : ℤ) = ⌊384 * stop.value⌋ ∧
      ∃ before delta, track = before ++ [.ending delta] := by
  have hplaces := places_track (fun e he => (hspans e he).1.proper) hordered hstop.proper h
  obtain ⟨ticks, closing, hpulses, hclosing, rfl⟩ := track_eq_ok_iff.1 h
  have hlast : (events.map (·.time.moment)).getLastD 0 ≤ stop.moment := by
    rcases List.eq_nil_or_concat' events with rfl | ⟨init, last, rfl⟩
    · exact Nat.zero_le _
    · rw [List.map_append, List.map_singleton, List.getLastD_concat]
      exact Ratio.moment_mono (hspans last (by simp)).2
  have hnonneg : 0 ≤ ⌊384 * stop.value⌋ :=
    Int.floor_nonneg.2 (mul_nonneg (by norm_num) hstop.value_nonneg)
  refine ⟨⟨ticks, closing, Traversal.mapM_eq_ok_iff.2 hpulses, hclosing, ?_⟩, ?_, _, _, rfl⟩
  · rwa [UInt32.not_lt, UInt32.le_iff_toNat_le,
      ← getLastD_moment (fun e he => (hspans e he).1.proper) hpulses,
      ((Ratio.pulses_eq_ok_iff_moment hstop.proper).1 hclosing).2]
  · have hsum : Midi.Track.ticks _ = stop.moment := hplaces.sum_delta.trans (max_eq_left hlast)
    rw [hsum, Ratio.moment, Int.toNat_of_nonneg hnonneg]

/-- The event that closes a track is no note, so notes that are paired are balanced in their track. -/
theorem balanced_track {channel key : UInt8} {events : List TimedEvent} {stop : Ratio}
    {track : Midi.Track} (hpaired : Paired channel key events)
    (hspans : ∀ e ∈ events, e.time.IsTime ∧ e.time.value ≤ stop.value)
    (hordered : events.Pairwise fun a b => a.time.value ≤ b.time.value) (hstop : stop.IsTime)
    (h : Arrangement.track events stop = .ok track) :
    Midi.Balanced channel key (track.filterMap (·.event)) := by
  have hevents := (track_spec (fun e he => (hspans e he).1.proper) hordered hstop.proper h).1
  let closed := events ++ [⟨stop, .info .endOfTrack⟩]
  have hmap : track.filterMap (·.event) = closed.map (·.event) := by
    have hid : track.filterMap (·.event) = (track.map (·.event)).filterMap id := by
      rw [List.filterMap_map]
      rfl
    rw [hid, hevents]
    simp [closed, List.filterMap_append]
  have hclosed : closed.Pairwise fun a b => a.time.value ≤ b.time.value := by
    refine List.pairwise_append.2 ⟨hordered, List.pairwise_singleton .., fun e he f hf => ?_⟩
    obtain rfl := List.mem_singleton.1 hf
    exact (hspans e he).2
  rw [hmap]
  exact (hpaired.append (.other rfl rfl)).balanced hclosed

end Arrangement

-- ════════════════════════════════════════════════════════════════════════
-- Compiled sources
-- ════════════════════════════════════════════════════════════════════════

/-- In what compiles all events lie between zero and the duration, in order of time. For every
channel and key no stretch from the beginning on has more ends than starts of notes, and in all there
are as many; this holds of the performance and of the track of its messages. Both tracks end with the
tick of the duration, and the last event of neither is after it. -/
theorem Compilation.balanced_and_closed {src : Bytes} (h : (compile src).error? = none) :
    ∃ p f first second, (compile src).outcome = .compiled p f ∧ f.tracks = [first, second] ∧
      p.duration.IsTime ∧
      (∀ e ∈ p.events, e.time.IsTime ∧ 0 ≤ e.time.value ∧ e.time.value ≤ p.duration.value) ∧
      p.events.Pairwise (fun a b => a.time.value ≤ b.time.value) ∧
      (∀ channel key, Midi.Balanced channel key (p.events.map (·.event)) ∧
        Midi.Balanced channel key (second.filterMap (·.event))) ∧
      (∀ track ∈ [first, second], (track.ticks : ℤ) = ⌊384 * p.duration.value⌋ ∧
        ∃ before delta, track = before ++ [.ending delta]) ∧
      Arrangement.InTime (Sorting.sort TimedEvent.notAfter
        (Header.events (compile src).tree.metadata ++ p.events.filter fun e => e.event.isMeta))
        p.duration ∧
      Arrangement.InTime (p.events.filter fun e => !e.event.isMeta) p.duration := by
  obtain ⟨p, f, hc⟩ := Compilation.exists_compiled_of_error?_eq_none h
  obtain ⟨hp, hf⟩ := Compilation.perform_of_compiled hc
  obtain ⟨first, second, hfirst, hsecond, rfl⟩ := Performance.exists_tracks hf
  have hsound : (compile src).tree.Sound src.length := (Tree.parse_sound src).1
  have hspans := hsound.perform_spans hp
  obtain ⟨hduration, -, hordered⟩ := hsound.perform_sound hp
  have hall : ∀ e ∈ Header.events (compile src).tree.metadata ++ p.events,
      e.time.IsTime ∧ e.time.value ≤ p.duration.value := by
    intro e he
    rcases List.mem_append.1 he with he | he
    · obtain ⟨_, _, _, _, _, _, rfl⟩ := Header.mem_events_iff.1 he
      exact ⟨Ratio.isTime_zero, Ratio.value_zero.trans_le hduration.value_nonneg⟩
    · exact ⟨hspans.time e he, (hspans.within e he).2⟩
  have hinfo : ∀ e ∈ Header.events (compile src).tree.metadata ++
      p.events.filter (fun e => e.event.isMeta),
      e.time.IsTime ∧ e.time.value ≤ p.duration.value := fun e he =>
    hall e ((List.mem_append.1 he).elim (List.mem_append_left _) fun he =>
      List.mem_append_right _ (List.mem_of_mem_filter he))
  have hsort := TimedEvent.isStable_sort fun e he => (hinfo e he).1
  have hmessages : ∀ e ∈ p.events.filter (fun e => !e.event.isMeta),
      e.time.IsTime ∧ e.time.value ≤ p.duration.value := fun e he =>
    hall e (List.mem_append_right _ (List.mem_of_mem_filter he))
  obtain ⟨hin, hticks, hending⟩ := Arrangement.closes_track
    (fun e he => hinfo e ((hsort.mem_iff e).1 he)) hsort.ordered hduration hfirst
  obtain ⟨hin', hticks', hending'⟩ := Arrangement.closes_track hmessages (hordered.filter _)
    hduration hsecond
  refine ⟨p, _, first, second, hc, rfl, hduration, ?_, hordered, fun channel key => ⟨?_, ?_⟩, ?_, hin,
    hin'⟩
  · intro e he
    exact ⟨hspans.time e he, (hspans.time e he).value_nonneg, (hspans.within e he).2⟩
  · exact (hspans.paired channel key).balanced hordered
  · exact Arrangement.balanced_track (hspans.paired channel key).messages hmessages
      (hordered.filter _) hduration hsecond
  · exact List.forall_mem_cons.2 ⟨⟨hticks, hending⟩, List.forall_mem_singleton.2 ⟨hticks', hending'⟩⟩

/-- Two voices of which the first plays in triplets, with a section, a program and a title. -/
def twoTracks : Bytes :=
  Bytes.ofString "\x7b[$x = _/3 [0 1] 2 $x] ['program_5' _1 4]\x7d, \x7b'title' = 'Song'\x7d"

theorem Compilation.balanced_and_closed_twoTracks :
    (compile twoTracks).error? = none ∧
      ∃ p f first second, (compile twoTracks).outcome = .compiled p f ∧ f.tracks = [first, second] ∧
        ∀ track ∈ [first, second], (track.ticks : ℤ) = ⌊384 * p.duration.value⌋ := by
  have herror : (compile twoTracks).error? = none := by decide +kernel
  obtain ⟨p, f, first, second, hc, htracks, -, -, -, -, hticks, -⟩ :=
    Compilation.balanced_and_closed herror
  exact ⟨herror, p, f, first, second, hc, htracks, fun track ht => (hticks track ht).1⟩

end DegreeScore
