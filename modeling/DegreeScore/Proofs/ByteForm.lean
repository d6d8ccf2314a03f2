import DegreeScore.Proofs.Midi.RoundTrip
import DegreeScore.Proofs.Plan.Voicing
import DegreeScore.Proofs.Timing

/-!
# What compiles is read back

The messages of a performance are in the range of the format, so a compiled file that is written is
read back as it was (`Compilation.decode_of_bytes`). Of its two tracks the first has all the meta
events and the second all the messages, and each ends with the one event that closes it.
-/

namespace DegreeScore

/-- Nothing of a voiced event is cut off. -/
theorem Midi.Event.Voiced.inRange {e : Midi.Event} (h : e.Voiced) : e.InRange := by
  have hdata : ∀ {b : UInt8}, b ≤ 127 → b < 0x80 := by
    intro b hb
    exact UInt8.lt_of_le_of_lt hb (by decide)
  cases h with
  | noteOn hchannel hkey hvelocity =>
    refine ⟨hchannel.1, List.forall_mem_cons.2 ⟨hdata hkey, ?_⟩⟩
    exact List.forall_mem_singleton.2 (hdata hvelocity.2)
  | noteOff hchannel hkey =>
    refine ⟨hchannel.1, List.forall_mem_cons.2 ⟨hdata hkey, ?_⟩⟩
    exact List.forall_mem_singleton.2 (by decide)
  | program hchannel hp => exact ⟨hchannel.1, List.forall_mem_singleton.2 (hdata hp)⟩
  | text => trivial

theorem Midi.Event.inRange_of_isMeta {e : Midi.Event} (h : e.isMeta = true) : e.InRange := by
  cases e with
  | channel => cases h
  | info => trivial

/-- The events of a header do not close a track. -/
theorem Header.ne_endOfTrack_of_mem_events {metadata : Option Table} {e : TimedEvent}
    (h : e ∈ events metadata) : e.event.isMeta = true ∧ e.event ≠ .info .endOfTrack := by
  obtain ⟨entry, hentry, v, event, -, hevent, rfl⟩ := mem_events_iff.1 h
  refine ⟨rfl, ?_⟩
  rintro ⟨⟩
  simp only [known, List.mem_cons, List.not_mem_nil, or_false] at hentry
  rcases hentry with rfl | rfl | rfl | rfl
  · cases v <;> cases hevent
  · cases v <;> cases hevent
  · dsimp only at hevent
    rw [tempo?.eq_def] at hevent
    split at hevent
    · split at hevent <;> cases hevent
    · cases hevent
  · dsimp only at hevent
    rw [timeSignature?.eq_def] at hevent
    split at hevent
    · split at hevent <;> cases hevent
    · cases hevent

/-- The track holds the events in order, and then the one that closes it, which is none of them. -/
structure Midi.Track.Holds (t : Midi.Track) (events : List TimedEvent) : Prop where
  held : t.map (·.event) = events.map (fun e => some e.event) ++ [some (.info .endOfTrack)]
  closed : ∀ e ∈ events, e.event ≠ .info .endOfTrack

theorem Midi.Track.Holds.inRange {t : Midi.Track} {events : List TimedEvent} (h : t.Holds events)
    (hevents : ∀ e ∈ events, e.event.InRange) : ∀ e ∈ t, ∀ event ∈ e.event, event.InRange := by
  intro e he event hevent
  have hmem : e.event ∈ t.map (·.event) := List.mem_map_of_mem he
  rw [h.held, hevent] at hmem
  rcases List.mem_append.1 hmem with hmem | hmem
  · obtain ⟨e', he', heq⟩ := List.mem_map.1 hmem
    exact Option.some.inj heq ▸ hevents e' he'
  · obtain rfl := Option.some.inj (List.mem_singleton.1 hmem)
    trivial

/-- The file has two tracks at 96 ticks a quarter note: one of the meta events of the performance and
those in `extra`, and one of its messages. -/
structure Midi.File.Arranges (f : Midi.File) (p : Performance) (extra : List TimedEvent) : Prop where
  format : f.format = 1
  timing : f.timing = some (.metric 96)
  tracks : ∃ first second infos, f.tracks = [first, second] ∧
    infos.Perm (extra ++ p.events.filter fun e => e.event.isMeta) ∧
    (∀ e ∈ infos, e.event.isMeta = true) ∧ first.Holds infos ∧
    second.Holds (p.events.filter fun e => !e.event.isMeta)

theorem Midi.File.Arranges.inRange {f : Midi.File} {p : Performance} {extra : List TimedEvent}
    (h : f.Arranges p extra) (hp : ∀ e ∈ p.events, e.event.Voiced) : f.InRange := by
  obtain ⟨first, second, infos, htracks, -, hinfos, hfirst, hsecond⟩ := h.tracks
  intro t ht
  rw [htracks] at ht
  rcases List.mem_pair.1 ht with rfl | rfl
  · exact hfirst.inRange fun e he => Midi.Event.inRange_of_isMeta (hinfos e he)
  · exact hsecond.inRange fun e he => (hp e (List.mem_of_mem_filter he)).inRange

/-- What is played and arranged gives such a file, if neither the score nor the header closes a
track. -/
theorem Performance.Sound.arranges {size : Nat} {p : Performance} {extra : List TimedEvent}
    {f : Midi.File} (h : p.Sound size) (hp : ∀ e ∈ p.events, e.event.Voiced)
    (hextra : ∀ e ∈ extra, e.time.IsTime ∧ e.event.isMeta = true ∧ e.event ≠ .info .endOfTrack)
    (hf : p.arrange extra = .ok f) : f.Arranges p extra := by
  have hinfo : ∀ e ∈ extra ++ p.events.filter (fun e => e.event.isMeta),
      e.time.IsTime ∧ e.event.isMeta = true ∧ e.event ≠ .info .endOfTrack := by
    intro e he
    rcases List.mem_append.1 he with he | he
    · exact hextra e he
    · obtain ⟨he, hmeta⟩ := List.mem_filter.1 he
      refine ⟨(h.events e he).time, hmeta, fun hend => ?_⟩
      have hvoiced := hp e he
      rw [hend] at hvoiced
      cases hvoiced
  have hsort := TimedEvent.isStable_sort fun e he => (hinfo e he).1
  have hsorted := fun e he => hinfo e ((hsort.mem_iff e).1 he)
  obtain ⟨first, second, hfirst, hsecond, rfl⟩ := exists_tracks hf
  refine ⟨rfl, rfl, first, second, _, rfl, hsort.perm, fun e he => (hsorted e he).2.1,
    ⟨?_, fun e he => (hsorted e he).2.2⟩, ?_, fun e he hend => ?_⟩
  · exact (Arrangement.track_spec (fun e he => (hsorted e he).1.proper) hsort.ordered
      h.duration.proper hfirst).1
  · exact (Arrangement.track_spec
      (fun e he => (h.events e (List.mem_of_mem_filter he)).time.proper) (h.ordered.filter _)
      h.duration.proper hsecond).1
  · have hmessage := (List.mem_filter.1 he).2
    rw [hend] at hmessage
    cases hmessage

theorem Compilation.exists_compiled_of_bytes {c : Compilation} {b : Bytes} (h : c.bytes = .ok b) :
    ∃ p f, c.outcome = .compiled p f ∧ f.encode = .ok b := by
  rw [bytes, file?] at h
  split at h
  · cases h
  · next f hf =>
    split at hf
    · next p f hc =>
      obtain rfl := Option.some.inj hf
      split at h
      · cases h
      · next b hb => exact ⟨p, _, hc, Except.ok.inj h ▸ hb⟩
    · cases hf

/-- A compiled file arranges its performance under the header of the source. -/
theorem Compilation.arranges_of_compiled {src : Bytes} {p : Performance} {f : Midi.File}
    (h : (compile src).outcome = .compiled p f) :
    (∀ e ∈ p.events, e.event.Voiced) ∧
      f.Arranges p (Header.events (compile src).tree.metadata) := by
  obtain ⟨hp, hf⟩ := perform_of_compiled h
  have hvoiced := Tree.voiced_of_perform hp
  have hsound : (compile src).tree.Sound src.length := (Tree.parse_sound src).1
  exact ⟨hvoiced, (hsound.perform_sound hp).arranges hvoiced
    (fun e he => ⟨Header.isTime_of_mem_events he, Header.ne_endOfTrack_of_mem_events he⟩) hf⟩

/-- The messages of every performance are in the range of the format. So a source that compiles to
bytes compiles to the file that is read from them, if the lengths of its tracks fit before them; its
first track has the meta events and its second the messages. -/
theorem Compilation.decode_of_bytes :
    (∀ (tree : Tree) (p : Performance), tree.perform = .ok p → ∀ e ∈ p.events, e.event.Voiced) ∧
      ∀ (src b : Bytes), (compile src).bytes = .ok b →
        ∃ p f, (compile src).outcome = .compiled p f ∧
          f.Arranges p (Header.events (compile src).tree.metadata) ∧
          ((∀ t ∈ f.tracks, ∀ body, t.body = .ok body → body.length < 2 ^ 32) →
            Midi.File.decode b = .ok f) := by
  refine ⟨fun tree p hp => Tree.voiced_of_perform hp, fun src b hb => ?_⟩
  obtain ⟨p, f, hc, hencode⟩ := exists_compiled_of_bytes hb
  obtain ⟨hp, hf⟩ := perform_of_compiled hc
  have hvoiced := Tree.voiced_of_perform hp
  have hsound : (compile src).tree.Sound src.length := (Tree.parse_sound src).1
  have harranges := (hsound.perform_sound hp).arranges hvoiced
    (fun e he => ⟨Header.isTime_of_mem_events he, Header.ne_endOfTrack_of_mem_events he⟩) hf
  refine ⟨p, f, hc, harranges, fun hlength => ?_⟩
  exact Midi.File.decode_encoded hencode hlength (harranges.inRange hvoiced)

theorem Compilation.decode_of_bytes_twoTracks :
    ∃ b p f, (compile twoTracks).bytes = .ok b ∧ (compile twoTracks).tree.perform = .ok p ∧
      (∀ e ∈ p.events, e.event.Voiced) ∧ (compile twoTracks).outcome = .compiled p f ∧
      (∀ t ∈ f.tracks, ∀ body, t.body = .ok body → body.length < 2 ^ 32) ∧
      Midi.File.decode b = .ok f := by
  obtain ⟨hvoiced, hdecode⟩ := Compilation.decode_of_bytes
  have hbytes : (compile twoTracks).bytes.toOption.isSome = true := by decide +kernel
  have hshort : ((compile twoTracks).file?.all fun f => f.tracks.all fun t =>
      t.body.toOption.all fun body => body.length < 2 ^ 32) = true := by decide +kernel
  cases hb : (compile twoTracks).bytes with
  | error e =>
    rw [hb] at hbytes
    cases hbytes
  | ok b =>
    obtain ⟨p, f, hc, -, hread⟩ := hdecode twoTracks b hb
    have hp := (perform_of_compiled hc).1
    have hlength : ∀ t ∈ f.tracks, ∀ body, t.body = .ok body → body.length < 2 ^ 32 := by
      intro t ht body hbody
      rw [file?, hc, Option.all_some, List.all_eq_true] at hshort
      have ht := hshort t ht
      rw [hbody] at ht
      exact of_decide_eq_true ht
    exact ⟨b, p, f, rfl, hp, hvoiced _ p hp, hc, hlength, hread hlength⟩

end DegreeScore
