import DegreeScore.Proofs.Arrangement

/-!
# Where the events of a performance are placed

The tick of a time is exact, and earlier times have smaller ticks (`Ratio.floor_pulses_exact`). An
event is at the tick of its time, wherever the events before it are: the delta times of a track,
added up as natural numbers, are the ticks of its events (`Arrangement.places_track`). So what is cut
off a time does not add up, and no delta time wraps round. Times before zero are at tick zero, and an
event after the end of the piece moves the end of its track. There is a file unless a time has a tick
that is too large (`Performance.arrange_places`).
-/

namespace DegreeScore

namespace Ratio

/-- The ticks that have passed since time zero, of which a whole note has 384. Before it none have. -/
def moment (t : Ratio) : Nat := ⌊384 * t.value⌋.toNat

/-- The tick of the time cannot be written as a delta time. -/
def TooLate (t : Ratio) : Prop := (Midi.Quantity.maxValue.toNat : ℤ) < ⌊384 * t.value⌋

variable {t : Ratio}

theorem moment_mono {u : Ratio} (h : t.value ≤ u.value) : t.moment ≤ u.moment :=
  Int.toNat_le_toNat (Int.floor_le_floor (by linarith))

theorem pulses_eq_ok_iff_moment (ht : t.Proper) {n : UInt32} :
    t.pulses = .ok n ↔ ¬t.TooLate ∧ n.toNat = t.moment := by
  have hmax : Midi.Quantity.maxValue.toNat = 2 ^ 28 - 1 := rfl
  rw [pulses_eq_ok_iff ht, TooLate, moment, mul_comm, hmax]
  omega

/-- A time is refused exactly if its tick is too large, and the complaint is about it. -/
theorem pulses_eq_error_iff (ht : t.Proper) {e : TooLong} :
    t.pulses = .error e ↔ t.TooLate ∧ e = ⟨t, t.floor pulsesPerWhole⟩ := by
  have hrefused : ∀ {e}, t.pulses = .error e → e = ⟨t, t.floor pulsesPerWhole⟩ := by
    intro e h
    rw [pulses] at h
    split at h
    · cases h
    · split at h
      · exact (Except.error.inj h).symm
      · cases h
  have hfound : ¬t.TooLate → t.pulses = .ok (UInt32.ofNat t.moment) := by
    intro hlate
    have hlt : t.moment < UInt32.size := by
      rw [TooLate, show Midi.Quantity.maxValue.toNat = 2 ^ 28 - 1 from rfl] at hlate
      rw [moment, UInt32.size]
      omega
    exact (pulses_eq_ok_iff_moment ht).2 ⟨hlate, UInt32.toNat_ofNat_of_lt' hlt⟩
  constructor
  · intro h
    refine ⟨?_, hrefused h⟩
    by_contra hlate
    rw [hfound hlate] at h
    cases h
  · rintro ⟨hlate, rfl⟩
    cases hp : t.pulses with
    | error e => rw [hrefused hp]
    | ok n => exact absurd hlate ((pulses_eq_ok_iff_moment ht).1 hp).1

theorem tooLate_of_pulses {e : TooLong} (ht : t.Proper) (h : t.pulses = .error e) :
    e.time = t ∧ t.TooLate := by
  obtain ⟨hlate, rfl⟩ := (pulses_eq_error_iff ht).1 h
  exact ⟨rfl, hlate⟩

theorem exists_pulses_iff (ht : t.Proper) : (∃ n, t.pulses = .ok n) ↔ ¬t.TooLate := by
  constructor
  · rintro ⟨n, h⟩
    exact ((pulses_eq_ok_iff_moment ht).1 h).1
  · intro h
    cases hp : t.pulses with
    | error e => exact absurd (tooLate_of_pulses ht hp).2 h
    | ok n => exact ⟨n, rfl⟩

/-- No time before one that has a tick is too late. -/
theorem exists_pulses_le {u : Ratio} (ht : t.Proper) (hu : u.Proper) (hle : t.value ≤ u.value)
    {n : UInt32} (hn : u.pulses = .ok n) : ∃ m ≤ n, t.pulses = .ok m := by
  have hlate : ¬t.TooLate := fun h =>
    ((pulses_eq_ok_iff_moment hu).1 hn).1 (h.trans_le (Int.floor_le_floor (by linarith)))
  obtain ⟨m, hm⟩ := (exists_pulses_iff ht).2 hlate
  exact ⟨m, UInt32.le_iff_toNat_le.2 (pulses_mono ht hu hle hm hn), hm⟩

/-- The whole number below a multiple is exact within the range of words. A time is refused exactly
if its tick is too large; else the tick is what has passed since time zero, and earlier times have
smaller ticks. -/
theorem floor_pulses_exact (ht : t.Proper) :
    (∀ n : Int64, (t.floor n).toInt = clamp ⌊t.value * n.toInt⌋) ∧
    (∀ e, t.pulses = .error e ↔ t.TooLate ∧ e = ⟨t, t.floor pulsesPerWhole⟩) ∧
    (∀ n, t.pulses = .ok n ↔ ¬t.TooLate ∧ (n.toNat : ℤ) = Max.max 0 ⌊384 * t.value⌋) ∧
    ∀ u : Ratio, u.Proper → u.value ≤ t.value → ∀ n, t.pulses = .ok n →
      ∃ m ≤ n, u.pulses = .ok m := by
  refine ⟨toInt_floor ht, fun e => pulses_eq_error_iff ht, fun n => ?_,
    fun u hu hle n hn => exists_pulses_le hu ht hle hn⟩
  rw [pulses_eq_ok_iff_moment ht, moment]
  exact and_congr_right fun _ => by omega

/-- A time just before two whole notes, whose ticks are worked out beyond the words. -/
theorem floor_pulses_exact_wide :
    let t : Ratio := ⟨4611686018427387904, 2305843009213693953⟩
    t.Proper ∧ mul? t.num pulsesPerWhole = none ∧ (t.floor pulsesPerWhole).toInt = 767 ∧
      ∃ m ≤ 768, t.pulses = .ok m := by
  intro t
  have ht : t.Proper := show 0 < t.den.toInt by decide
  obtain ⟨hfloor, -, -, -⟩ := floor_pulses_exact ht
  have htwo : (⟨2, 1⟩ : Ratio).Proper := show 0 < (1 : Int64).toInt by decide
  refine ⟨ht, by decide, ?_, ?_⟩
  · rw [hfloor]
    decide +kernel
  · exact (floor_pulses_exact htwo).2.2.2 t ht (by decide +kernel) 768 (by decide +kernel)

end Ratio

/-- The running sums of delta times, as natural numbers, counted from `before`. -/
def Midi.moments (before : Nat) : List UInt32 → List Nat
  | [] => []
  | d :: deltas => (before + d.toNat) :: moments (before + d.toNat) deltas

/-- The last running sum is the sum. -/
theorem Midi.getLastD_moments (before : Nat) (deltas : List UInt32) :
    (moments before deltas).getLastD before = before + (deltas.map (·.toNat)).sum := by
  induction deltas generalizing before with
  | nil => rfl
  | cons d deltas ih =>
    rw [moments, List.getLastD_cons, ih, List.map_cons, List.sum_cons, Nat.add_assoc]

namespace Arrangement

/-- Ticks that do not go down are the running sums of their differences. -/
theorem moments_steps {before : UInt32} {ticks : List UInt32} (rest : List UInt32)
    (hsorted : (before :: ticks).Pairwise fun m n => m.toNat ≤ n.toNat) :
    Midi.moments before.toNat
        (ticks.zipWith (fun now before => now - before) (before :: ticks) ++ rest) =
      ticks.map (·.toNat) ++ Midi.moments (ticks.getLastD before).toNat rest := by
  induction ticks generalizing before with
  | nil => rfl
  | cons n ticks ih =>
    obtain ⟨hbefore, hticks⟩ := List.pairwise_cons.1 hsorted
    have hle : before ≤ n := UInt32.le_iff_toNat_le.2 (hbefore n List.mem_cons_self)
    have hmoment : before.toNat + (n - before).toNat = n.toNat := by
      rw [UInt32.toNat_sub_of_le _ _ hle]
      exact Nat.add_sub_cancel' (hbefore n List.mem_cons_self)
    rw [List.zipWith_cons_cons, List.cons_append, Midi.moments, hmoment, ih hticks,
      List.map_cons, List.cons_append, List.getLastD_cons]

/-- The track holds the events, each at the tick of its time, and ends at the tick of `stop` or at
that of the last event if it is later. -/
structure Places (events : List TimedEvent) (stop : Ratio) (track : Midi.Track) : Prop where
  order : track.map (·.event) = events.map (fun e => some e.event) ++ [some (.info .endOfTrack)]
  moments : Midi.moments 0 (track.map (·.delta)) =
    events.map (·.time.moment) ++ [max stop.moment ((events.map (·.time.moment)).getLastD 0)]

variable {events : List TimedEvent} {stop : Ratio}

/-- A track lasts as long as its end is away. -/
theorem Places.sum_delta {track : Midi.Track} (h : Places events stop track) :
    (track.map (·.delta.toNat)).sum =
      max stop.moment ((events.map (·.time.moment)).getLastD 0) := by
  have hlast := Midi.getLastD_moments 0 (track.map (·.delta))
  rw [h.moments, List.getLastD_concat, Nat.zero_add, List.map_map] at hlast
  exact hlast.symm

/-- There is a track unless a time is too late. -/
theorem exists_track_iff (htimes : ∀ e ∈ events, e.time.Proper) (hstop : stop.Proper) :
    (∃ track, Arrangement.track events stop = .ok track) ↔
      ¬stop.TooLate ∧ ∀ e ∈ events, ¬e.time.TooLate := by
  have hevents : (∃ ticks, List.Forall₂ (fun e n => e.time.pulses = .ok n) events ticks) ↔
      ∀ e ∈ events, ¬e.time.TooLate := by
    rw [Traversal.exists_forall₂_iff]
    exact forall₂_congr fun e he => Ratio.exists_pulses_iff (htimes e he)
  rw [← hevents, ← Ratio.exists_pulses_iff hstop]
  constructor
  · rintro ⟨track, h⟩
    obtain ⟨ticks, closing, hticks, hclosing, -⟩ := track_eq_ok_iff.1 h
    exact ⟨⟨closing, hclosing⟩, ticks, hticks⟩
  · rintro ⟨⟨closing, hclosing⟩, ticks, hticks⟩
    exact ⟨_, track_eq_ok_iff.2 ⟨ticks, closing, hticks, hclosing, rfl⟩⟩

/-- The complaint is about a time that is too late. -/
theorem tooLate_of_track {e : TooLong} (htimes : ∀ e ∈ events, e.time.Proper)
    (hstop : stop.Proper) (h : Arrangement.track events stop = .error e) :
    e.time ∈ stop :: events.map (·.time) ∧ e.time.TooLate := by
  rw [Arrangement.track] at h
  split at h
  · next hticks =>
    obtain rfl := Except.error.inj h
    obtain ⟨event, hevent, herror⟩ := Traversal.exists_of_mapM_eq_error hticks
    obtain ⟨htime, hlate⟩ := Ratio.tooLate_of_pulses (htimes event hevent) herror
    rw [htime]
    exact ⟨List.mem_cons_of_mem _ (List.mem_map_of_mem hevent), hlate⟩
  · split at h
    · next hclosing =>
      obtain rfl := Except.error.inj h
      obtain ⟨htime, hlate⟩ := Ratio.tooLate_of_pulses hstop hclosing
      rw [htime]
      exact ⟨List.mem_cons_self, hlate⟩
    · cases h

theorem map_moment {ticks : List UInt32} (htimes : ∀ e ∈ events, e.time.Proper)
    (h : List.Forall₂ (fun e n => e.time.pulses = .ok n) events ticks) :
    events.map (·.time.moment) = ticks.map (·.toNat) := by
  induction h with
  | nil => rfl
  | cons he _ ih =>
    obtain ⟨hproper, htimes⟩ := List.forall_mem_cons.1 htimes
    rw [List.map_cons, List.map_cons, ih htimes, ((Ratio.pulses_eq_ok_iff_moment hproper).1 he).2]

theorem getLastD_moment {ticks : List UInt32} (htimes : ∀ e ∈ events, e.time.Proper)
    (h : List.Forall₂ (fun e n => e.time.pulses = .ok n) events ticks) :
    (events.map (·.time.moment)).getLastD 0 = (ticks.getLastD 0).toNat := by
  rw [map_moment htimes h]
  rcases List.eq_nil_or_concat' ticks with rfl | ⟨init, last, rfl⟩
  · rfl
  · rw [List.map_append, List.map_singleton, List.getLastD_concat, List.getLastD_concat]

theorem toNat_closing {closing last : UInt32} :
    last.toNat + ((if closing < last then last else closing) - last).toNat =
      max closing.toNat last.toNat := by
  split
  · next h =>
    rw [UInt32.sub_self, UInt32.toNat_zero, Nat.add_zero]
    exact (max_eq_right (UInt32.lt_iff_toNat_lt.1 h).le).symm
  · next h =>
    have hle : last.toNat ≤ closing.toNat := UInt32.le_iff_toNat_le.1 (UInt32.not_lt.1 h)
    rw [UInt32.toNat_sub_of_le _ _ (UInt32.not_lt.1 h), Nat.add_sub_cancel' hle]
    exact (max_eq_left hle).symm

theorem places_track {track : Midi.Track} (htimes : ∀ e ∈ events, e.time.Proper)
    (hordered : events.Pairwise fun a b => a.time.value ≤ b.time.value) (hstop : stop.Proper)
    (h : Arrangement.track events stop = .ok track) : Places events stop track := by
  refine ⟨(track_spec htimes hordered hstop h).1, ?_⟩
  obtain ⟨ticks, closing, hpulses, hclosing, rfl⟩ := track_eq_ok_iff.1 h
  have hlength : (steps ticks).length = events.length := by
    rw [length_steps, hpulses.length_eq]
  obtain ⟨hsorted, -⟩ := ordered_ticks htimes hordered hpulses
  have hzero : ((0 : UInt32) :: ticks).Pairwise fun m n => m.toNat ≤ n.toNat :=
    List.pairwise_cons.2 ⟨fun n _ => Nat.zero_le _, hsorted⟩
  rw [List.map_append, map_delta_placed hlength.le, getLastD_moment htimes hpulses,
    map_moment htimes hpulses, ← ((Ratio.pulses_eq_ok_iff_moment hstop).1 hclosing).2,
    ← toNat_closing]
  exact moments_steps _ hzero

end Arrangement

namespace Performance

variable {p : Performance} {extra : List TimedEvent}

/-- The complaint is about an event or about the end of the piece. -/
theorem tooLate_of_arrange {e : TooLong} (htimes : ∀ e ∈ extra ++ p.events, e.time.Proper)
    (hstop : p.duration.Proper) (h : p.arrange extra = .error e) :
    e.time ∈ p.duration :: (extra ++ p.events).map (·.time) ∧ e.time.TooLate := by
  have hof : ∀ events : List TimedEvent, (∀ e ∈ events, e ∈ extra ++ p.events) →
      Arrangement.track events p.duration = .error e →
      e.time ∈ p.duration :: (extra ++ p.events).map (·.time) ∧ e.time.TooLate := by
    intro events hsub herror
    obtain ⟨hmem, hlate⟩ :=
      Arrangement.tooLate_of_track (fun e he => htimes e (hsub e he)) hstop herror
    refine ⟨?_, hlate⟩
    rcases List.mem_cons.1 hmem with hmem | hmem
    · exact List.mem_cons.2 (.inl hmem)
    · obtain ⟨event, hevent, htime⟩ := List.mem_map.1 hmem
      exact List.mem_cons_of_mem _ (htime ▸ List.mem_map_of_mem (hsub event hevent))
  have hinfo : ∀ e ∈ extra ++ p.events.filter (fun e => e.event.isMeta), e ∈ extra ++ p.events :=
    fun e he => mem_parts_iff.1 (.inl he)
  have hsort := TimedEvent.isStable_sort_of_proper fun e he => htimes e (hinfo e he)
  rw [arrange] at h
  split at h
  · next herror =>
    obtain rfl := Except.error.inj h
    exact hof _ (fun e he => hinfo e ((hsort.mem_iff e).1 he)) herror
  · split at h
    · next herror =>
      obtain rfl := Except.error.inj h
      exact hof _ (fun e he => mem_parts_iff.1 (.inr he)) herror
    · cases h

/-- There is a file exactly if no event and not the end of the piece has a tick too large to be
written, and otherwise the complaint is about such a time. The first track has the meta events: those
in `extra` and those of the performance, sorted by time, and events of one time in this order. The
second has the other events as they stand. Each event is at the tick of its time, and each track is
closed by one event at the end of the piece, or at the last event if that is later. The times have
positive denominators, as they have when they are made (`Ratio.proper_of_make?`). -/
theorem arrange_places (htimes : ∀ e ∈ extra ++ p.events, e.time.Proper)
    (hstop : p.duration.Proper)
    (hordered : p.events.Pairwise fun a b => a.time.value ≤ b.time.value) :
    ((∃ e, p.arrange extra = .error e) ↔
      ∃ t ∈ p.duration :: (extra ++ p.events).map (·.time), t.TooLate) ∧
    (∀ e, p.arrange extra = .error e →
      e.time ∈ p.duration :: (extra ++ p.events).map (·.time) ∧ e.time.TooLate) ∧
    ∀ f, p.arrange extra = .ok f → ∃ info first second,
      Sorting.IsStable (fun e => e.time.value) (extra ++ p.events.filter fun e => e.event.isMeta)
        info ∧
      Arrangement.Places info p.duration first ∧
      Arrangement.Places (p.events.filter fun e => !e.event.isMeta) p.duration second ∧
      f = { format := 1, timing := some (.metric ticksPerQuarter), tracks := [first, second] } := by
  have hinfo : ∀ e ∈ extra ++ p.events.filter (fun e => e.event.isMeta), e.time.Proper :=
    fun e he => htimes e (mem_parts_iff.1 (.inl he))
  have hmessages : ∀ e ∈ p.events.filter (fun e => !e.event.isMeta), e.time.Proper :=
    fun e he => htimes e (mem_parts_iff.1 (.inr he))
  have hsort := TimedEvent.isStable_sort_of_proper hinfo
  have hsorted : ∀ e ∈ Sorting.sort TimedEvent.notAfter
      (extra ++ p.events.filter fun e => e.event.isMeta), e.time.Proper :=
    fun e he => hinfo e ((hsort.mem_iff e).1 he)
  refine ⟨⟨?_, ?_⟩, fun e he => tooLate_of_arrange htimes hstop he, fun f hf => ?_⟩
  · rintro ⟨e, he⟩
    exact ⟨_, tooLate_of_arrange htimes hstop he⟩
  · rintro ⟨t, ht, hlate⟩
    cases hf : p.arrange extra with
    | error e => exact ⟨e, rfl⟩
    | ok f =>
      obtain ⟨first, second, hfirst, hsecond, -⟩ := exists_tracks hf
      obtain ⟨hend, hfirst⟩ := (Arrangement.exists_track_iff hsorted hstop).1 ⟨_, hfirst⟩
      obtain ⟨-, hsecond⟩ := (Arrangement.exists_track_iff hmessages hstop).1 ⟨_, hsecond⟩
      rcases List.mem_cons.1 ht with rfl | ht
      · exact absurd hlate hend
      · obtain ⟨e, he, rfl⟩ := List.mem_map.1 ht
        rcases mem_parts_iff.2 he with he | he
        · exact absurd hlate (hfirst e ((hsort.mem_iff e).2 he))
        · exact absurd hlate (hsecond e he)
  · obtain ⟨first, second, hfirst, hsecond, rfl⟩ := exists_tracks hf
    exact ⟨_, first, second, hsort, Arrangement.places_track hsorted hsort.ordered hstop hfirst,
      Arrangement.places_track hmessages (hordered.filter _) hstop hsecond, rfl⟩

/-- A note that begins before time zero, and one that begins after the end of the piece. -/
def early : Performance where
  events := [⟨⟨-1, 2⟩, .channel 0 (.noteOn 60 64)⟩, ⟨⟨1, 5⟩, .channel 0 (.noteOff 60 0)⟩,
    ⟨⟨1, 5⟩, .info (.text Midi.MetaEvent.plainText (Bytes.ofString "late"))⟩,
    ⟨⟨2, 5⟩, .channel 0 (.noteOn 62 64)⟩]
  duration := ⟨1, 4⟩

/-- Tempos that are not in order of time. -/
def tempos : List TimedEvent := [⟨⟨1, 3⟩, .info (.tempo 500000)⟩, ⟨⟨1, 5⟩, .info (.tempo 600000)⟩]

theorem arrange_places_early :
    (∀ e ∈ tempos ++ early.events, e.time.Proper) ∧ early.duration.Proper ∧
      early.events.Pairwise (fun a b => a.time.value ≤ b.time.value) ∧
      ∃ f first second, early.arrange tempos = .ok f ∧ f.tracks = [first, second] ∧
        Midi.moments 0 (first.map (·.delta)) = [76, 76, 128, 128] ∧
        Midi.moments 0 (second.map (·.delta)) = [0, 76, 153, 153] := by
  have htimes : ∀ e ∈ tempos ++ early.events, e.time.Proper :=
    show ∀ e ∈ tempos ++ early.events, 0 < e.time.den.toInt by decide +kernel
  have hstop : early.duration.Proper := show 0 < early.duration.den.toInt by decide
  have hordered : early.events.Pairwise fun a b => a.time.value ≤ b.time.value := by
    decide +kernel
  have hinfo : ∀ e ∈ tempos ++ early.events.filter (fun e => e.event.isMeta), e.time.Proper :=
    fun e he => htimes e (mem_parts_iff.1 (.inl he))
  have hnone : ∀ t ∈ early.duration :: (tempos ++ early.events).map (·.time), ¬t.TooLate :=
    show ∀ t ∈ early.duration :: (tempos ++ early.events).map (·.time),
      ¬(Midi.Quantity.maxValue.toNat : ℤ) < ⌊384 * t.value⌋ by decide +kernel
  obtain ⟨hfails, -, hplaces⟩ := arrange_places htimes hstop hordered
  cases hf : early.arrange tempos with
  | error e =>
    obtain ⟨t, ht, hlate⟩ := hfails.1 ⟨e, hf⟩
    exact absurd hlate (hnone t ht)
  | ok f =>
    obtain ⟨info, first, second, hsort, hfirst, hsecond, rfl⟩ := hplaces f hf
    obtain rfl := hsort.unique (TimedEvent.isStable_sort_of_proper hinfo)
    refine ⟨htimes, hstop, hordered, _, first, second, rfl, rfl, ?_, ?_⟩
    · rw [hfirst.moments]
      decide +kernel
    · rw [hsecond.moments]
      decide +kernel

end Performance

end DegreeScore
