import DegreeScore.Proofs.Plan.Notes

/-!
# Notes are balanced and keep within their passage

What a walk adds to the events of a stage lies between its start and its end and is made of notes,
each of which lasts for some time. Both follow rule by rule from the lengths of notes being positive
(`Walk.stretch`). So for every channel and key each release has an attack before it in time
(`Paired`). In order of time no stretch of events from the beginning on then has more releases than
attacks (`Paired.balanced`).
-/

namespace DegreeScore

namespace Midi

/-- Whether an event starts a note of this key on this channel. -/
def Event.isNoteOn (channel key : UInt8) : Event → Bool
  | .channel c (.noteOn k _) => c = channel && k = key
  | _ => false

/-- Whether an event ends a note of this key on this channel. -/
def Event.isNoteOff (channel key : UInt8) : Event → Bool
  | .channel c (.noteOff k _) => c = channel && k = key
  | _ => false

/-- From the beginning on there are never more ends than starts of notes, and in all there are as
many. -/
structure Balanced (channel key : UInt8) (events : List Event) : Prop where
  held : ∀ before, before <+: events →
    before.countP (·.isNoteOff channel key) ≤ before.countP (·.isNoteOn channel key)
  settled : events.countP (·.isNoteOn channel key) = events.countP (·.isNoteOff channel key)

end Midi

/-- Up to any time there are at most as many ends of notes as there are starts before it, and in all
there are as many. The order of the list does not matter. -/
structure Paired (channel key : UInt8) (events : List TimedEvent) : Prop where
  released : ∀ T : ℚ,
    events.countP (fun e => e.event.isNoteOff channel key && e.time.value ≤ T) ≤
      events.countP fun e => e.event.isNoteOn channel key && e.time.value < T
  total : events.countP (·.event.isNoteOn channel key) =
    events.countP (·.event.isNoteOff channel key)

namespace Paired

variable {channel key : UInt8} {es fs : List TimedEvent}

theorem nil : Paired channel key [] := ⟨fun _ => le_rfl, rfl⟩

theorem append (he : Paired channel key es) (hf : Paired channel key fs) :
    Paired channel key (es ++ fs) := by
  refine ⟨fun T => ?_, ?_⟩
  · rw [List.countP_append, List.countP_append]
    exact Nat.add_le_add (he.released T) (hf.released T)
  · rw [List.countP_append, List.countP_append, he.total, hf.total]

theorem perm (h : Paired channel key es) (hperm : fs.Perm es) : Paired channel key fs := by
  refine ⟨fun T => ?_, ?_⟩
  · rw [hperm.countP_eq, hperm.countP_eq]
    exact h.released T
  · rw [hperm.countP_eq, hperm.countP_eq]
    exact h.total

/-- An event that neither starts nor ends a note. -/
theorem other {e : TimedEvent} (hon : e.event.isNoteOn channel key = false)
    (hoff : e.event.isNoteOff channel key = false) : Paired channel key [e] := by
  refine ⟨fun T => ?_, ?_⟩
  · simp [hoff]
  · simp [hon, hoff]

/-- A note that ends after it starts. -/
theorem note {start stop : Ratio} {ch k v w : UInt8} (hlt : start.value < stop.value) :
    Paired channel key
      [⟨start, .channel ch (.noteOn k v)⟩, ⟨stop, .channel ch (.noteOff k w)⟩] := by
  refine ⟨fun T => ?_, ?_⟩
  · simp only [List.countP_cons, List.countP_nil, Midi.Event.isNoteOn, Midi.Event.isNoteOff]
    by_cases hT : stop.value ≤ T
    · simp [hT, hlt.trans_le hT]
    · simp [hT]
  · simp only [List.countP_cons, List.countP_nil, Midi.Event.isNoteOn, Midi.Event.isNoteOff]
    simp

/-- Events that neither start nor stop a note make no difference. -/
theorem filter_iff {q : TimedEvent → Bool} (hon : ∀ e, e.event.isNoteOn channel key → q e)
    (hoff : ∀ e, e.event.isNoteOff channel key → q e) :
    Paired channel key (es.filter q) ↔ Paired channel key es := by
  have hcount : ∀ r : TimedEvent → Bool, (∀ e, r e → q e) → (es.filter q).countP r = es.countP r := by
    intro r hr
    rw [List.countP_filter]
    refine List.countP_congr fun e _ => ?_
    rw [Bool.and_eq_true_iff]
    exact and_iff_left_of_imp (hr e)
  have hreleased : ∀ T : ℚ, (es.filter q).countP
      (fun e => e.event.isNoteOff channel key && e.time.value ≤ T) =
        es.countP fun e => e.event.isNoteOff channel key && e.time.value ≤ T :=
    fun T => hcount _ fun e he => hoff e (Bool.and_eq_true_iff.1 he).1
  have hattacked : ∀ T : ℚ, (es.filter q).countP
      (fun e => e.event.isNoteOn channel key && e.time.value < T) =
        es.countP fun e => e.event.isNoteOn channel key && e.time.value < T :=
    fun T => hcount _ fun e he => hon e (Bool.and_eq_true_iff.1 he).1
  constructor
  · intro h
    refine ⟨fun T => ?_, ?_⟩
    · rw [← hreleased, ← hattacked]
      exact h.released T
    · rw [← hcount _ hon, ← hcount _ hoff]
      exact h.total
  · intro h
    refine ⟨fun T => ?_, ?_⟩
    · rw [hreleased, hattacked]
      exact h.released T
    · rw [hcount _ hon, hcount _ hoff]
      exact h.total

/-- In order of time, paired events are balanced. -/
theorem balanced (h : Paired channel key es)
    (hordered : es.Pairwise fun a b => a.time.value ≤ b.time.value) :
    Midi.Balanced channel key (es.map (·.event)) := by
  refine ⟨fun before hbefore => ?_, ?_⟩
  case refine_2 =>
    rw [List.countP_map, List.countP_map]
    exact h.total
  obtain ⟨pre, hpre, rfl⟩ := List.prefix_map_iff.1 hbefore
  obtain ⟨post, rfl⟩ := hpre
  rw [List.countP_map, List.countP_map]
  rcases List.eq_nil_or_concat' pre with rfl | ⟨init, last, rfl⟩
  · simp
  -- All that comes up to the last event of `pre` is not later, and all that is earlier is in `pre`.
  obtain ⟨hpre, -, hpost⟩ := List.pairwise_append.1 hordered
  have hle : ∀ e ∈ init ++ [last], e.time.value ≤ last.time.value := by
    intro e he
    rcases List.mem_append.1 he with he | he
    · exact (List.pairwise_append.1 hpre).2.2 e he last (List.mem_singleton_self last)
    · exact List.mem_singleton.1 he ▸ le_rfl
  have hge : ∀ e ∈ post, ¬e.time.value < last.time.value := fun e he =>
    not_lt.2 (hpost last (by simp) e he)
  calc (init ++ [last]).countP ((·.isNoteOff channel key) ∘ (·.event))
      = (init ++ [last]).countP fun e =>
          e.event.isNoteOff channel key && e.time.value ≤ last.time.value := by
        refine List.countP_congr fun e he => ?_
        simp [hle e he]
    _ ≤ (init ++ [last] ++ post).countP fun e =>
          e.event.isNoteOff channel key && e.time.value ≤ last.time.value :=
        (List.sublist_append_left _ post).countP_le
    _ ≤ (init ++ [last] ++ post).countP fun e =>
          e.event.isNoteOn channel key && e.time.value < last.time.value := h.released _
    _ = (init ++ [last]).countP fun e =>
          e.event.isNoteOn channel key && e.time.value < last.time.value := by
        have hnone : post.countP (fun e =>
            e.event.isNoteOn channel key && e.time.value < last.time.value) = 0 := by
          refine List.countP_eq_zero.2 fun e he => ?_
          simp [hge e he]
        refine List.countP_append.trans ?_
        rw [hnone, Nat.add_zero]
    _ ≤ (init ++ [last]).countP ((·.isNoteOn channel key) ∘ (·.event)) :=
        List.countP_mono_left fun e _ he => (Bool.and_eq_true_iff.1 he).1

end Paired

theorem Midi.Event.isNote_of_isNoteOn {channel key : UInt8} {e : Event}
    (h : e.isNoteOn channel key = true) : e.isNote = true := by
  rw [isNoteOn.eq_def] at h
  split at h
  · rfl
  · cases h

theorem Midi.Event.isNote_of_isNoteOff {channel key : UInt8} {e : Event}
    (h : e.isNoteOff channel key = true) : e.isNote = true := by
  rw [isNoteOff.eq_def] at h
  split at h
  · rfl
  · cases h

/-- The notes of a channel and key are paired. -/
theorem AreNotesOf.paired {notes : List PlayedNote} {events : List TimedEvent}
    (h : AreNotesOf notes events) (channel key : UInt8) : Paired channel key events := by
  have hnotes : Paired channel key (notes.flatMap PlayedNote.events) := by
    have hlasting := h.lasting
    clear h
    induction notes with
    | nil => exact .nil
    | cons n notes ih =>
      obtain ⟨hn, hrest⟩ := List.forall_mem_cons.1 hlasting
      rw [List.flatMap_cons]
      exact (Paired.note hn).append (ih hrest)
  exact (Paired.filter_iff (fun _ => Midi.Event.isNote_of_isNoteOn)
    fun _ => Midi.Event.isNote_of_isNoteOff).1 (hnotes.perm h.perm.symm)

theorem Ratio.IsDuration.add {t d r : Ratio} (hd : d.IsDuration) (ht : t.IsTime)
    (h : t.add d = .ok r) : r.IsTime ∧ t.value < r.value := by
  obtain ⟨hr, hvalue⟩ := ht.add hd.toIsTime h
  have hpos : 0 < d.value := div_pos (by exact_mod_cast hd.pos) hd.proper.cast_pos
  exact ⟨hr, hvalue ▸ lt_add_of_pos_right _ hpos⟩

-- ════════════════════════════════════════════════════════════════════════
-- Stretches of playing
-- ════════════════════════════════════════════════════════════════════════

/-- Events between two times that are those of notes, or of no note. -/
structure Spans (start stop : Ratio) (events : List TimedEvent) : Prop where
  time : ∀ e ∈ events, e.time.IsTime
  within : ∀ e ∈ events, start.value ≤ e.time.value ∧ e.time.value ≤ stop.value
  noted : ∃ notes, AreNotesOf notes events

theorem Spans.paired {start stop : Ratio} {es : List TimedEvent} (h : Spans start stop es)
    (channel key : UInt8) : Paired channel key es := by
  obtain ⟨notes, hnotes⟩ := h.noted
  exact hnotes.paired channel key

theorem Spans.mono {start start' stop stop' : Ratio} {es : List TimedEvent}
    (h : Spans start stop es) (hstart : start'.value ≤ start.value) (hstop : stop.value ≤ stop'.value) :
    Spans start' stop' es :=
  ⟨h.time, fun e he => ⟨hstart.trans (h.within e he).1, (h.within e he).2.trans hstop⟩, h.noted⟩

theorem Spans.append {start stop : Ratio} {es fs : List TimedEvent} (he : Spans start stop es)
    (hf : Spans start stop fs) : Spans start stop (es ++ fs) := by
  obtain ⟨ns, hns⟩ := he.noted
  obtain ⟨ms, hms⟩ := hf.noted
  exact ⟨List.forall_mem_append.2 ⟨he.time, hf.time⟩,
    List.forall_mem_append.2 ⟨he.within, hf.within⟩, _, hns.append hms⟩

/-- The sections played so far have been given valid durations. -/
def Stage.Timed (s : Stage) : Prop :=
  ∀ (i : Nat) (c : Context), s.bound[i]? = some (some c) → c.duration.IsDuration

/-- What playing from `t` and the stage `s` to `stop` and the stage `u` keeps and adds. -/
structure Stretch (t : Ratio) (s : Stage) (stop : Ratio) (u : Stage) : Prop where
  ends : stop.IsTime
  le : t.value ≤ stop.value
  timed : u.Timed
  events : ∃ new, u.events.toList = s.events.toList ++ new ∧ Spans t stop new

namespace Stretch

variable {t t' mid stop : Ratio} {s u w : Stage}

theorem refl (ht : t.IsTime) (hs : s.Timed) : Stretch t s t s :=
  ⟨ht, le_rfl, hs, [], (List.append_nil _).symm, by simp, by simp, _, .nil⟩

/-- One stretch after another, which may start anew but does not end sooner. -/
theorem append (h : Stretch t s mid u) (h' : Stretch t' u stop w) (hstart : t.value ≤ t'.value)
    (hstop : mid.value ≤ stop.value) : Stretch t s stop w := by
  obtain ⟨new, hnew, hspans⟩ := h.events
  obtain ⟨new', hnew', hspans'⟩ := h'.events
  refine ⟨h'.ends, hstart.trans h'.le, h'.timed, new ++ new', ?_, ?_⟩
  · rw [hnew', hnew, List.append_assoc]
  · exact (hspans.mono le_rfl hstop).append (hspans'.mono hstart le_rfl)

theorem trans (h : Stretch t s mid u) (h' : Stretch mid u stop w) : Stretch t s stop w :=
  h.append h' h.le h'.le

/-- An event at the start that is no note. -/
theorem push {e : TimedEvent} (ht : t.IsTime) (hs : s.Timed) (channels : Channels) (he : e.time = t)
    (hnote : e.event.isNote = false) :
    Stretch t s t { s with channels, events := s.events.push e } := by
  refine ⟨ht, le_rfl, hs, [e], Array.toList_push, ?_, ?_, _, .other hnote⟩
  · simpa [he] using ht
  · simp [he]

end Stretch

theorem Context.isDuration_initial : Context.initial.duration.IsDuration :=
  ⟨Context.isTime_initial, by decide, by decide, by decide⟩

theorem Stage.timed_empty (sections : Nat) : (Stage.empty sections).Timed := by
  intro i c hc
  simp only [Stage.empty, Array.getElem?_replicate] at hc
  split at hc <;> cases hc

/-- What playing relies on where it begins. -/
structure Poised (c : Context) (t : Ratio) (s : Stage) : Prop where
  duration : c.duration.IsDuration
  time : t.IsTime
  timed : s.Timed

theorem Poised.initial (sections : Nat) : Poised .initial .zero (.empty sections) :=
  ⟨Context.isDuration_initial, Ratio.isTime_zero, Stage.timed_empty sections⟩

theorem Poised.refl {c : Context} {t : Ratio} {s : Stage} (h : Poised c t s) : Stretch t s t s :=
  .refl h.time h.timed

namespace Player

variable {c d : Context} {t stop : Ratio} {s u : Stage}

theorem stretch_label {l : Bytes} (hs : Poised c t s) (h : (label c l t).run s = .ok (d, u)) :
    Stretch t s t u ∧ Poised d t u := by
  obtain ⟨hc, ht, hs⟩ := hs
  rcases label_eq_ok h with ⟨v, -, rfl, rfl⟩ | ⟨p, ch, -, -, -, rfl, rfl⟩ |
    ⟨p, ch, channels, -, -, -, rfl, rfl⟩ | ⟨-, -, rfl, rfl⟩
  · exact ⟨.refl ht hs, hc, ht, hs⟩
  · exact ⟨.refl ht hs, hc, ht, hs⟩
  · exact ⟨.push ht hs _ rfl rfl, hc, ht, hs⟩
  · exact ⟨.push ht hs s.channels rfl rfl, hc, ht, hs⟩

theorem stretch_labels {ls : List Bytes} (hs : Poised c t s)
    (h : (labels c t ls).run s = .ok (d, u)) : Stretch t s t u ∧ Poised d t u := by
  induction ls generalizing c s with
  | nil =>
    obtain ⟨rfl, rfl⟩ := Prod.mk.inj (Except.ok.inj h)
    exact ⟨hs.refl, hs⟩
  | cons l rest ih =>
    rw [labels] at h
    split at h
    · exact ih hs h
    · obtain ⟨e, w, hlabel, h⟩ := Playing.run_bind_eq_ok h
      obtain ⟨hstretch, he⟩ := stretch_label hs hlabel
      obtain ⟨hrest, hd⟩ := ih he h
      exact ⟨hstretch.trans hrest, hd⟩

theorem stretch_enter {o : Option Options} (ho : Options.Timed o) (hs : Poised c t s)
    (h : (enter c o t).run s = .ok (d, u)) : Stretch t s t u ∧ Poised d t u := by
  cases o with
  | none =>
    obtain ⟨rfl, rfl⟩ := Prod.mk.inj (Except.ok.inj h)
    exact ⟨hs.refl, hs⟩
  | some o =>
    have hoverride : (c.override o).duration.IsDuration := by
      obtain ⟨v, hv⟩ := Context.exists_withDynamics_eq
        { c with duration := o.duration.getD c.duration, key := o.key.getD c.key } o.labels
      rw [Context.override, hv]
      cases hd : o.duration with
      | none => exact hs.duration
      | some x => exact ho o rfl x hd
    exact stretch_labels ⟨hoverride, hs.time, hs.timed⟩ h

theorem stretch_later (hs : Poised c t s) (h : (later t c.duration).run s = .ok (stop, u)) :
    Stretch t s stop u := by
  obtain ⟨hadd, rfl⟩ := later_eq_ok h
  obtain ⟨hstop, hlt⟩ := hs.duration.add hs.time hadd
  exact ⟨hstop, hlt.le, hs.timed, [], (List.append_nil _).symm, by simp, by simp, _, .nil⟩

theorem stretch_note {key : UInt8} (hs : Poised c t s) (h : (note key c t).run s = .ok (stop, u)) :
    Stretch t s stop u := by
  obtain ⟨hadd, rfl⟩ := note_eq_ok h
  obtain ⟨hstop, hlt⟩ := hs.duration.add hs.time hadd
  refine ⟨hstop, hlt.le, hs.timed, _, toList_push_push .., ?_, ?_, _, .note _ _ _ hlt⟩
  · simp [hs.time, hstop]
  · simp [hlt.le]

theorem stretch_contextFor {i : Nat} (hs : Poised c t s)
    (h : (contextFor i c).run s = .ok (d, u)) : Stretch t s t u ∧ Poised d t u := by
  rcases contextFor_eq_ok h with ⟨hfirst, rfl⟩ | ⟨-, rfl, rfl⟩
  · exact ⟨hs.refl, hs.timed i _ hfirst, hs.time, hs.timed⟩
  · have htimed : Stage.Timed { s with bound := s.bound.setIfInBounds i (some d) } := by
      intro j e he
      rcases eq_or_of_getElem?_setIfInBounds he with rfl | he
      · exact hs.duration
      · exact hs.timed j e he
    refine ⟨⟨hs.time, le_rfl, htimed, [], (List.append_nil _).symm, by simp, by simp,
      _, .nil⟩, hs.duration, hs.time, htimed⟩

end Player

/-- What is walked from `t` on does not end before this time. -/
def Task.until (t : Ratio) : Task → Ratio
  | .chord _ stop => stop
  | .node _ | .sequence _ => t

/-- A walk ends at or after its start, what it adds lies in between, and every note it adds ends after
it starts. -/
theorem Walk.stretch {sections : Array Section} {m : Nat} {task : Task} {c : Context}
    {t stop : Ratio} {s u : Stage} {vs : List Visit} (h : Walk sections m task c t s vs stop u)
    (hs : Poised c t s) (huntil : (task.until t).IsTime) (hle : t.value ≤ (task.until t).value) :
    Stretch t s stop u ∧ (task.until t).value ≤ stop.value := by
  induction h with
  | note ho henter hnote =>
    obtain ⟨henter, hd⟩ := Player.stretch_enter ho hs henter
    have h := henter.trans (Player.stretch_note hd hnote)
    exact ⟨h, h.le⟩
  | rest ho henter hrest =>
    obtain ⟨henter, hd⟩ := Player.stretch_enter ho hs henter
    have h := henter.trans (Player.stretch_later hd hrest)
    exact ⟨h, h.le⟩
  | sequence ho henter _ ih =>
    obtain ⟨henter, hd⟩ := Player.stretch_enter ho hs henter
    have h := henter.trans (ih hd hs.time le_rfl).1
    exact ⟨h, h.le⟩
  | chord ho henter _ ih =>
    obtain ⟨henter, hd⟩ := Player.stretch_enter ho hs henter
    have h := henter.trans (ih hd hs.time le_rfl).1
    exact ⟨h, h.le⟩
  | insert _ _ hcontext _ ih =>
    obtain ⟨hcontext, hd⟩ := Player.stretch_contextFor hs hcontext
    have h := hcontext.trans (ih hd hs.time le_rfl).1
    exact ⟨h, h.le⟩
  | event hlabel => exact ⟨(Player.stretch_label hs hlabel).1, le_rfl⟩
  | error | sequenceNil => exact ⟨hs.refl, le_rfl⟩
  | sequenceLabel hlabel _ ih =>
    obtain ⟨hlabel, hd⟩ := Player.stretch_label hs hlabel
    have h := hlabel.trans (ih hd hs.time le_rfl).1
    exact ⟨h, h.le⟩
  | sequenceCons _ _ _ ihnode ihrest =>
    have hnode := (ihnode hs hs.time le_rfl).1
    have h := hnode.trans (ihrest ⟨hs.duration, hnode.ends, hnode.timed⟩ hnode.ends le_rfl).1
    exact ⟨h, h.le⟩
  | chordNil => exact ⟨⟨huntil, hle, hs.timed, [], (List.append_nil _).symm, by simp, by simp,
      _, .nil⟩, le_rfl⟩
  | chordLabel hlabel _ ih =>
    obtain ⟨hlabel, hd⟩ := Player.stretch_label hs hlabel
    obtain ⟨hrest, huntil⟩ := ih hd huntil hle
    exact ⟨hlabel.trans hrest, huntil⟩
  | @chordCons m n ns c t before child stop s u vs ws w hn _ _ ihnode ihrest =>
    have hnode := (ihnode hs hs.time le_rfl).1
    obtain ⟨hmax, hvalue⟩ := huntil.max hnode.ends
    have hmaxle : before.value ≤ (before.max child).value ∧
        child.value ≤ (before.max child).value := by
      rw [show (before.max child).value = _ from hvalue]
      exact ⟨le_max_left .., le_max_right ..⟩
    obtain ⟨hrest, hstop⟩ :=
      ihrest ⟨hs.duration, hs.time, hnode.timed⟩ hmax (hle.trans hmaxle.1)
    exact ⟨hnode.append hrest le_rfl (hmaxle.2.trans hstop), hmaxle.1.trans hstop⟩

/-- After a node the same context goes on at its end. -/
theorem Poised.walk {sections : Array Section} {m : Nat} {n : Node} {c : Context} {t stop : Ratio}
    {s u : Stage} {vs : List Visit} (h : Poised c t s)
    (hwalk : Walk sections m (.node n) c t s vs stop u) : Poised c stop u := by
  obtain ⟨hstretch, -⟩ := hwalk.stretch h h.time le_rfl
  exact ⟨h.duration, hstretch.ends, hstretch.timed⟩

end DegreeScore
