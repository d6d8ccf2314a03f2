import DegreeScore.Proofs.Plan.Invariants
import DegreeScore.Proofs.Plan.Programs

/-!
# Which notes share a channel

A program has its channel for itself among programs. Notes under no program are on channel 0, which
is also the last channel that is given out: it goes to a program only when each of the thirteen others
has been given to another one (`Channels.Stacked`). So a channel is shared only in a score of fourteen
programs, by the notes of the last of them and the notes under none (`Tree.channel_of_notes`).

## Main definitions

- `Channels.Stacked` — channel 0 is taken last
- `Traced.Defaulted` — notes under no program are on channel 0
-/

namespace DegreeScore

-- ════════════════════════════════════════════════════════════════════════
-- The table of channels
-- ════════════════════════════════════════════════════════════════════════

/-- Programs have channels of their own, and channel 0 is taken when no other is left. -/
structure Channels.Stacked (t : Channels) : Prop where
  distinct : ∀ c d p, t.program c = some p → t.program d = some p → c = d
  given : ∀ c p, t.program c = some p → c ∈ playable
  last : t.program 0 ≠ none → ∀ c ∈ playable, t.program c ≠ none

namespace Channels

variable {t u : Channels} {p : UInt8} {c : Fin 16}

theorem stacked_free : Stacked free := by
  refine ⟨fun c d p h => ?_, fun c p h => ?_, fun h => absurd rfl h⟩
  · cases h
  · cases h

/-- Channel 0 is the last in the order of preference. -/
theorem program_ne_none_of_highestFree? (h : t.highestFree? = some 0) :
    ∀ c ∈ playable, c ≠ 0 → t.program c ≠ none := by
  have hothers : (playable.dropLast.find? fun c => (t.program c).isNone) = none := by
    cases hfound : playable.dropLast.find? fun c => (t.program c).isNone with
    | none => rfl
    | some d =>
      have hd : t.highestFree? = some d := by
        rw [highestFree?, show playable = playable.dropLast ++ [0] from rfl, List.find?_append, hfound]
        rfl
      have hmem := List.mem_of_find?_eq_some hfound
      obtain rfl := Option.some.inj (h.symm.trans hd)
      exact absurd hmem (by decide)
  intro c hc hne hnone
  have hmem : c ∈ playable.dropLast := by
    have hall : ∀ c ∈ playable, c ≠ 0 → c ∈ playable.dropLast := by decide
    exact hall c hc hne
  exact List.find?_eq_none.1 hothers c hmem (Option.isNone_iff_eq_none.2 hnone)

theorem Stacked.bind (h : t.Stacked) (hfresh : t.allocate p = .fresh c u) : u.Stacked := by
  obtain ⟨hnone, hfree, rfl⟩ := playing?_eq_none_of_fresh hfresh
  have hself : (t.bind c p).program c = some p := if_pos rfl
  have hother : ∀ {d}, d ≠ c → (t.bind c p).program d = t.program d := fun hd => if_neg hd
  have hnew : ∀ d, t.program d ≠ some p := by
    intro d hd
    exact List.find?_eq_none.1 hnone d (h.given d p hd) (decide_eq_true hd)
  refine ⟨fun d e q hd he => ?_, fun d q hd => ?_, fun hzero d hd => ?_⟩
  · by_cases hdc : d = c <;> by_cases hec : e = c
    · exact hdc.trans hec.symm
    · rw [hdc, hself] at hd
      rw [hother hec] at he
      exact absurd (he.trans hd.symm) (hnew e)
    · rw [hec, hself] at he
      rw [hother hdc] at hd
      exact absurd (hd.trans he.symm) (hnew d)
    · rw [hother hdc] at hd
      rw [hother hec] at he
      exact h.distinct d e q hd he
  · by_cases hdc : d = c
    · exact hdc ▸ mem_playable_of_fresh hfresh
    · rw [hother hdc] at hd
      exact h.given d q hd
  · by_cases hdc : d = c
    · rw [hdc, hself]
      exact Option.some_ne_none p
    · rw [hother hdc]
      by_cases h0 : 0 = c
      · rw [← h0] at hfree hdc
        exact program_ne_none_of_highestFree? hfree d hd hdc
      · rw [hother h0] at hzero
        exact h.last hzero d hd

end Channels

-- ════════════════════════════════════════════════════════════════════════
-- Notes under no program
-- ════════════════════════════════════════════════════════════════════════

/-- A context under no program has the channel that a score begins with. -/
def AtDefault (c : Context × Option UInt8) : Prop := c.2 = none → c.1.channel = 0

namespace Traced

/-- What tracing keeps: notes under no program are on channel 0, and so are those to come in sections
that were first played under none. -/
structure Defaulted (g : Traced) : Prop where
  length : g.cues.length = g.stage.events.toList.length
  notes : ∀ x ∈ g.cues, x.program = none → ∀ channel key velocity,
    x.event.event = .channel channel (.noteOn key velocity) → channel = 0
  /-- The contexts and the programs of first playings belong together. -/
  remembered : ∃ first : Array (Option (Context × Option UInt8)),
    g.stage.bound = first.map (Option.map Prod.fst) ∧ g.programs = first.map (Option.map Prod.snd) ∧
    ∀ (i : Nat) (c : Context × Option UInt8), first[i]? = some (some c) → AtDefault c
  stacked : g.stage.channels.Stacked

theorem defaulted_empty (sections : Nat) : (Traced.empty sections).Defaulted := by
  refine ⟨rfl, fun x hx => ?_, ⟨Array.replicate sections none, ?_, ?_, fun i c hc => ?_⟩,
    Channels.stacked_free⟩
  · simp [Traced.empty] at hx
  · simp [Traced.empty, Stage.empty]
  · simp [Traced.empty]
  · rw [Array.getElem?_replicate] at hc
    split at hc <;> cases hc

theorem step_eq_ok {α : Type} {p : Option UInt8} {x : Player α} {g u : Traced} {a : α}
    (h : (step p x).run g = .ok (a, u)) : ∃ s, x.run g.stage = .ok (a, s) ∧
      u = { g with
        stage := s
        cues := g.cues ++ (s.events.toList.drop g.cues.length).map fun e => ⟨e, p⟩ } := by
  change step p x g = _ at h
  rw [step] at h
  split at h
  · cases h
  · next a' s hx =>
    obtain ⟨rfl, rfl⟩ := Prod.mk.inj (Except.ok.inj h)
    exact ⟨s, hx, rfl⟩

/-- A step that remembers no section and adds `new` to the events. -/
theorem Defaulted.step {g : Traced} (h : g.Defaulted) {s : Stage} {new : List TimedEvent}
    {p : Option UInt8} (hbound : s.bound = g.stage.bound)
    (hevents : s.events.toList = g.stage.events.toList ++ new) (hstacked : s.channels.Stacked)
    (hnew : p = none → ∀ e ∈ new, ∀ channel key velocity,
      e.event = .channel channel (.noteOn key velocity) → channel = 0) :
    Defaulted { g with
      stage := s
      cues := g.cues ++ (s.events.toList.drop g.cues.length).map fun e => ⟨e, p⟩ } := by
  rw [hevents, h.length, List.drop_left]
  refine ⟨?_, fun x hx => ?_, hbound ▸ h.remembered, hstacked⟩
  · rw [List.length_append, List.length_map, hevents, List.length_append, h.length]
  · rcases List.mem_append.1 hx with hx | hx
    · exact h.notes x hx
    · obtain ⟨e, he, rfl⟩ := List.mem_map.1 hx
      exact fun hp => hnew hp e he

namespace Defaulted

variable {g u : Traced} {c d : Context × Option UInt8} {t stop : Ratio}

theorem rest (h : g.Defaulted) (hrun : (tracer.rest c t).run g = .ok (stop, u)) : u.Defaulted := by
  obtain ⟨s, hx, rfl⟩ := step_eq_ok hrun
  obtain ⟨-, rfl⟩ := Player.later_eq_ok hx
  exact h.step rfl (List.append_nil _).symm h.stacked fun _ => by simp

theorem note (h : g.Defaulted) (hc : AtDefault c) {degree accidental : Int64}
    (hrun : (tracer.note degree accidental c t).run g = .ok (stop, u)) : u.Defaulted := by
  obtain ⟨s, hx, rfl⟩ := step_eq_ok hrun
  obtain ⟨-, rfl⟩ := Player.note_eq_ok hx
  refine h.step rfl (toList_push_push ..) h.stacked ?_
  intro hp e he channel key velocity hevent
  rcases List.mem_pair.1 he with rfl | rfl
  · obtain ⟨rfl, -⟩ := Midi.Event.channel.inj hevent
    exact hc hp
  · cases hevent

theorem label (h : g.Defaulted) (hc : AtDefault c) {l : Bytes}
    (hrun : (tracer.label c l t).run g = .ok (d, u)) : u.Defaulted ∧ AtDefault d := by
  obtain ⟨inner, w, hstep, hrun⟩ := Playing.run_bind_eq_ok hrun
  obtain ⟨rfl, rfl⟩ := Prod.mk.inj (Except.ok.inj hrun)
  obtain ⟨s, hx, rfl⟩ := step_eq_ok hstep
  have hother : ∀ {e : TimedEvent}, (∀ channel key velocity,
      e.event ≠ .channel channel (.noteOn key velocity)) → c.2 = none → ∀ e' ∈ [e],
      ∀ channel key velocity, e'.event = .channel channel (.noteOn key velocity) → channel = 0 := by
    rintro e he - e' he' channel key velocity hevent
    obtain rfl := List.mem_singleton.1 he'
    exact absurd hevent (he channel key velocity)
  rcases Player.label_eq_ok hx with ⟨v, hv, rfl, rfl⟩ | ⟨p, ch, hv, hp, -, rfl, rfl⟩ |
    ⟨p, ch, channels, hv, hp, hfresh, rfl, rfl⟩ | ⟨hv, hp, rfl, rfl⟩
  · refine ⟨h.step rfl (List.append_nil _).symm h.stacked fun _ => by simp, ?_⟩
    rw [programAfter, hv]
    exact hc
  · refine ⟨h.step rfl (List.append_nil _).symm h.stacked fun _ => by simp, ?_⟩
    rw [programAfter, hv, hp]
    intro h
    cases h
  · refine ⟨h.step rfl Array.toList_push (h.stacked.bind hfresh) (hother (by simp)), ?_⟩
    rw [programAfter, hv, hp]
    intro h
    cases h
  · refine ⟨h.step rfl Array.toList_push h.stacked (hother (by simp)), ?_⟩
    rw [programAfter, hv, hp]
    exact hc

/-- A section is played in the context and under the program of its first playing. -/
theorem contextFor (h : g.Defaulted) (hc : AtDefault c) {i : Nat}
    (hrun : (tracer.contextFor i c).run g = .ok (d, u)) : u.Defaulted ∧ AtDefault d := by
  obtain ⟨inner, w, hstep, hrun⟩ := Playing.run_bind_eq_ok hrun
  obtain ⟨q, w', hprogram, hrun⟩ := Playing.run_bind_eq_ok hrun
  obtain ⟨rfl, rfl⟩ := Prod.mk.inj (Except.ok.inj hrun)
  obtain ⟨s, hx, rfl⟩ := step_eq_ok hstep
  obtain ⟨first, hbound, hprograms, hdefault⟩ := h.remembered
  have hget : g.programs[i]? = first[i]?.map (Option.map Prod.snd) := by
    rw [hprograms, Array.getElem?_map]
  rw [run_programFor] at hprogram
  dsimp only at hprogram
  rw [hget] at hprogram
  rcases Player.contextFor_eq_ok hx with ⟨hplayed, rfl⟩ | ⟨hunplayed, rfl, rfl⟩
  · rw [hbound, Array.getElem?_map] at hplayed
    obtain ⟨_, hfirst, hsome⟩ := Option.map_eq_some_iff.1 hplayed
    obtain ⟨⟨e, r⟩, rfl, rfl⟩ := Option.map_eq_some_iff.1 hsome
    rw [hfirst] at hprogram
    obtain ⟨rfl, rfl⟩ := Prod.mk.inj (Except.ok.inj hprogram)
    exact ⟨h.step rfl (List.append_nil _).symm h.stacked fun _ => by simp, hdefault i _ hfirst⟩
  · have hnew : g.stage.events.toList.drop g.cues.length = [] := by rw [h.length, List.drop_length]
    split at hprogram
    · next r hr =>
      obtain ⟨_, hfirst, hsome⟩ := Option.map_eq_some_iff.1 hr
      obtain ⟨⟨e, r⟩, rfl, rfl⟩ := Option.map_eq_some_iff.1 hsome
      refine absurd ?_ (hunplayed e)
      rw [hbound, Array.getElem?_map, hfirst]
      rfl
    · obtain ⟨rfl, rfl⟩ := Prod.mk.inj (Except.ok.inj hprogram)
      dsimp only
      rw [hnew, List.map_nil, List.append_nil]
      refine ⟨⟨h.length, h.notes, ⟨first.setIfInBounds i (some c), ?_, ?_, fun j e he => ?_⟩,
        h.stacked⟩, hc⟩
      · dsimp only
        rw [hbound, Array.map_setIfInBounds]
        rfl
      · dsimp only
        rw [hprograms, Array.map_setIfInBounds]
        rfl
      · rcases eq_or_of_getElem?_setIfInBounds he with rfl | he
        · exact hc
        · exact hdefault j e he

end Defaulted

end Traced

theorem tracer_defaulted : tracer.Invariant Traced.Defaulted AtDefault where
  override o hc hp := (Context.channel_override _ (some o)).trans (hc hp)
  label _ _ hc _ _ _ hs hrun := hs.label hc hrun
  note _ _ _ hc _ _ _ hs hrun := ⟨hs.note hc hrun, trivial⟩
  rest _ _ _ _ _ hs hrun := ⟨hs.rest hrun, trivial⟩
  contextFor _ hc _ _ _ hs hrun := hs.contextFor hc hrun

-- ════════════════════════════════════════════════════════════════════════
-- Whole performances
-- ════════════════════════════════════════════════════════════════════════

/-- The program is set on channel 0, and each of the other channels to another one. -/
def IsLastProgram (cues : List Cue) (p : UInt8) : Prop :=
  ∃ programs : Fin 16 → UInt8, (∀ c, Channels.number c = 0 → programs c = p) ∧
    (∀ c ∈ Channels.playable, ∃ z ∈ cues, z.Announces (Channels.number c) (programs c)) ∧
    ∀ c ∈ Channels.playable, ∀ d ∈ Channels.playable, programs c = programs d → c = d

theorem Traced.isLastProgram {g : Traced} (h : g.Announced) (hstacked : g.stage.channels.Stacked)
    {p : UInt8} (hp : g.stage.channels.program 0 = some p) : IsLastProgram g.cues p := by
  have hbound : ∀ c ∈ Channels.playable,
      g.stage.channels.program c = some ((g.stage.channels.program c).getD 0) := by
    intro c hc
    have hne := hstacked.last (by simp [hp]) c hc
    obtain ⟨q, hq⟩ := Option.ne_none_iff_exists'.1 hne
    rw [hq, Option.getD_some]
  refine ⟨fun c => (g.stage.channels.program c).getD 0, fun c hc => ?_, ?_, ?_⟩
  · obtain rfl : c = 0 := Channels.number_inj hc
    show (g.stage.channels.program 0).getD 0 = p
    rw [hp, Option.getD_some]
  · intro c hc
    exact h.exists_announcement (hbound c hc)
  · intro c hc d hd heq
    exact hstacked.distinct c d _ (hbound c hc) ((hbound d hd).trans (congrArg some heq.symm))

/-- Which channels notes are on. Where there is a note under a program, the channel is set to this
program only, and has notes under no other. Notes under no program are on channel 0. A program has
this channel only as the last of fourteen. -/
theorem Tree.channel_of_notes {src : Bytes} {p : Performance}
    (hp : (Tree.parse src).1.perform = .ok p) :
    ∃ cues, (Tree.parse src).1.trace = .ok cues ∧ cues.map (·.event) = p.events ∧
      (∀ x ∈ cues, ∀ channel q, x.IsNoteUnder channel q → ∀ y ∈ cues, ∀ r,
        y.IsNoteUnder channel r ∨ y.Announces channel r → r = q) ∧
      (∀ x ∈ cues, x.program = none → ∀ channel key velocity,
        x.event.event = .channel channel (.noteOn key velocity) → channel = 0) ∧
      ∀ x ∈ cues, ∀ q, x.IsNoteUnder 0 q ∨ x.Announces 0 q → IsLastProgram cues q := by
  obtain ⟨g, stop, hrun, hg, hevents, htimes⟩ := (Tree.parse_sound src).1.exists_tracer_run hp
  have hdefaulted : g.Defaulted := tracer_defaulted.perform (Traced.defaulted_empty _)
    (c := (Context.initial, none)) (fun _ => rfl) hrun
  have hsort := Cue.isStable_sort htimes
  have hmem : ∀ x, x ∈ Sorting.sort Cue.notAfter g.cues ↔ x ∈ g.cues := fun x => hsort.mem_iff x
  -- The table at the end knows the program of every channel that is set or has notes under one.
  have hprogram : ∀ x ∈ g.cues, ∀ ch q,
      x.IsNoteUnder (Channels.number ch) q ∨ x.Announces (Channels.number ch) q →
        g.stage.channels.program ch = some q := by
    rintro x hx ch q (hnote | hannounces)
    · obtain ⟨d, hd, hq⟩ := hg.notes x hx _ q hnote
      rwa [Channels.number_inj hd]
    · exact hg.program_of_announces hx hannounces
  refine ⟨_, by rw [Tree.trace, hrun]; rfl, (hg.map_event_sort htimes).trans hevents.symm, ?_, ?_, ?_⟩
  · intro x hx channel q hnote y hy r hr
    obtain ⟨ch, rfl, hq⟩ := hg.notes x ((hmem x).1 hx) channel q hnote
    have hr := hprogram y ((hmem y).1 hy) ch r hr
    exact Option.some.inj (hr.symm.trans hq)
  · intro x hx
    exact hdefaulted.notes x ((hmem x).1 hx)
  · intro x hx q hq
    obtain ⟨programs, hzero, hset, hdistinct⟩ :=
      Traced.isLastProgram hg hdefaulted.stacked (hprogram x ((hmem x).1 hx) 0 q hq)
    refine ⟨programs, hzero, fun c hc => ?_, hdistinct⟩
    obtain ⟨z, hz, hannounces⟩ := hset c hc
    exact ⟨z, (hmem z).2 hz, hannounces⟩

/-- A note under no program, fourteen programs, and a note under the last of them. -/
def fourteenPrograms : Bytes :=
  Bytes.ofString ("0 " ++
    String.join ((List.range 14).map fun p => "'program_" ++ toString p ++ "' ") ++ "0")

theorem Tree.trace_fourteenPrograms :
    ∃ p cues, (Tree.parse fourteenPrograms).1.perform = .ok p ∧
      (Tree.parse fourteenPrograms).1.trace = .ok cues ∧ cues.map (·.event) = p.events ∧
      ⟨⟨⟨0, 1⟩, .channel 0 (.noteOn 60 64)⟩, none⟩ ∈ cues ∧
      ⟨⟨⟨1, 4⟩, .channel 0 (.noteOn 60 64)⟩, some 13⟩ ∈ cues := by
  have hevents : ((Tree.parse fourteenPrograms).1.trace.map (·.map (·.event))).toOption =
      ((Tree.parse fourteenPrograms).1.perform.map (·.events)).toOption := by decide +kernel
  have hcues : ((Tree.parse fourteenPrograms).1.trace.toOption.any fun cues =>
      cues.contains ⟨⟨⟨0, 1⟩, .channel 0 (.noteOn 60 64)⟩, none⟩ &&
        cues.contains ⟨⟨⟨1, 4⟩, .channel 0 (.noteOn 60 64)⟩, some 13⟩) = true := by decide +kernel
  cases htrace : (Tree.parse fourteenPrograms).1.trace with
  | error e =>
    rw [htrace] at hcues
    cases hcues
  | ok cues =>
    rw [htrace] at hcues hevents
    cases hperform : (Tree.parse fourteenPrograms).1.perform with
    | error e =>
      rw [hperform] at hevents
      cases hevents
    | ok p =>
      rw [hperform] at hevents
      obtain ⟨hplain, hlast⟩ := Bool.and_eq_true_iff.1 hcues
      exact ⟨p, cues, rfl, rfl, Option.some.inj hevents, List.contains_iff_mem.1 hplain,
        List.contains_iff_mem.1 hlast⟩

theorem Tree.channel_of_notes_fourteenPrograms :
    ∃ p cues, (Tree.parse fourteenPrograms).1.perform = .ok p ∧
      (Tree.parse fourteenPrograms).1.trace = .ok cues ∧ IsLastProgram cues 13 := by
  obtain ⟨p, cues, hperform, htrace, -, -, hnote⟩ := Tree.trace_fourteenPrograms
  obtain ⟨cues', htrace', -, -, -, hlast⟩ := Tree.channel_of_notes hperform
  obtain rfl := Except.ok.inj (htrace.symm.trans htrace')
  exact ⟨p, cues, hperform, htrace, hlast _ hnote 13 (.inl ⟨rfl, 60, 64, rfl⟩)⟩

/-- Notes under different programs may share a channel, if one of them is under none. -/
theorem Tree.shared_channel_fourteenPrograms :
    (Tree.parse fourteenPrograms).2 = [] ∧
      ∃ p cues x y, (Tree.parse fourteenPrograms).1.perform = .ok p ∧
        (Tree.parse fourteenPrograms).1.trace = .ok cues ∧ cues.map (·.event) = p.events ∧
        x ∈ cues ∧ y ∈ cues ∧ x.program = none ∧ y.program = some 13 ∧
        x.event.event = .channel 0 (.noteOn 60 64) ∧ y.event.event = .channel 0 (.noteOn 60 64) := by
  obtain ⟨p, cues, hperform, htrace, hevents, hplain, hlast⟩ := Tree.trace_fourteenPrograms
  exact ⟨by decide +kernel, p, cues, _, _, hperform, htrace, hevents, hplain, hlast, rfl, rfl, rfl,
    rfl⟩

end DegreeScore
