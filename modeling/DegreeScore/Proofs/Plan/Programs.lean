import DegreeScore.Proofs.Plan.Playing

/-!
# Programs and the notes played under them

The player forgets which program label a note was played under. `tracer` is the performer that does
what the player does and notes it down: a `Cue` is an event with the program in force at it, which is
that of the latest program label in its context. `Tree.trace` gives the cues of a score in the order
of its events.

In the order of playing, a program is always announced by a program change on its channel before the
first note under it (`Prepared`), and only once. In order of time this is so exactly for the notes
that do not start before the announcement.
-/

namespace DegreeScore

/-- An event with the program in force where it was played. -/
structure Cue where
  event : TimedEvent
  program : Option UInt8
deriving Repr, DecidableEq

namespace Cue

/-- The cue is a note on a channel that starts under a program. -/
def IsNoteUnder (x : Cue) (channel p : UInt8) : Prop :=
  x.program = some p ∧ ∃ key velocity, x.event.event = .channel channel (.noteOn key velocity)

/-- Whether the cue is a program change on a channel. -/
def isChangeOn (channel : UInt8) (x : Cue) : Bool :=
  match x.event.event with
  | .channel c (.programChange _) => c = channel
  | _ => false

/-- The cue sets a channel to a program. -/
def Announces (x : Cue) (channel p : UInt8) : Prop :=
  x.event.event = .channel channel (.programChange p)

theorem Announces.isChangeOn {x : Cue} {channel p : UInt8} (h : x.Announces channel p) :
    x.isChangeOn channel = true := by
  rw [Cue.isChangeOn, h]
  exact decide_eq_true rfl

/-- Cues come in the order of the times of their events. -/
def notAfter (x y : Cue) : Bool := x.event.notAfter y.event

end Cue

/-- A stage with the cues of its events. -/
structure Traced where
  stage : Stage
  cues : List Cue
  /-- For each section the program in force at its first playing, if it has been played. -/
  programs : Array (Option (Option UInt8))

namespace Traced

/-- Nothing has been played of a score with so many sections. -/
def empty (sections : Nat) : Traced := ⟨.empty sections, [], Array.replicate sections none⟩

/-- Makes a step of the player, with the program `p` in force at the events that it adds. -/
def step {α : Type} (p : Option UInt8) (x : Player α) : Playing Traced α := fun g =>
  match x.run g.stage with
  | .error e => .error e
  | .ok (a, s) => .ok (a, { g with
      stage := s
      cues := g.cues ++ (s.events.toList.drop g.cues.length).map fun e => ⟨e, p⟩ })

/-- The program in force in a section: the one of its first playing, which is `p` if this is the
first time. -/
def programFor (index : Nat) (p : Option UInt8) : Playing Traced (Option UInt8) := do
  match (← get).programs[index]? with
  | some (some first) => return first
  | _ =>
    modify fun g => { g with programs := g.programs.setIfInBounds index (some p) }
    return p

/-- The program in force after a label. -/
def programAfter (l : Bytes) (p : Option UInt8) : Option UInt8 :=
  match dynamic? l, program? l with
  | none, some q => some q
  | _, _ => p

end Traced

/-- The player, with the program in force as a part of its contexts. -/
def tracer : Performer Traced (Context × Option UInt8) Ratio where
  override c o := (player.override c.1 o, c.2)
  label c l t := do
    let inner ← Traced.step c.2 (player.label c.1 l t)
    return (inner, Traced.programAfter l c.2)
  note degree accidental c t := Traced.step c.2 (player.note degree accidental c.1 t)
  rest c t := Traced.step c.2 (player.rest c.1 t)
  contextFor i c := do
    let inner ← Traced.step c.2 (player.contextFor i c.1)
    return (inner, ← Traced.programFor i c.2)
  latest := player.latest

/-- The cues of a score in the order of its events. -/
def Tree.trace (tree : Tree) : Except PlanError (List Cue) :=
  (tracer.perform tree tree.reach (.initial, none) .zero (.empty tree.sections.size)).map
    fun r => Sorting.sort Cue.notAfter r.2.cues

-- ════════════════════════════════════════════════════════════════════════
-- Channels
-- ════════════════════════════════════════════════════════════════════════

namespace Channels

theorem number_inj {c d : Fin 16} (h : number c = number d) : c = d := by
  have hn := congrArg UInt8.toNat h
  rw [number, number, UInt8.toNat_ofNat_of_lt' (by rw [UInt8.size]; omega),
    UInt8.toNat_ofNat_of_lt' (by rw [UInt8.size]; omega)] at hn
  exact Fin.ext hn

/-- The channel of a context plays the program in force, if there is one. -/
def Plays (t : Channels) (c : Context) (p : Option UInt8) : Prop :=
  ∀ q ∈ p, ∃ ch, c.channel = number ch ∧ t.program ch = some q

/-- What is bound stays bound. -/
def Extends (t u : Channels) : Prop := ∀ ch q, t.program ch = some q → u.program ch = some q

theorem Plays.mono {t u : Channels} {c : Context} {p : Option UInt8} (h : t.Plays c p)
    (htu : t.Extends u) : u.Plays c p := by
  intro q hq
  obtain ⟨ch, hch, hbound⟩ := h q hq
  exact ⟨ch, hch, htu ch q hbound⟩

theorem program_bind (t : Channels) (c d : Fin 16) (p : UInt8) :
    (t.bind c p).program d = if d = c then some p else t.program d :=
  rfl

section

variable {t u : Channels} {p : UInt8} {c : Fin 16}

theorem playing?_of_kept (h : t.allocate p = .kept c) : t.playing? p = some c := by
  rw [allocate] at h
  split at h
  · next d hd => exact Allocation.kept.inj h ▸ hd
  · split at h <;> cases h

theorem playing?_eq_none_of_fresh (h : t.allocate p = .fresh c u) :
    t.playing? p = none ∧ t.highestFree? = some c ∧ u = t.bind c p := by
  rw [allocate] at h
  split at h
  · cases h
  · next hnone =>
    split at h
    · next d hd =>
      obtain ⟨rfl, rfl⟩ := Allocation.fresh.inj h
      exact ⟨hnone, hd, rfl⟩
    · cases h

theorem allocate_kept (h : t.allocate p = .kept c) : t.program c = some p :=
  of_decide_eq_true (List.find?_some (p := fun d => t.program d = some p) (playing?_of_kept h))

theorem allocate_fresh (h : t.allocate p = .fresh c u) : t.program c = none ∧ u = t.bind c p := by
  obtain ⟨-, hfree, hu⟩ := playing?_eq_none_of_fresh h
  have hfound := List.find?_some (show playable.find? _ = some c from hfree)
  exact ⟨Option.isNone_iff_eq_none.1 hfound, hu⟩

/-- The channel of a program is one of those that are given out. -/
theorem mem_playable_of_kept (h : t.allocate p = .kept c) : c ∈ playable :=
  List.mem_of_find?_eq_some (playing?_of_kept h)

@[inherit_doc mem_playable_of_kept]
theorem mem_playable_of_fresh (h : t.allocate p = .fresh c u) : c ∈ playable :=
  List.mem_of_find?_eq_some (playing?_eq_none_of_fresh h).2.1

end

theorem extends_bind {t : Channels} {c : Fin 16} {p : UInt8} (h : t.program c = none) :
    t.Extends (t.bind c p) := by
  intro ch q hq
  have hne : ch ≠ c := by
    rintro rfl
    rw [h] at hq
    cases hq
  rwa [program_bind, if_neg hne]

end Channels

-- ════════════════════════════════════════════════════════════════════════
-- Cues in the order of playing
-- ════════════════════════════════════════════════════════════════════════

/-- Every note under a program comes after its announcement on the channel of the note. -/
def Prepared (cues : List Cue) : Prop :=
  ∀ before x after, cues = before ++ x :: after → ∀ channel p, x.IsNoteUnder channel p →
    ∃ y ∈ before, y.Announces channel p

theorem Prepared.concat {cues : List Cue} {x : Cue} (h : Prepared cues)
    (hx : ∀ channel p, x.IsNoteUnder channel p → ∃ y ∈ cues, y.Announces channel p) :
    Prepared (cues ++ [x]) := by
  intro before y after hsplit channel p hy
  rcases List.eq_nil_or_concat' after with rfl | ⟨init, last, rfl⟩
  · obtain ⟨rfl, hlast⟩ := List.append_inj' hsplit rfl
    obtain rfl := List.singleton_inj.1 hlast
    exact hx channel p hy
  · rw [← List.cons_append, ← List.append_assoc] at hsplit
    obtain ⟨hcues, -⟩ := List.append_inj' hsplit rfl
    exact h before y init hcues channel p hy

/-- What is remembered of a section: its context and the program in force in it, once it has been
played. -/
inductive Remembered (t : Channels) :
    Option (Option Context) → Option (Option (Option UInt8)) → Prop
  | played {c : Context} {p : Option UInt8} (h : t.Plays c p) :
      Remembered t (some (some c)) (some (some p))
  | unplayed : Remembered t (some none) (some none)
  | missing : Remembered t none none

theorem Remembered.mono {t u : Channels} {c : Option (Option Context)}
    {p : Option (Option (Option UInt8))} (h : Remembered t c p) (htu : t.Extends u) :
    Remembered u c p := by
  cases h with
  | played h => exact .played (h.mono htu)
  | unplayed => exact .unplayed
  | missing => exact .missing

/-- A section has been played or not, for the player as for the tracer. -/
theorem Remembered.played_or {t : Channels} {c : Option (Option Context)}
    {p : Option (Option (Option UInt8))} (h : Remembered t c p) :
    (∃ d q, c = some (some d) ∧ p = some (some q) ∧ t.Plays d q) ∨
      (∀ d, c ≠ some (some d)) ∧ (∀ q, p ≠ some (some q)) ∧ (c = none ↔ p = none) := by
  cases h with
  | played h => exact .inl ⟨_, _, rfl, rfl, h⟩
  | unplayed => exact .inr ⟨by simp, by simp, by simp⟩
  | missing => exact .inr ⟨by simp, by simp, by simp⟩

/-- What holds between the steps of tracing: the cues are those of the stage, notes are on channels
that play the programs in force, each channel has been set as often as it is bound, to the program
it is bound to, and this before the notes under it. -/
structure Traced.Announced (g : Traced) : Prop where
  events : g.cues.map (·.event) = g.stage.events.toList
  notes : ∀ x ∈ g.cues, ∀ channel p, x.IsNoteUnder channel p →
    ∃ ch, channel = Channels.number ch ∧ g.stage.channels.program ch = some p
  changes : ∀ ch, (g.cues.filter (Cue.isChangeOn (Channels.number ch))).map (·.event.event) =
    (g.stage.channels.program ch).toList.map fun p =>
      .channel (Channels.number ch) (.programChange p)
  prepared : Prepared g.cues
  programs : ∀ i : Nat, Remembered g.stage.channels g.stage.bound[i]? g.programs[i]?

namespace Traced

variable {g : Traced}

theorem run_step {α : Type} {x : Player α} {a : α} {s : Stage} {new : List TimedEvent}
    (hg : g.Announced) (hx : x.run g.stage = .ok (a, s))
    (hnew : s.events.toList = g.stage.events.toList ++ new) (p : Option UInt8) :
    (step p x).run g = .ok (a, { g with
      stage := s
      cues := g.cues ++ new.map fun e => ⟨e, p⟩ }) := by
  have hlength : g.cues.length = g.stage.events.toList.length := by
    rw [← hg.events, List.length_map]
  change step p x g = _
  simp only [step, hx, hnew, hlength, List.drop_left]

namespace Announced

theorem exists_announcement (h : g.Announced) {ch : Fin 16} {p : UInt8}
    (hbound : g.stage.channels.program ch = some p) :
    ∃ y ∈ g.cues, y.Announces (Channels.number ch) p := by
  have hchanges := h.changes ch
  rw [hbound] at hchanges
  obtain ⟨y, hy, hevent⟩ := List.map_eq_singleton_iff.1 hchanges
  have hmem : y ∈ g.cues.filter (Cue.isChangeOn (Channels.number ch)) := by
    rw [hy]
    exact List.mem_singleton_self y
  exact ⟨y, List.mem_of_mem_filter hmem, hevent⟩

/-- A channel is only set to the program that it is bound to. -/
theorem program_of_announces (h : g.Announced) {z : Cue} (hz : z ∈ g.cues) {ch : Fin 16} {q : UInt8}
    (hannounces : z.Announces (Channels.number ch) q) : g.stage.channels.program ch = some q := by
  have hmem : z.event.event ∈
      (g.cues.filter (Cue.isChangeOn (Channels.number ch))).map (·.event.event) :=
    List.mem_map_of_mem (List.mem_filter.2 ⟨hz, hannounces.isChangeOn⟩)
  rw [h.changes ch, hannounces] at hmem
  obtain ⟨p, hp, heq⟩ := List.mem_map.1 hmem
  obtain ⟨-, hchange⟩ := Midi.Event.channel.inj heq
  obtain rfl := Midi.ChannelMessage.programChange.inj hchange
  exact Option.mem_toList.1 hp

/-- A note under a program is on a channel that is set to it once and to nothing else. -/
theorem exists_change (h : g.Announced) {x : Cue} (hx : x ∈ g.cues) {channel p : UInt8}
    (hnote : x.IsNoteUnder channel p) :
    ∃ y, g.cues.filter (Cue.isChangeOn channel) = [y] ∧ y.Announces channel p := by
  obtain ⟨ch, rfl, hbound⟩ := h.notes x hx channel p hnote
  have hchanges := h.changes ch
  rw [hbound] at hchanges
  exact List.map_eq_singleton_iff.1 hchanges

/-- An event that is no program change, and no note under a program that its channel does not
play. -/
theorem push (h : g.Announced) {x : Cue} (hother : ∀ channel, x.isChangeOn channel = false)
    (hnote : ∀ channel p, x.IsNoteUnder channel p →
      ∃ ch, channel = Channels.number ch ∧ g.stage.channels.program ch = some p) :
    Announced { g with
      stage := { g.stage with events := g.stage.events.push x.event }
      cues := g.cues ++ [x] } := by
  refine ⟨?_, fun y hy => ?_, fun ch => ?_, ?_, h.programs⟩
  · rw [List.map_append, h.events, Array.toList_push]
    rfl
  · rcases List.mem_append.1 hy with hy | hy
    · exact h.notes y hy
    · exact List.mem_singleton.1 hy ▸ hnote
  · rw [List.filter_append, List.filter_singleton, hother]
    simpa using h.changes ch
  · refine h.prepared.concat fun channel p hx => ?_
    obtain ⟨ch, rfl, hbound⟩ := hnote channel p hx
    exact h.exists_announcement hbound

/-- A note on a channel that plays the program in force. -/
theorem note (h : g.Announced) {c : Context} {p : Option UInt8} (hp : g.stage.channels.Plays c p)
    (key : UInt8) (start stop : Ratio) :
    Announced { g with
      stage := { g.stage with
        events := (g.stage.events.push ⟨start, .channel c.channel (.noteOn key c.velocity)⟩).push
          ⟨stop, .channel c.channel (.noteOff key 0)⟩ }
      cues := g.cues ++ [⟨⟨start, .channel c.channel (.noteOn key c.velocity)⟩, p⟩,
        ⟨⟨stop, .channel c.channel (.noteOff key 0)⟩, p⟩] } := by
  have hon := h.push (x := ⟨⟨start, .channel c.channel (.noteOn key c.velocity)⟩, p⟩)
    (fun _ => rfl) (by
      rintro channel q ⟨hq, k, v, hevent⟩
      obtain ⟨rfl, -⟩ := Midi.Event.channel.inj hevent
      exact hp q hq)
  have hoff := hon.push (x := ⟨⟨stop, .channel c.channel (.noteOff key 0)⟩, p⟩)
    (fun _ => rfl) (by
      rintro channel q ⟨hq, k, v, hevent⟩
      cases hevent)
  simpa [List.append_assoc] using hoff

/-- The text of a label. -/
theorem text (h : g.Announced) (l : Bytes) (t : Ratio) (p : Option UInt8) :
    Announced { g with
      stage := { g.stage with
        events := g.stage.events.push ⟨t, .info (.text Midi.MetaEvent.plainText l)⟩ }
      cues := g.cues ++ [⟨⟨t, .info (.text Midi.MetaEvent.plainText l)⟩, p⟩] } :=
  h.push (x := ⟨⟨t, .info (.text Midi.MetaEvent.plainText l)⟩, p⟩) (fun _ => rfl) (by
    rintro channel q ⟨hq, k, v, hevent⟩
    cases hevent)

/-- Binding a free channel announces its program. -/
theorem bind (h : g.Announced) {c : Fin 16} {q : UInt8} {t : Ratio} {p : Option UInt8}
    (hfree : g.stage.channels.program c = none) :
    Announced { g with
      stage := { g.stage with
        channels := g.stage.channels.bind c q
        events := g.stage.events.push ⟨t, .channel (Channels.number c) (.programChange q)⟩ }
      cues := g.cues ++ [⟨⟨t, .channel (Channels.number c) (.programChange q)⟩, p⟩] } := by
  refine ⟨?_, fun y hy => ?_, fun ch => ?_, ?_, fun i => ?_⟩
  · rw [List.map_append, h.events, Array.toList_push]
    rfl
  · rintro channel p' hnote
    rcases List.mem_append.1 hy with hy | hy
    · obtain ⟨ch, hch, hbound⟩ := h.notes y hy channel p' hnote
      exact ⟨ch, hch, Channels.extends_bind hfree ch p' hbound⟩
    · obtain rfl := List.mem_singleton.1 hy
      obtain ⟨-, key, velocity, hevent⟩ := hnote
      cases hevent
  · rw [List.filter_append, List.map_append, h.changes ch, List.filter_singleton]
    by_cases hch : ch = c
    · subst hch
      rw [hfree]
      simp [Channels.bind, Cue.isChangeOn]
    · have hne : Channels.number c ≠ Channels.number ch := fun h => hch (Channels.number_inj h).symm
      simp [Channels.bind, Cue.isChangeOn, hch, hne]
  · refine h.prepared.concat fun channel p' hx => ?_
    obtain ⟨-, key, velocity, hevent⟩ := hx
    cases hevent
  · exact (h.programs i).mono (Channels.extends_bind hfree)

end Announced

end Traced

-- ════════════════════════════════════════════════════════════════════════
-- The player and the tracer
-- ════════════════════════════════════════════════════════════════════════

/-- The tracer has the stage of the player, and the channel of each context plays the program in
force. -/
def announcing : Correspondence Stage Context Ratio Traced (Context × Option UInt8) Ratio where
  state s g := g.stage = s ∧ g.Announced
  context s _ c c' := c'.1 = c ∧ s.channels.Plays c c'.2
  time t t' := t' = t
  error _ := True

theorem announcing_extends {s u : Stage} {g w : Traced} (h : s.channels.Extends u.channels) :
    announcing.Extends s g u w :=
  fun _ _ hc => ⟨hc.1, hc.2.mono h⟩

/-- A step that both make is followed if the cues it adds keep what holds between steps. -/
theorem announcing_step {α : Type} {g : Traced} {x : Player α} {p : Option UInt8}
    {post : Stage → Traced → α → α → Prop} (hg : g.Announced)
    (h : ∀ a s, x.run g.stage = .ok (a, s) → ∃ new,
      s.events.toList = g.stage.events.toList ++ new ∧
        Traced.Announced { g with stage := s, cues := g.cues ++ new.map fun e => ⟨e, p⟩ } ∧
        g.stage.channels.Extends s.channels ∧ ∀ w, post s w a a) :
    announcing.Follows g.stage g x (Traced.step p x) post := by
  rw [Correspondence.Follows]
  split
  · exact .inl trivial
  · next a s hx =>
    obtain ⟨new, hnew, hannounced, hextends, hpost⟩ := h a s hx
    exact ⟨a, _, Traced.run_step hg hx hnew p, ⟨rfl, hannounced⟩, announcing_extends hextends,
      hpost _⟩

theorem Traced.Announced.unchanged {g : Traced} (h : g.Announced) (p : Option UInt8) :
    Traced.Announced { g with cues := g.cues ++ [].map fun e => ⟨e, p⟩ } := by
  simpa using h

theorem Channels.Extends.refl (t : Channels) : t.Extends t := fun _ _ h => h

theorem announcing_rest : announcing.Alike player.rest tracer.rest := by
  rintro s g _ ⟨c, p⟩ _ t ⟨rfl, hg⟩ ⟨rfl, hp⟩ rfl
  refine announcing_step hg fun a s hx => ?_
  change (Player.later _ _).run _ = _ at hx
  rw [Player.run_later] at hx
  split at hx
  · next stop _ =>
    obtain ⟨rfl, rfl⟩ := Prod.mk.inj (Except.ok.inj hx)
    exact ⟨[], by simp, hg.unchanged p, .refl _, fun _ => rfl⟩
  · cases hx

theorem announcing_note (degree accidental : Int64) :
    announcing.Alike (player.note degree accidental) (tracer.note degree accidental) := by
  rintro s g _ ⟨c, p⟩ _ t ⟨rfl, hg⟩ ⟨rfl, hp⟩ rfl
  refine announcing_step hg fun a s hx => ?_
  change (Player.note _ _ _).run _ = _ at hx
  rw [Player.run_note] at hx
  split at hx
  · next stop _ =>
    obtain ⟨rfl, rfl⟩ := Prod.mk.inj (Except.ok.inj hx)
    exact ⟨[_, _], toList_push_push .., hg.note hp _ t stop, .refl _, fun _ => rfl⟩
  · cases hx

theorem announcing_label {s : Stage} {g : Traced} {c : Context} {c' : Context × Option UInt8}
    {t t' : Ratio} {l : Bytes} (hs : announcing.state s g) (hc : announcing.context s g c c')
    (ht : announcing.time t t') :
    announcing.Follows s g (player.label c l t) (tracer.label c' l t') announcing.context := by
  obtain ⟨d, p⟩ := c'
  obtain ⟨rfl, hg⟩ := hs
  obtain ⟨rfl, hp⟩ := hc
  obtain rfl := ht
  have hstep : announcing.Follows g.stage g (player.label d l t')
      (Traced.step p (player.label d l t'))
      fun u _ a a' => a' = a ∧ u.channels.Plays a (Traced.programAfter l p) := by
    refine announcing_step hg fun a s hx => ?_
    change (Player.label _ _ _).run _ = _ at hx
    rw [Player.run_label] at hx
    rw [Traced.programAfter]
    cases hdynamic : dynamic? l with
    | some v =>
      rw [hdynamic] at hx
      obtain ⟨rfl, rfl⟩ := Prod.mk.inj (Except.ok.inj hx)
      exact ⟨[], by simp, hg.unchanged p, .refl _, fun _ => ⟨rfl, hp⟩⟩
    | none =>
      cases hprogram : program? l with
      | none =>
        rw [hdynamic, hprogram] at hx
        obtain ⟨rfl, rfl⟩ := Prod.mk.inj (Except.ok.inj hx)
        exact ⟨[_], Array.toList_push .., hg.text l t' p, .refl _, fun _ => ⟨rfl, hp⟩⟩
      | some q =>
        rw [hdynamic, hprogram] at hx
        dsimp only at hx
        split at hx
        · next ch hkept =>
          obtain ⟨rfl, rfl⟩ := Prod.mk.inj (Except.ok.inj hx)
          refine ⟨[], by simp, hg.unchanged p, .refl _, fun _ => ⟨rfl, ?_⟩⟩
          rintro _ ⟨⟩
          exact ⟨ch, rfl, Channels.allocate_kept hkept⟩
        · next ch channels hfresh =>
          obtain ⟨rfl, rfl⟩ := Prod.mk.inj (Except.ok.inj hx)
          obtain ⟨hfree, rfl⟩ := Channels.allocate_fresh hfresh
          refine ⟨[_], Array.toList_push .., hg.bind hfree, Channels.extends_bind hfree,
            fun _ => ⟨rfl, ?_⟩⟩
          rintro _ ⟨⟩
          exact ⟨ch, rfl, if_pos rfl⟩
        · cases hx
  exact hstep.map_right fun u w a a' h => h

theorem Traced.run_programFor (g : Traced) (i : Nat) (p : Option UInt8) :
    (programFor i p).run g = match g.programs[i]? with
      | some (some first) => .ok (first, g)
      | _ => .ok (p, { g with programs := g.programs.setIfInBounds i (some p) }) := by
  rw [programFor, StateT.run_bind]
  change (match g.programs[i]? with
    | some (some first) => _
    | _ => _ : Playing Traced (Option UInt8)).run g = _
  split <;> rfl

/-- A section that is played for the first time is remembered with the program in force. -/
theorem Traced.Announced.remember {g : Traced} (h : g.Announced) {c : Context} {p : Option UInt8}
    {i : Nat} (hp : g.stage.channels.Plays c p)
    (hsize : i < g.stage.bound.size ↔ i < g.programs.size) :
    Traced.Announced { g with
      stage := { g.stage with bound := g.stage.bound.setIfInBounds i (some c) }
      programs := g.programs.setIfInBounds i (some p) } := by
  refine ⟨h.events, h.notes, h.changes, h.prepared, fun j => ?_⟩
  dsimp only
  rw [Array.getElem?_setIfInBounds, Array.getElem?_setIfInBounds]
  by_cases hij : i = j
  · rw [if_pos hij, if_pos hij]
    by_cases hi : i < g.stage.bound.size
    · rw [if_pos hi, if_pos (hsize.1 hi)]
      exact .played hp
    · rw [if_neg hi, if_neg fun h => hi (hsize.2 h)]
      exact .missing
  · rw [if_neg hij, if_neg hij]
    exact h.programs j

theorem Traced.run_contextFor {g : Traced} (hg : g.Announced) {i : Nat} {c a : Context}
    {p : Option UInt8} {s : Stage} (hx : (Player.contextFor i c).run g.stage = .ok (a, s))
    (hs : s.events = g.stage.events) :
    (tracer.contextFor i (c, p)).run g =
      ((programFor i p).run { g with stage := s }).map fun r => ((a, r.1), r.2) := by
  have hnew : s.events.toList = g.stage.events.toList ++ [] := by rw [hs, List.append_nil]
  change (step p (Player.contextFor i c) >>= fun inner =>
    programFor i p >>= fun q => pure (inner, q)).run g = _
  rw [StateT.run_bind, run_step hg hx hnew p, List.map_nil, List.append_nil]
  change (programFor i p >>= fun q => pure (a, q)).run { g with stage := s } = _
  rw [StateT.run_bind]
  cases (programFor i p).run { g with stage := s } <;> rfl

theorem announcing_contextFor {s : Stage} {g : Traced} {c : Context} {c' : Context × Option UInt8}
    (i : Nat) (hs : announcing.state s g) (hc : announcing.context s g c c') :
    announcing.Follows s g (player.contextFor i c) (tracer.contextFor i c') announcing.context := by
  obtain ⟨d, p⟩ := c'
  obtain ⟨rfl, hg⟩ := hs
  obtain ⟨rfl, hp⟩ := hc
  change announcing.Follows _ _ (Player.contextFor i d) _ _
  rw [Correspondence.Follows]
  rcases (hg.programs i).played_or with ⟨first, q, hbound, hprograms, hplays⟩ |
    ⟨hbound, hprograms, hnone⟩
  · have hrun : (Player.contextFor i d).run g.stage = .ok (first, g.stage) := by
      rw [Player.run_contextFor, hbound]
    rw [hrun]
    refine ⟨(first, q), g, ?_, ⟨rfl, hg⟩, announcing_extends (.refl _), rfl, hplays⟩
    rw [Traced.run_contextFor hg hrun rfl, Traced.run_programFor, hprograms]
    rfl
  · have hrun : (Player.contextFor i d).run g.stage =
        .ok (d, { g.stage with bound := g.stage.bound.setIfInBounds i (some d) }) := by
      rw [Player.run_contextFor]
      split
      · next first hfirst => exact absurd hfirst (hbound first)
      · rfl
    have hsize : i < g.stage.bound.size ↔ i < g.programs.size := by
      rw [Array.getElem?_eq_none_iff, Array.getElem?_eq_none_iff] at hnone
      omega
    rw [hrun]
    refine ⟨(d, p), _, ?_, ⟨rfl, hg.remember hp hsize⟩, announcing_extends (.refl _), rfl, hp⟩
    rw [Traced.run_contextFor hg hrun rfl, Traced.run_programFor]
    dsimp only
    split
    · next q hq => exact absurd hq (hprograms q)
    · rfl

theorem announcing_override {size : Nat} {s : Stage} {g : Traced} {c : Context}
    {c' : Context × Option UInt8} {o : Options} (hc : announcing.context s g c c')
    (_ : o.Sound size) :
    announcing.context s g (player.override c o) (tracer.override c' o) := by
  obtain ⟨rfl, hp⟩ := hc
  refine ⟨rfl, fun q hq => ?_⟩
  rw [show (player.override c'.1 o).channel = c'.1.channel from c'.1.channel_override (some o)]
  exact hp q hq

/-- The tracer does what the player does, and announces programs in the order of playing. -/
theorem tracer_announces (size : Nat) : Simulates size player tracer announcing where
  override := announcing_override
  label hs hc ht _ := announcing_label hs hc ht
  note := announcing_note
  rest := announcing_rest
  contextFor := announcing_contextFor
  latest := by
    rintro t _ u _ rfl rfl
    rfl

-- ════════════════════════════════════════════════════════════════════════
-- Cues in order of time
-- ════════════════════════════════════════════════════════════════════════

theorem Traced.announced_empty (sections : Nat) : (Traced.empty sections).Announced := by
  refine ⟨rfl, by simp [Traced.empty], fun ch => rfl, ?_, fun i => ?_⟩
  · intro before x after h
    simp [Traced.empty] at h
  · simp only [Traced.empty, Stage.empty, Array.getElem?_replicate]
    split
    · exact .unplayed
    · exact .missing

/-- The tracer performs what the player performs. -/
theorem Tree.Sound.exists_tracer_run {size : Nat} {tree : Tree} (h : tree.Sound size)
    {p : Performance} (hp : tree.perform = .ok p) : ∃ (g : Traced) (stop : Ratio),
      tracer.perform tree tree.reach (.initial, none) .zero (.empty tree.sections.size) =
        .ok (stop, g) ∧ g.Announced ∧
      p.events = Sorting.sort TimedEvent.notAfter g.stage.events.toList ∧
      ∀ x ∈ g.cues, x.event.time.IsTime := by
  have hs : announcing.state (.empty tree.sections.size) (.empty tree.sections.size) :=
    ⟨rfl, Traced.announced_empty _⟩
  have hc : announcing.context (.empty tree.sections.size) (.empty tree.sections.size) .initial
      (.initial, none) := ⟨rfl, by rintro _ ⟨⟩⟩
  have ht : announcing.time .zero .zero := rfl
  have htrace := (tracer_announces size).perform h hs hc ht
  have hsound := h.perform_player
  rw [h.perform_eq_map] at hp
  split at htrace
  · next he =>
    rw [he] at hp
    cases hp
  · next stop s hrun =>
    rw [hrun] at hp hsound
    obtain rfl := Except.ok.inj hp
    obtain ⟨stop', g, hg, ⟨rfl, hannounced⟩, -⟩ := htrace
    refine ⟨g, stop', hg, hannounced, rfl, fun x hx => ?_⟩
    have hmem : x.event ∈ g.stage.events.toList := hannounced.events ▸ List.mem_map_of_mem hx
    exact (hsound.2.events x.event (Array.mem_toList_iff.1 hmem)).time

/-- The cues of a performance: those of a traced stage in order of time. -/
theorem Tree.Sound.exists_traced {size : Nat} {tree : Tree} (h : tree.Sound size) {p : Performance}
    (hp : tree.perform = .ok p) : ∃ g : Traced, g.Announced ∧
      tree.trace = .ok (Sorting.sort Cue.notAfter g.cues) ∧
      p.events = Sorting.sort TimedEvent.notAfter g.stage.events.toList ∧
      ∀ x ∈ g.cues, x.event.time.IsTime := by
  obtain ⟨g, stop, hrun, hg, hevents, htimes⟩ := h.exists_tracer_run hp
  exact ⟨g, hg, by rw [Tree.trace, hrun]; rfl, hevents, htimes⟩

theorem Cue.isStable_sort {cues : List Cue} (h : ∀ x ∈ cues, x.event.time.IsTime) :
    Sorting.IsStable (fun x => x.event.time.value) cues (Sorting.sort notAfter cues) :=
  Sorting.isStable_sort fun x hx y hy => TimedEvent.notAfter_eq (h x hx).proper (h y hy).proper

/-- Cues in order of time are those of the events in order of time. -/
theorem Traced.Announced.map_event_sort {g : Traced} (h : g.Announced)
    (htimes : ∀ x ∈ g.cues, x.event.time.IsTime) :
    (Sorting.sort Cue.notAfter g.cues).map (·.event) =
      Sorting.sort TimedEvent.notAfter g.stage.events.toList := by
  have htimes' : ∀ e ∈ g.cues.map (·.event), e.time.IsTime := List.forall_mem_map.2 htimes
  have hmap : Sorting.IsStable (fun e => e.time.value) (g.cues.map (·.event))
      ((Sorting.sort Cue.notAfter g.cues).map (·.event)) := .map (Cue.isStable_sort htimes)
  rw [← h.events]
  exact hmap.unique (TimedEvent.isStable_sort htimes')

/-- In order of time, a note under a program comes after the program change that sets its channel to
the program exactly if it does not start before that change. There is one such change. -/
theorem Tree.announced_before_iff {src : Bytes} {p : Performance}
    (hp : (Tree.parse src).1.perform = .ok p) :
    ∃ cues, (Tree.parse src).1.trace = .ok cues ∧ cues.map (·.event) = p.events ∧
      ∀ before x after, cues = before ++ x :: after →
        ∀ channel q, x.IsNoteUnder channel q →
          ∃ y, cues.filter (Cue.isChangeOn channel) = [y] ∧ y.Announces channel q ∧
            ((∃ z ∈ before, z.Announces channel q) ↔ y.event.time.value ≤ x.event.time.value) := by
  obtain ⟨g, hg, htrace, hevents, htimes⟩ := (Tree.parse_sound src).1.exists_traced hp
  have hsort := Cue.isStable_sort htimes
  refine ⟨_, htrace, ?_, ?_⟩
  · rw [hevents]
    exact hg.map_event_sort htimes
  · intro before x after hsplit channel q hx
    have hmem : ∀ z ∈ before ++ x :: after, z ∈ g.cues := by
      intro z hz
      exact (hsort.mem_iff z).1 (hsplit ▸ hz)
    obtain ⟨y, hy, hannounces⟩ := hg.exists_change (hmem x (by simp)) hx
    have hyg : y ∈ g.cues := List.mem_of_mem_filter (hy ▸ List.mem_singleton_self y)
    have honly : ∀ z ∈ g.cues, z.Announces channel q → z = y := by
      intro z hz hannounces
      have hz : z ∈ [y] := hy ▸ List.mem_filter.2 ⟨hz, hannounces.isChangeOn⟩
      exact List.mem_singleton.1 hz
    refine ⟨y, ?_, hannounces, ?_, fun hle => ⟨y, ?_, hannounces⟩⟩
    · exact List.perm_singleton.1 (hy ▸ hsort.perm.filter _)
    · rintro ⟨z, hz, hzannounces⟩
      obtain rfl := honly z (hmem z (List.mem_append_left _ hz)) hzannounces
      have hordered := hsort.ordered
      rw [hsplit] at hordered
      exact (List.pairwise_append.1 hordered).2.2 z hz x List.mem_cons_self
    · refine hsort.mem_before hyg hle (fun pre post hpre => ?_) hsplit
      obtain ⟨z, hz, hzannounces⟩ := hg.prepared pre x post hpre channel q hx
      exact honly z (hpre ▸ List.mem_append_left _ hz) hzannounces ▸ hz

/-- A chord of which the first child comes to a program a quarter note after the second one has
played under it. -/
def twoVoices : Bytes := Bytes.ofString "\x7b[r 'program_5' 0]['program_5' 1]\x7d"

/-- The later of the two notes comes after the program change. -/
theorem Tree.announced_in_first_voice :
    (∃ p, (Tree.parse twoVoices).1.perform = .ok p) ∧
      ∃ before x after, (Tree.parse twoVoices).1.trace = .ok (before ++ x :: after) ∧
        x.IsNoteUnder 15 5 ∧ ∃ z ∈ before, z.Announces 15 5 := by
  have hperform : (Tree.parse twoVoices).1.perform =
      .ok ⟨[⟨⟨0, 1⟩, .channel 15 (.noteOn 62 64)⟩, ⟨⟨1, 4⟩, .channel 15 (.programChange 5)⟩,
        ⟨⟨1, 4⟩, .channel 15 (.noteOn 60 64)⟩, ⟨⟨1, 4⟩, .channel 15 (.noteOff 62 0)⟩,
        ⟨⟨1, 2⟩, .channel 15 (.noteOff 60 0)⟩], ⟨1, 2⟩⟩ := by decide +kernel
  have htrace : (Tree.parse twoVoices).1.trace =
      .ok ([⟨⟨⟨0, 1⟩, .channel 15 (.noteOn 62 64)⟩, some 5⟩,
          ⟨⟨⟨1, 4⟩, .channel 15 (.programChange 5)⟩, none⟩] ++
        ⟨⟨⟨1, 4⟩, .channel 15 (.noteOn 60 64)⟩, some 5⟩ ::
        [⟨⟨⟨1, 4⟩, .channel 15 (.noteOff 62 0)⟩, some 5⟩,
          ⟨⟨⟨1, 2⟩, .channel 15 (.noteOff 60 0)⟩, some 5⟩]) := by decide +kernel
  obtain ⟨cues, hcues, -, hiff⟩ := Tree.announced_before_iff hperform
  rw [htrace] at hcues
  have hnote : Cue.IsNoteUnder ⟨⟨⟨1, 4⟩, .channel 15 (.noteOn 60 64)⟩, some 5⟩ 15 5 :=
    ⟨rfl, 60, 64, rfl⟩
  obtain ⟨y, hy, -, hbefore⟩ := hiff _ _ _ (Except.ok.inj hcues).symm 15 5 hnote
  obtain rfl : _ = y := List.singleton_inj.1 ((congrArg _ (Except.ok.inj hcues)).trans hy)
  exact ⟨⟨_, hperform⟩, _, _, _, htrace, hnote, hbefore.2 le_rfl⟩

/-- The earlier of the two notes comes first of all events, and so before the program change. -/
theorem Tree.not_announced_in_second_voice :
    (Tree.parse twoVoices).2 = [] ∧
      ∃ p before x after, (Tree.parse twoVoices).1.perform = .ok p ∧
        (Tree.parse twoVoices).1.trace = .ok (before ++ x :: after) ∧
        (before ++ x :: after).map (·.event) = p.events ∧
        x.IsNoteUnder 15 5 ∧ ¬∃ z ∈ before, z.Announces 15 5 := by
  refine ⟨by decide +kernel,
    ⟨[⟨⟨0, 1⟩, .channel 15 (.noteOn 62 64)⟩, ⟨⟨1, 4⟩, .channel 15 (.programChange 5)⟩,
      ⟨⟨1, 4⟩, .channel 15 (.noteOn 60 64)⟩, ⟨⟨1, 4⟩, .channel 15 (.noteOff 62 0)⟩,
      ⟨⟨1, 2⟩, .channel 15 (.noteOff 60 0)⟩], ⟨1, 2⟩⟩, [],
    ⟨⟨⟨0, 1⟩, .channel 15 (.noteOn 62 64)⟩, some 5⟩,
    [⟨⟨⟨1, 4⟩, .channel 15 (.programChange 5)⟩, none⟩,
      ⟨⟨⟨1, 4⟩, .channel 15 (.noteOn 60 64)⟩, some 5⟩,
      ⟨⟨⟨1, 4⟩, .channel 15 (.noteOff 62 0)⟩, some 5⟩,
      ⟨⟨⟨1, 2⟩, .channel 15 (.noteOff 60 0)⟩, some 5⟩],
    by decide +kernel, by decide +kernel, rfl, ⟨rfl, 62, 64, rfl⟩, by simp⟩

end DegreeScore
