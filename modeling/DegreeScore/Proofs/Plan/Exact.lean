import DegreeScore.Proofs.Plan.Playing

/-!
# Playing in exact time

`Exact.player` is the performer that counts time in rational numbers, of which none is too large. It
walks a score as the player does and `Tree.performExactly` puts its events in order of time with the
library's stable sort.

`Stage.exact` and its companions replace the fractions of a stage by the numbers they stand for. The
player keeps its stage at the exact one throughout (`player_refines`), so a performance differs from
the exact one in no event and no time, and ends with an overflow where it cannot keep up.
-/

namespace DegreeScore

namespace Exact

/-- A context with an exact duration. -/
structure Context where
  channel : UInt8
  duration : ℚ
  key : Int64
  velocity : UInt8
deriving DecidableEq

/-- The context of a whole score. -/
def Context.initial : Context := { channel := 0, duration := 1 / 4, key := 0, velocity := 64 }

/-- An event at an exact time. -/
structure TimedEvent where
  time : ℚ
  event : Midi.Event
deriving DecidableEq

/-- Events in order of time, and the length of the whole. -/
structure Performance where
  events : List TimedEvent
  duration : ℚ
deriving DecidableEq

/-- What playing has brought about so far. -/
structure Stage where
  channels : Channels
  bound : Array (Option Context)
  events : List TimedEvent

/-- Nothing has been played of a score with so many sections. -/
def Stage.empty (sections : Nat) : Stage :=
  { channels := .free, bound := Array.replicate sections none, events := [] }

/-- Adds an event. -/
def emit (time : ℚ) (event : Midi.Event) : Playing Stage Unit :=
  modify fun s => { s with events := s.events ++ [⟨time, event⟩] }

/-- The channel of a program, announced by a program change when it is first used. -/
def program (p : UInt8) (time : ℚ) : Playing Stage UInt8 := do
  match (← get).channels.allocate p with
  | .kept c => return Channels.number c
  | .fresh c t =>
    modify fun s => { s with channels := t }
    emit time (.channel (Channels.number c) (.programChange p))
    return Channels.number c
  | .exhausted => throw (.outOfChannels p)

/-- A dynamic sets the velocity, a program the channel, and any other label is written out. -/
def label (c : Context) (l : Bytes) (time : ℚ) : Playing Stage Context := do
  match dynamic? l with
  | some v => return { c with velocity := v }
  | none =>
    match program? l with
    | some p => return { c with channel := ← program p time }
    | none =>
      emit time (.info (.text Midi.MetaEvent.plainText l))
      return c

/-- A note lasts from its start for the duration in force. -/
def note (key : UInt8) (c : Context) (time : ℚ) : Playing Stage ℚ := do
  emit time (.channel c.channel (.noteOn key c.velocity))
  emit (time + c.duration) (.channel c.channel (.noteOff key 0))
  return time + c.duration

/-- The context in which to play a section: the one it was first played in. -/
def contextFor (index : Nat) (c : Context) : Playing Stage Context := do
  match (← get).bound[index]? with
  | some (some first) => return first
  | _ =>
    modify fun s => { s with bound := s.bound.setIfInBounds index (some c) }
    return c

/-- The performer that counts time in rational numbers: what comes in turn starts at the sum of what
came before it, and what sounds together ends with the last. -/
def player : Performer Stage Context ℚ where
  override c o :=
    { c with
      duration := (o.duration.map Ratio.value).getD c.duration
      key := o.key.getD c.key
      velocity := (o.labels.filterMap dynamic?).getLastD c.velocity }
  label := label
  note degree accidental c t := note (pitch degree accidental c.key) c t
  rest c t := return t + c.duration
  contextFor := contextFor
  latest := max

end Exact

/-- Plays a score in exact time. Events of one time keep the order in which they were played. -/
def Tree.performExactly (tree : Tree) : Except PlanError Exact.Performance :=
  (Exact.player.perform tree tree.reach .initial 0 (.empty tree.sections.size)).map fun r =>
    ⟨r.2.events.mergeSort fun a b => a.time ≤ b.time, r.1⟩

-- ════════════════════════════════════════════════════════════════════════
-- From fractions to numbers
-- ════════════════════════════════════════════════════════════════════════

/-- The context with the number that its duration stands for. -/
def Context.exact (c : Context) : Exact.Context :=
  { channel := c.channel, duration := c.duration.value, key := c.key, velocity := c.velocity }

/-- The event at the number that its time stands for. -/
def TimedEvent.exact (e : TimedEvent) : Exact.TimedEvent := ⟨e.time.value, e.event⟩

/-- The performance with the numbers that its times stand for. -/
def Performance.exact (p : Performance) : Exact.Performance :=
  ⟨p.events.map TimedEvent.exact, p.duration.value⟩

/-- The stage with the numbers that its times stand for. -/
def Stage.exact (s : Stage) : Exact.Stage :=
  { channels := s.channels
    bound := s.bound.map (Option.map Context.exact)
    events := s.events.toList.map TimedEvent.exact }

theorem Stage.exact_empty (sections : Nat) : (Stage.empty sections).exact = .empty sections := by
  simp [Stage.exact, Stage.empty, Exact.Stage.empty]

theorem Stage.exact_push (s : Stage) (channels : Channels) (e : TimedEvent) :
    Stage.exact { s with channels, events := s.events.push e } =
      { s.exact with channels, events := s.exact.events ++ [e.exact] } := by
  simp [Stage.exact]

theorem Context.exact_initial : Context.initial.exact = .initial := by
  have hquarter : Ratio.value ⟨1, 4⟩ = 1 / 4 := by
    rw [Ratio.value, show (1 : Int64).toInt = 1 by decide, show (4 : Int64).toInt = 4 by decide]
    norm_num
  rw [Context.exact, Context.initial, hquarter]
  rfl

/-- The last dynamic among the labels counts. -/
theorem Context.withDynamics_eq (c : Context) (ls : List Bytes) :
    c.withDynamics ls = { c with velocity := (ls.filterMap dynamic?).getLastD c.velocity } := by
  rw [withDynamics]
  induction ls generalizing c with
  | nil => rfl
  | cons l rest ih =>
    rw [List.foldl_cons]
    cases hl : dynamic? l with
    | none => rw [List.filterMap_cons_none hl, ih]
    | some v => rw [List.filterMap_cons_some hl, List.getLastD_cons, ih]

theorem Context.exact_override (c : Context) (o : Options) :
    (c.override (some o)).exact = Exact.player.override c.exact o := by
  rw [Context.override, Context.withDynamics_eq]
  cases hd : o.duration <;> simp [Context.exact, Exact.player, hd]

namespace Exact

variable (s : Stage)

theorem run_label (c : Context) (l : Bytes) (t : ℚ) :
    (label c l t).run s = match dynamic? l, program? l with
      | some v, _ => .ok ({ c with velocity := v }, s)
      | none, some p =>
        match s.channels.allocate p with
        | .kept ch => .ok ({ c with channel := Channels.number ch }, s)
        | .fresh ch channels => .ok ({ c with channel := Channels.number ch }, { s with
            channels
            events := s.events ++ [⟨t, .channel (Channels.number ch) (.programChange p)⟩] })
        | .exhausted => .error (.outOfChannels p)
      | none, none => .ok (c, { s with
          events := s.events ++ [⟨t, .info (.text Midi.MetaEvent.plainText l)⟩] }) := by
  rw [label]
  cases dynamic? l with
  | some v => rfl
  | none =>
    cases program? l with
    | none => rfl
    | some p =>
      change (program p t >>= fun ch => pure { c with channel := ch } :
        Playing Stage Context).run s = _
      rw [StateT.run_bind, program, StateT.run_bind]
      change ((match s.channels.allocate p with
        | .kept c => _
        | .fresh c channels => _
        | .exhausted => _ : Playing Stage UInt8).run s >>= _) = _
      dsimp only
      cases s.channels.allocate p <;> rfl

theorem run_contextFor (i : Nat) (c : Context) :
    (contextFor i c).run s = match s.bound[i]? with
      | some (some first) => .ok (first, s)
      | _ => .ok (c, { s with bound := s.bound.setIfInBounds i (some c) }) := by
  rw [contextFor, StateT.run_bind]
  change (match s.bound[i]? with
    | some (some first) => _
    | _ => _ : Playing Stage Context).run s = _
  split <;> rfl

end Exact

-- ════════════════════════════════════════════════════════════════════════
-- The player keeps to exact time
-- ════════════════════════════════════════════════════════════════════════

/-- A label does in exact time what it does in the player's. -/
theorem Player.exact_label (s : Stage) (c : Context) (l : Bytes) (t : Ratio) :
    (Exact.label c.exact l t.value).run s.exact =
      ((Player.label c l t).run s).map fun r => (r.1.exact, r.2.exact) := by
  rw [Exact.run_label, Player.run_label]
  cases dynamic? l with
  | some v => rfl
  | none =>
    cases program? l with
    | none =>
      have hpush := s.exact_push s.channels ⟨t, .info (.text Midi.MetaEvent.plainText l)⟩
      dsimp only [Except.map]
      rw [hpush]
      rfl
    | some p =>
      have hchannels : s.exact.channels = s.channels := rfl
      dsimp only
      rw [hchannels]
      cases s.channels.allocate p with
      | kept ch => rfl
      | exhausted => rfl
      | fresh ch channels =>
        have hpush := s.exact_push channels
          ⟨t, .channel (Channels.number ch) (.programChange p)⟩
        dsimp only [Except.map]
        rw [hpush]
        rfl

/-- A section is played in the same context in exact time. -/
theorem Player.exact_contextFor (s : Stage) (i : Nat) (c : Context) :
    (Exact.contextFor i c.exact).run s.exact =
      ((Player.contextFor i c).run s).map fun r => (r.1.exact, r.2.exact) := by
  have hbound : s.exact.bound[i]? = s.bound[i]?.map (Option.map Context.exact) :=
    Array.getElem?_map ..
  have hset : Stage.exact { s with bound := s.bound.setIfInBounds i (some c) } =
      { s.exact with bound := s.exact.bound.setIfInBounds i (some c.exact) } := by
    simp [Stage.exact, Array.map_setIfInBounds]
  rw [Exact.run_contextFor, Player.run_contextFor, hbound]
  rcases s.bound[i]? with _ | _ | first
  · exact congrArg (fun u => Except.ok (c.exact, u)) hset.symm
  · exact congrArg (fun u => Except.ok (c.exact, u)) hset.symm
  · rfl

/-- The exact performer has the numbers of the player, whose times are valid. The player alone may
end with a sum that does not fit; all other errors are common to both. -/
def refining (size : Nat) :
    Correspondence Stage Context Ratio Exact.Stage Exact.Context ℚ where
  state s s' := s.Sound size ∧ s' = s.exact
  context _ _ c c' := c.duration.IsTime ∧ c' = c.exact
  time t t' := t.IsTime ∧ t' = t.value
  error e := ∃ r o : Ratio, r.IsTime ∧ o.IsTime ∧ ¬r.SumFits o ∧ e = .overflow ⟨r, .add, o⟩
  shared _ := True

section

variable {size : Nat}

/-- A sound step that does the same in exact time. -/
theorem refining_of_map {α β γ : Type} {s : Stage} {x : Player α} {y : Playing Exact.Stage β}
    {z : Playing Unit γ} {f : α → β} {mid : Stage → Unit → α → γ → Prop}
    {post : Stage → Exact.Stage → α → β → Prop}
    (hy : y.run s.exact = (x.run s).map fun r => (f r.1, r.2.exact))
    (hx : (soundness size).Follows s () x z mid)
    (hpost : ∀ u a b, mid u () a b → post u u.exact a (f a)) :
    (refining size).Follows s s.exact x y post := by
  rw [Correspondence.Follows] at hx ⊢
  cases hrun : x.run s with
  | error e =>
    rw [hrun] at hy
    exact .inr ⟨trivial, hy⟩
  | ok r =>
    rw [hrun] at hx hy
    obtain ⟨b, _, -, hu, -, hmid⟩ := hx
    exact ⟨f r.1, r.2.exact, hy, ⟨hu, rfl⟩, fun _ _ h => h, hpost r.2 r.1 b hmid⟩

theorem refining_label {s : Stage} {s' : Exact.Stage} {c : Context} {c' : Exact.Context} {t : Ratio}
    {t' : ℚ} {l : Bytes} (hs : (refining size).state s s') (hc : (refining size).context s s' c c')
    (ht : (refining size).time t t') (hl : l.length ≤ size) :
    (refining size).Follows s s' (player.label c l t) (Exact.player.label c' l t')
      (refining size).context := by
  obtain ⟨hs, rfl⟩ := hs
  obtain ⟨hc, rfl⟩ := hc
  obtain ⟨ht, rfl⟩ := ht
  exact refining_of_map (Player.exact_label s c l t)
    (@soundness_label size s () c () t () l hs hc ht hl) fun u d _ hd => ⟨hd, rfl⟩

theorem refining_contextFor {s : Stage} {s' : Exact.Stage} {c : Context} {c' : Exact.Context}
    (i : Nat) (hs : (refining size).state s s') (hc : (refining size).context s s' c c') :
    (refining size).Follows s s' (player.contextFor i c) (Exact.player.contextFor i c')
      (refining size).context := by
  obtain ⟨hs, rfl⟩ := hs
  obtain ⟨hc, rfl⟩ := hc
  exact refining_of_map (Player.exact_contextFor s i c)
    (@soundness_contextFor size s () c () i hs hc) fun u d _ hd => ⟨hd, rfl⟩

/-- A sum of times is exact or does not fit. -/
theorem Ratio.IsTime.add_cases {t d : Ratio} (ht : t.IsTime) (hd : d.IsTime) :
    (∃ stop, t.add d = .ok stop ∧ stop.IsTime ∧ stop.value = t.value + d.value) ∨
      t.add d = .error ⟨t, .add, d⟩ ∧ ¬t.SumFits d := by
  cases hadd : t.add d with
  | ok stop => exact .inl ⟨stop, rfl, ht.add hd hadd⟩
  | error e =>
    obtain rfl := Ratio.eq_of_add_eq_error hadd
    exact .inr ⟨rfl, (ht.add_eq_error_iff hd).1 hadd⟩

theorem refining_rest : (refining size).Alike player.rest Exact.player.rest := by
  rintro s _ c _ t _ ⟨hs, rfl⟩ ⟨hc, rfl⟩ ⟨ht, rfl⟩
  change (refining size).Follows s s.exact (Player.later t c.duration)
    (pure (t.value + c.duration.value)) _
  rw [Correspondence.Follows, Player.run_later]
  rcases ht.add_cases hc with ⟨stop, hadd, hstop, hvalue⟩ | ⟨hadd, hfits⟩
  · rw [hadd]
    exact ⟨_, _, rfl, ⟨hs, rfl⟩, fun _ _ h => h, hstop, hvalue.symm⟩
  · rw [hadd]
    exact .inl ⟨t, c.duration, ht, hc, hfits, rfl⟩

theorem refining_note (degree accidental : Int64) :
    (refining size).Alike (player.note degree accidental)
      (Exact.player.note degree accidental) := by
  rintro s _ c _ t _ ⟨hs, rfl⟩ ⟨hc, rfl⟩ ⟨ht, rfl⟩
  change (refining size).Follows s s.exact (Player.note _ c t)
    (Exact.note (pitch degree accidental c.key) c.exact t.value) _
  rw [Correspondence.Follows, Player.run_note]
  rcases ht.add_cases hc with ⟨stop, hadd, hstop, hvalue⟩ | ⟨hadd, hfits⟩
  · rw [hadd]
    refine ⟨t.value + c.duration.value, _, rfl, ⟨?_, ?_⟩, fun _ _ h => h, hstop, hvalue.symm⟩
    · exact (hs.push s.channels ⟨ht, .noteOn ..⟩).push _ ⟨hstop, .noteOff ..⟩
    · simp [Stage.exact, TimedEvent.exact, Context.exact, hvalue]
  · rw [hadd]
    exact .inl ⟨t, c.duration, ht, hc, hfits, rfl⟩

/-- The player keeps to exact time. -/
theorem player_refines (size : Nat) : Simulates size player Exact.player (refining size) where
  override hc ho := ⟨soundness_override hc.1 ho, by rw [hc.2]; exact (Context.exact_override ..).symm⟩
  label := refining_label
  note := refining_note
  rest := refining_rest
  contextFor := refining_contextFor
  latest := by
    rintro t _ u _ ⟨ht, rfl⟩ ⟨hu, rfl⟩
    exact ⟨(ht.max hu).1, (ht.max hu).2.symm⟩

end

/-- Sorting events by their fractions sorts them by the numbers these stand for. -/
theorem TimedEvent.map_exact_sort {events : List TimedEvent} (h : ∀ e ∈ events, e.time.IsTime) :
    (Sorting.sort TimedEvent.notAfter events).map TimedEvent.exact =
      (events.map TimedEvent.exact).mergeSort fun a b => a.time ≤ b.time := by
  have hsort : Sorting.IsStable Exact.TimedEvent.time (events.map TimedEvent.exact)
      ((Sorting.sort TimedEvent.notAfter events).map TimedEvent.exact) :=
    .map (TimedEvent.isStable_sort h)
  exact hsort.unique (Sorting.isStable_mergeSort Exact.TimedEvent.time _)

/-- What is read from any bytes is performed as in exact time, with the same events, times, order and
length or the same want of channels, unless it comes to a sum of times that does not fit over the
least common denominator, which it then says. No operation on times rounds or wraps round. -/
theorem Tree.parse_performs_exactly (src : Bytes) :
    ((Tree.parse src).1.performExactly = (Tree.parse src).1.perform.map Performance.exact ∨
      ∃ r o : Ratio, r.IsTime ∧ o.IsTime ∧ ¬r.SumFits o ∧
        (Tree.parse src).1.perform = .error (.overflow ⟨r, .add, o⟩)) ∧
    ∀ r o : Ratio, r.IsTime → o.IsTime →
      ((∃ s, r.add o = .ok s ∧ s.IsTime ∧ s.value = r.value + o.value) ∨
        r.add o = .error ⟨r, .add, o⟩ ∧ ¬r.SumFits o) ∧
      (r.less o = true ↔ r.value < o.value) ∧ (r.max o).value = max r.value o.value := by
  refine ⟨?_, fun r o hr ho =>
    ⟨hr.add_cases ho, Ratio.less_iff hr.proper ho.proper, (hr.max ho).2⟩⟩
  obtain ⟨htree, -⟩ := Tree.parse_sound src
  have hs : (refining src.length).state (.empty (Tree.parse src).1.sections.size)
      (.empty (Tree.parse src).1.sections.size) :=
    ⟨Stage.sound_empty .., (Stage.exact_empty _).symm⟩
  have hc : (refining src.length).context (.empty (Tree.parse src).1.sections.size)
      (.empty (Tree.parse src).1.sections.size) .initial .initial :=
    ⟨Context.isTime_initial, Context.exact_initial.symm⟩
  have ht : (refining src.length).time .zero 0 :=
    ⟨Ratio.isTime_zero, by simp [Ratio.value, Ratio.zero]⟩
  have hrun := (player_refines src.length).perform htree hs hc ht
  rw [htree.perform_eq_map, Tree.performExactly]
  split at hrun
  · next e he =>
    rw [he]
    rcases hrun with ⟨r, o, hr, ho, hfits, rfl⟩ | ⟨-, hexact⟩
    · exact .inr ⟨r, o, hr, ho, hfits, rfl⟩
    · rw [hexact]
      exact .inl rfl
  · next stop s hok =>
    obtain ⟨_, _, hexact, ⟨hsound, rfl⟩, -, rfl⟩ := hrun
    have hsorted := TimedEvent.map_exact_sort fun e he =>
      (hsound.events e (Array.mem_toList_iff.1 he)).time
    rw [hok, hexact]
    refine .inl (congrArg (fun es => Except.ok (Exact.Performance.mk es stop.value)) ?_)
    exact hsorted.symm

end DegreeScore
