import DegreeScore.Proofs.Plan.Simulation
import DegreeScore.Proofs.Score.Parse
import DegreeScore.Proofs.Sorting

/-!
# What playing can do

The first part says what each step of the player does to a stage. From it follows what is promised
of every performance of a sound score: times are fractions in lowest terms that are not negative,
and events are notes, program changes and the texts of labels (`Stage.Sound`). Playing only fails
where a time has no 64-bit terms or no channel is left. Since inserts only lead to earlier sections,
following them as deep as there are sections is following them to the end
(`Tree.Sound.performWithin_eq`).
-/

namespace DegreeScore

namespace Player

variable (s : Stage)

theorem run_later (t d : Ratio) :
    (later t d).run s = match t.add d with
      | .ok u => .ok (u, s)
      | .error o => .error (.overflow o) := by
  rw [later]
  cases t.add d <;> rfl

theorem run_program (p : UInt8) (t : Ratio) :
    (program p t).run s = match s.channels.allocate p with
      | .kept c => .ok (Channels.number c, s)
      | .fresh c channels => .ok (Channels.number c, { s with
          channels
          events := s.events.push ⟨t, .channel (Channels.number c) (.programChange p)⟩ })
      | .exhausted => .error (.outOfChannels p) := by
  rw [program, StateT.run_bind]
  change (match s.channels.allocate p with
    | .kept c => _
    | .fresh c channels => _
    | .exhausted => _ : Player UInt8).run s = _
  cases s.channels.allocate p <;> rfl

theorem run_label (c : Context) (l : Bytes) (t : Ratio) :
    (label c l t).run s = match dynamic? l, program? l with
      | some v, _ => .ok ({ c with velocity := v }, s)
      | none, some p =>
        match s.channels.allocate p with
        | .kept ch => .ok ({ c with channel := Channels.number ch }, s)
        | .fresh ch channels => .ok ({ c with channel := Channels.number ch }, { s with
            channels
            events := s.events.push ⟨t, .channel (Channels.number ch) (.programChange p)⟩ })
        | .exhausted => .error (.outOfChannels p)
      | none, none => .ok (c, { s with
          events := s.events.push ⟨t, .info (.text Midi.MetaEvent.plainText l)⟩ }) := by
  rw [label]
  cases dynamic? l with
  | some v => rfl
  | none =>
    cases program? l with
    | some p =>
      change (program p t >>= fun ch => pure { c with channel := ch } : Player Context).run s = _
      rw [StateT.run_bind, run_program]
      dsimp only
      cases s.channels.allocate p <;> rfl
    | none => rfl

theorem run_contextFor (i : Nat) (c : Context) :
    (contextFor i c).run s = match s.bound[i]? with
      | some (some first) => .ok (first, s)
      | _ => .ok (c, { s with bound := s.bound.setIfInBounds i (some c) }) := by
  rw [contextFor, StateT.run_bind]
  change (match s.bound[i]? with
    | some (some first) => _
    | _ => _ : Player Context).run s = _
  split <;> rfl

theorem run_note (key : UInt8) (c : Context) (t : Ratio) :
    (note key c t).run s = match t.add c.duration with
      | .ok stop => .ok (stop, { s with
          events := (s.events.push ⟨t, .channel c.channel (.noteOn key c.velocity)⟩).push
            ⟨stop, .channel c.channel (.noteOff key 0)⟩ })
      | .error o => .error (.overflow o) := by
  rw [note, StateT.run_bind, run_later]
  cases t.add c.duration <;> rfl

section

variable {s u : Stage} {c d : Context} {t stop : Ratio}

theorem later_eq_ok {r : Ratio} (h : (later t r).run s = .ok (stop, u)) :
    t.add r = .ok stop ∧ u = s := by
  rw [run_later] at h
  split at h
  · next hadd =>
    obtain ⟨rfl, rfl⟩ := Prod.mk.inj (Except.ok.inj h)
    exact ⟨hadd, rfl⟩
  · cases h

theorem note_eq_ok {key : UInt8} (h : (note key c t).run s = .ok (stop, u)) :
    t.add c.duration = .ok stop ∧ u = { s with
      events := (s.events.push ⟨t, .channel c.channel (.noteOn key c.velocity)⟩).push
        ⟨stop, .channel c.channel (.noteOff key 0)⟩ } := by
  rw [run_note] at h
  split at h
  · next hadd =>
    obtain ⟨rfl, rfl⟩ := Prod.mk.inj (Except.ok.inj h)
    exact ⟨hadd, rfl⟩
  · cases h

theorem contextFor_eq_ok {i : Nat} (h : (contextFor i c).run s = .ok (d, u)) :
    (s.bound[i]? = some (some d) ∧ u = s) ∨
      (∀ e, s.bound[i]? ≠ some (some e)) ∧ d = c ∧
        u = { s with bound := s.bound.setIfInBounds i (some c) } := by
  rw [run_contextFor] at h
  split at h
  · next first hfirst =>
    obtain ⟨rfl, rfl⟩ := Prod.mk.inj (Except.ok.inj h)
    exact .inl ⟨hfirst, rfl⟩
  · next hunplayed =>
    obtain ⟨rfl, rfl⟩ := Prod.mk.inj (Except.ok.inj h)
    exact .inr ⟨hunplayed, rfl, rfl⟩

/-- A label is a dynamic, a program with or without a channel of its own, or a text. -/
theorem label_eq_ok {l : Bytes} (h : (label c l t).run s = .ok (d, u)) :
    (∃ v, dynamic? l = some v ∧ d = { c with velocity := v } ∧ u = s) ∨
      (∃ p ch, dynamic? l = none ∧ program? l = some p ∧ s.channels.allocate p = .kept ch ∧
        d = { c with channel := Channels.number ch } ∧ u = s) ∨
      (∃ p ch channels, dynamic? l = none ∧ program? l = some p ∧
        s.channels.allocate p = .fresh ch channels ∧ d = { c with channel := Channels.number ch } ∧
        u = { s with
          channels
          events := s.events.push ⟨t, .channel (Channels.number ch) (.programChange p)⟩ }) ∨
      dynamic? l = none ∧ program? l = none ∧ d = c ∧
        u = { s with events := s.events.push ⟨t, .info (.text Midi.MetaEvent.plainText l)⟩ } := by
  rw [run_label] at h
  split at h
  · next v hv =>
    obtain ⟨rfl, rfl⟩ := Prod.mk.inj (Except.ok.inj h)
    exact .inl ⟨v, hv, rfl, rfl⟩
  · next p hdynamic hprogram =>
    split at h
    · next ch hkept =>
      obtain ⟨rfl, rfl⟩ := Prod.mk.inj (Except.ok.inj h)
      exact .inr (.inl ⟨p, ch, hdynamic, hprogram, hkept, rfl, rfl⟩)
    · next ch channels hfresh =>
      obtain ⟨rfl, rfl⟩ := Prod.mk.inj (Except.ok.inj h)
      exact .inr (.inr (.inl ⟨p, ch, channels, hdynamic, hprogram, hfresh, rfl, rfl⟩))
    · cases h
  · next hdynamic hprogram =>
    obtain ⟨rfl, rfl⟩ := Prod.mk.inj (Except.ok.inj h)
    exact .inr (.inr (.inr ⟨hdynamic, hprogram, rfl, rfl⟩))

end

end Player

theorem toList_push_push {α : Type} (xs : Array α) (a b : α) :
    ((xs.push a).push b).toList = xs.toList ++ [a, b] := by
  simp

/-- What is remembered at an index was remembered before or has just been set. -/
theorem eq_or_of_getElem?_setIfInBounds {α : Type} {xs : Array (Option α)} {i j : Nat} {a b : α}
    (h : (xs.setIfInBounds i (some a))[j]? = some (some b)) : b = a ∨ xs[j]? = some (some b) := by
  rw [Array.getElem?_setIfInBounds] at h
  split at h
  · split at h
    · exact .inl (Option.some.inj (Option.some.inj h)).symm
    · cases h
  · exact .inr h

-- ════════════════════════════════════════════════════════════════════════
-- Invariants of one performer
-- ════════════════════════════════════════════════════════════════════════

/-- The performer that does nothing. What corresponds to it says something about the other performer
alone. -/
def silent : Performer Unit Unit Unit where
  override _ _ := ()
  label _ _ _ := pure ()
  note _ _ _ _ := pure ()
  rest _ _ := pure ()
  contextFor _ _ := pure ()
  latest _ _ := ()

/-- Events that playing brings about, with texts of at most `size` bytes. -/
inductive Midi.Event.Played (size : Nat) : Midi.Event → Prop
  | noteOn (channel key velocity : UInt8) : Played size (.channel channel (.noteOn key velocity))
  | noteOff (channel key velocity : UInt8) : Played size (.channel channel (.noteOff key velocity))
  | program (channel p : UInt8) : Played size (.channel channel (.programChange p))
  | text {l : Bytes} (hl : l.length ≤ size) : Played size (.info (.text MetaEvent.plainText l))

/-- An event of a performance at a valid time. -/
structure TimedEvent.Sound (size : Nat) (e : TimedEvent) : Prop where
  time : e.time.IsTime
  event : e.event.Played size

/-- What holds at every stage of playing. -/
structure Stage.Sound (size : Nat) (s : Stage) : Prop where
  bound : ∀ (i : Nat) (c : Context), s.bound[i]? = some (some c) → c.duration.IsTime
  events : ∀ e ∈ s.events, e.Sound size

theorem Stage.Sound.push {size : Nat} {s : Stage} {e : TimedEvent} (h : s.Sound size)
    (channels : Channels) (he : e.Sound size) :
    Stage.Sound size { s with channels, events := s.events.push e } := by
  refine ⟨h.bound, fun e' he' => ?_⟩
  rcases Array.mem_push.1 he' with he' | rfl
  · exact h.events e' he'
  · exact he

theorem Stage.sound_empty (size sections : Nat) : (Stage.empty sections).Sound size := by
  refine ⟨fun i c hc => ?_, fun e he => ?_⟩
  · simp only [Stage.empty, Array.getElem?_replicate] at hc
    split at hc <;> cases hc
  · simp [Stage.empty] at he

/-- Dynamics change nothing but the velocity. -/
theorem Context.exists_withDynamics_eq (c : Context) (ls : List Bytes) :
    ∃ v, c.withDynamics ls = { c with velocity := v } := by
  rw [withDynamics]
  induction ls generalizing c with
  | nil => exact ⟨c.velocity, rfl⟩
  | cons l rest ih =>
    rw [List.foldl_cons]
    split
    · exact ih _
    · exact ih c

/-- Only program labels change the channel. -/
theorem Context.channel_override (c : Context) (o : Option Options) :
    (c.override o).channel = c.channel := by
  cases o with
  | none => rfl
  | some o =>
    obtain ⟨v, hv⟩ := exists_withDynamics_eq
      { c with duration := o.duration.getD c.duration, key := o.key.getD c.key } o.labels
    rw [override, hv]

/-- Sound stages, valid durations and times, and the two ways to fail. -/
def soundness (size : Nat) : Correspondence Stage Context Ratio Unit Unit Unit where
  state s _ := s.Sound size
  context _ _ c _ := c.duration.IsTime
  time t _ := t.IsTime
  error e := (∃ o, e = .overflow o) ∨ ∃ p, e = .outOfChannels p

theorem soundness_override {size : Nat} {c : Context} {o : Options} (hc : c.duration.IsTime)
    (ho : o.Sound size) : (c.override (some o)).duration.IsTime := by
  obtain ⟨v, hv⟩ := Context.exists_withDynamics_eq
    { c with duration := o.duration.getD c.duration, key := o.key.getD c.key } o.labels
  rw [Context.override, hv]
  cases hd : o.duration with
  | none => exact hc
  | some d => exact (ho.duration d hd).toIsTime

theorem soundness_later {size : Nat} : (soundness size).Alike player.rest silent.rest := by
  intro s s' c c' t t' hs hc ht
  change (soundness size).Follows s s' (Player.later t c.duration) (pure ()) _
  rw [Correspondence.Follows, Player.run_later]
  cases hadd : t.add c.duration with
  | error o => exact .inl (.inl ⟨o, rfl⟩)
  | ok u => exact ⟨(), (), rfl, hs, fun _ _ h => h, (Ratio.IsTime.add ht hc hadd).1⟩

theorem soundness_note {size : Nat} (degree accidental : Int64) :
    (soundness size).Alike (player.note degree accidental) (silent.note degree accidental) := by
  intro s s' c c' t t' hs hc ht
  change (soundness size).Follows s s' (Player.note _ c t) (pure ()) _
  rw [Correspondence.Follows, Player.run_note]
  cases hadd : t.add c.duration with
  | error o => exact .inl (.inl ⟨o, rfl⟩)
  | ok u =>
    have hu := (Ratio.IsTime.add ht hc hadd).1
    refine ⟨(), (), rfl, (hs.push s.channels ?_).push _ ?_, fun _ _ h => h, hu⟩
    · exact ⟨ht, .noteOn ..⟩
    · exact ⟨hu, .noteOff ..⟩

theorem soundness_label {size : Nat} {s : Stage} {s' : Unit} {c : Context} {c' : Unit} {t : Ratio}
    {t' : Unit} {l : Bytes} (hs : s.Sound size) (hc : c.duration.IsTime) (ht : t.IsTime)
    (hl : l.length ≤ size) :
    (soundness size).Follows s s' (player.label c l t) (silent.label c' l t')
      (soundness size).context := by
  change (soundness size).Follows s s' (Player.label c l t) (pure ()) _
  rw [Correspondence.Follows, Player.run_label]
  cases dynamic? l with
  | some v => exact ⟨(), (), rfl, hs, fun _ _ h => h, hc⟩
  | none =>
    cases program? l with
    | none => exact ⟨(), (), rfl, hs.push _ ⟨ht, .text hl⟩, fun _ _ h => h, hc⟩
    | some p =>
      dsimp only
      cases s.channels.allocate p with
      | kept ch => exact ⟨(), (), rfl, hs, fun _ _ h => h, hc⟩
      | fresh ch channels => exact ⟨(), (), rfl, hs.push _ ⟨ht, .program ..⟩, fun _ _ h => h, hc⟩
      | exhausted => exact .inl (.inr ⟨p, rfl⟩)

theorem soundness_contextFor {size : Nat} {s : Stage} {s' : Unit} {c : Context} {c' : Unit} (i : Nat)
    (hs : s.Sound size) (hc : c.duration.IsTime) :
    (soundness size).Follows s s' (player.contextFor i c) (silent.contextFor i c')
      (soundness size).context := by
  change (soundness size).Follows s s' (Player.contextFor i c) (pure ()) _
  rw [Correspondence.Follows, Player.run_contextFor]
  split
  · next e he =>
    split at he <;> cases he
  · next a u hu =>
    split at hu
    · next first hfirst =>
      obtain ⟨rfl, rfl⟩ := Prod.mk.inj (Except.ok.inj hu)
      exact ⟨(), (), rfl, hs, fun _ _ h => h, hs.bound i first hfirst⟩
    · obtain ⟨rfl, rfl⟩ := Prod.mk.inj (Except.ok.inj hu)
      refine ⟨(), (), rfl, ⟨fun j d hd => ?_, hs.events⟩, fun _ _ h => h, hc⟩
      rcases eq_or_of_getElem?_setIfInBounds hd with rfl | hd
      · exact hc
      · exact hs.bound j d hd

/-- The player keeps its stage sound. -/
theorem player_sound (size : Nat) : Simulates size player silent (soundness size) where
  override := soundness_override
  label := soundness_label
  note := soundness_note
  rest := soundness_later
  contextFor := soundness_contextFor
  latest ht hu := (Ratio.IsTime.max ht hu).1

-- ════════════════════════════════════════════════════════════════════════
-- Whole performances
-- ════════════════════════════════════════════════════════════════════════

/-- Plays a score with inserts followed `depth` levels deep. -/
def Tree.performWithin (depth : Nat) (tree : Tree) : Except PlanError Performance :=
  match tree.main with
  | .hole => .ok ⟨[], .zero⟩
  | main =>
    let player := Player.node (Player.play tree.sections depth) main .initial .zero
    match player.run (.empty tree.sections.size) with
    | .error e => .error e
    | .ok (stop, s) => .ok ⟨Sorting.sort TimedEvent.notAfter s.events.toList, stop⟩

theorem Tree.perform_eq_performWithin (tree : Tree) :
    tree.perform = tree.performWithin tree.reach := rfl

/-- The performance that has ended with a time and a stage. -/
def Stage.performance (r : Ratio × Stage) : Performance :=
  ⟨Sorting.sort TimedEvent.notAfter r.2.events.toList, r.1⟩

/-- What a performer makes of a score from a context, a time and a state on. -/
def Performer.perform {σ γ τ : Type} (P : Performer σ γ τ) (tree : Tree) (depth : Nat) (c : γ)
    (t : τ) (s : σ) : Except PlanError (τ × σ) :=
  (P.node (P.play tree.sections depth) tree.main c t).run s

theorem Tree.performWithin_eq_map_of_ne_hole (tree : Tree) (h : tree.main ≠ .hole) (depth : Nat) :
    tree.performWithin depth =
      (player.perform tree depth .initial .zero (.empty tree.sections.size)).map
        Stage.performance := by
  rw [performWithin, Performer.perform, player_node, player_play]
  split
  · next hmain => exact absurd hmain h
  · dsimp only
    split
    · next he =>
      rw [he]
      rfl
    · next hok =>
      rw [hok]
      rfl

namespace Tree.Sound

variable {size : Nat} {tree : Tree}

theorem main_ne_hole (h : tree.Sound size) : tree.main ≠ .hole := by
  intro hmain
  have hsound := h.main
  rw [hmain] at hsound
  cases hsound

theorem performWithin_eq_map (h : tree.Sound size) (depth : Nat) :
    tree.performWithin depth =
      (player.perform tree depth .initial .zero (.empty tree.sections.size)).map
        Stage.performance :=
  tree.performWithin_eq_map_of_ne_hole h.main_ne_hole depth

theorem perform_eq_map (h : tree.Sound size) :
    tree.perform =
      (player.perform tree tree.reach .initial .zero (.empty tree.sections.size)).map
        Stage.performance := by
  rw [perform_eq_performWithin]
  exact h.performWithin_eq_map tree.reach

/-- Inserts lead no deeper than there are sections. -/
theorem performWithin_eq (h : tree.Sound size) {depth : Nat} (hdepth : tree.sections.size ≤ depth) :
    tree.performWithin depth = tree.perform := by
  have hreach : tree.sections.size ≤ tree.reach := Nat.le_add_left ..
  rw [h.performWithin_eq_map, h.perform_eq_map, Performer.perform, Performer.perform]
  rw [player.node_congr h.main fun i hi => player.play_congr h.sections hi
    (Nat.lt_of_lt_of_le hi hdepth) (Nat.lt_of_lt_of_le hi hreach)]

end Tree.Sound

/-- A correspondence that two performers keep at the leaves holds of whole performances. -/
theorem Simulates.perform {σ γ τ σ' γ' τ' : Type} {size : Nat} {P : Performer σ γ τ}
    {Q : Performer σ' γ' τ'} {R : Correspondence σ γ τ σ' γ' τ'} {s : σ} {s' : σ'} {c : γ} {c' : γ'}
    {t : τ} {t' : τ'} {tree : Tree} (H : Simulates size P Q R) (htree : tree.Sound size)
    (hs : R.state s s') (hc : R.context s s' c c') (ht : R.time t t') :
    match P.perform tree tree.reach c t s with
    | .error e => R.error e ∨ R.shared e ∧ Q.perform tree tree.reach c' t' s' = .error e
    | .ok (stop, u) => ∃ stop' u', Q.perform tree tree.reach c' t' s' = .ok (stop', u') ∧
        R.state u u' ∧ R.time stop stop' := by
  have hreach : tree.sections.size ≤ tree.reach := Nat.le_add_left ..
  have hfollows := H.node (fun i hi => H.play htree.sections hi (Nat.lt_of_lt_of_le hi hreach))
    htree.main hs hc ht
  rw [Correspondence.Follows] at hfollows
  rw [Performer.perform]
  split
  · next e he =>
    rw [he] at hfollows
    exact hfollows
  · next stop u hu =>
    rw [hu] at hfollows
    obtain ⟨stop', u', hrun, hstate, -, htime⟩ := hfollows
    exact ⟨stop', u', hrun, hstate, htime⟩

theorem Context.isTime_initial : Context.initial.duration.IsTime :=
  ⟨by decide, show 0 < Context.initial.duration.den.toInt by decide, by decide⟩

theorem TimedEvent.notAfter_eq {a b : TimedEvent} (ha : a.time.Proper) (hb : b.time.Proper) :
    a.notAfter b = Sorting.byKey (fun e => e.time.value) a b := by
  rw [Bool.eq_iff_iff, notAfter, Sorting.byKey, decide_eq_true_iff, Bool.not_eq_true',
    ← Bool.not_eq_true, Ratio.less_iff hb ha, not_lt]

/-- Sorting events is stable where their times are proper fractions. -/
theorem TimedEvent.isStable_sort_of_proper {events : List TimedEvent}
    (h : ∀ e ∈ events, e.time.Proper) :
    Sorting.IsStable (fun e => e.time.value) events (Sorting.sort notAfter events) :=
  Sorting.isStable_sort fun a ha b hb => notAfter_eq (h a ha) (h b hb)

/-- Sorting events with valid times is stable. -/
theorem TimedEvent.isStable_sort {events : List TimedEvent}
    (h : ∀ e ∈ events, e.time.IsTime) :
    Sorting.IsStable (fun e => e.time.value) events (Sorting.sort notAfter events) :=
  isStable_sort_of_proper fun e he => (h e he).proper

/-- A performance whose events are sound and in order of time. -/
structure Performance.Sound (size : Nat) (p : Performance) : Prop where
  duration : p.duration.IsTime
  events : ∀ e ∈ p.events, e.Sound size
  ordered : p.events.Pairwise fun a b => a.time.value ≤ b.time.value

namespace Tree.Sound

variable {size : Nat} {tree : Tree}

/-- Playing a sound score fails in two ways only, and otherwise ends at a sound stage. -/
theorem perform_player (h : tree.Sound size) :
    match player.perform tree tree.reach .initial .zero (.empty tree.sections.size) with
    | .error e => (∃ o, e = .overflow o) ∨ ∃ p, e = .outOfChannels p
    | .ok (stop, s) => stop.IsTime ∧ s.Sound size := by
  have hs : (soundness size).state (.empty tree.sections.size) () := Stage.sound_empty ..
  have hc : (soundness size).context (.empty tree.sections.size) () .initial () :=
    Context.isTime_initial
  have ht : (soundness size).time .zero () := Ratio.isTime_zero
  have hrun := (player_sound size).perform h hs hc ht
  split
  · next e he =>
    rw [he] at hrun
    exact hrun.resolve_right fun hshared => hshared.1
  · next stop s hs =>
    rw [hs] at hrun
    obtain ⟨_, _, _, hstage, hstop⟩ := hrun
    exact ⟨hstop, hstage⟩

theorem perform_sound (h : tree.Sound size) {p : Performance} (hp : tree.perform = .ok p) :
    p.Sound size := by
  have hrun := h.perform_player
  rw [h.perform_eq_map] at hp
  split at hrun
  · next he =>
    rw [he] at hp
    cases hp
  · next stop s hs =>
    rw [hs] at hp
    obtain rfl := Except.ok.inj hp
    have htimes : ∀ e ∈ s.events.toList, e.time.IsTime :=
      fun e he => (hrun.2.events e (Array.mem_toList_iff.1 he)).time
    have hsort := TimedEvent.isStable_sort htimes
    refine ⟨hrun.1, fun e he => ?_, hsort.ordered⟩
    exact hrun.2.events e (Array.mem_toList_iff.1 ((hsort.mem_iff e).1 he))

end Tree.Sound

/-- What is read from any bytes is a score without dangling or circular inserts, all values of which
keep their bounds. Playing it follows inserts no deeper than there are sections, and ends with a
performance, with a time that has no 64-bit terms, or with a program for which no channel is
left. -/
theorem Tree.parse_playable (src : Bytes) :
    (Tree.parse src).1.Sound src.length ∧
      (∀ depth, (Tree.parse src).1.sections.size ≤ depth →
        (Tree.parse src).1.performWithin depth = (Tree.parse src).1.perform) ∧
      ((∃ p, (Tree.parse src).1.perform = .ok p) ∨
        (∃ o, (Tree.parse src).1.perform = .error (.overflow o)) ∨
        ∃ p, (Tree.parse src).1.perform = .error (.outOfChannels p)) := by
  have h := (Tree.parse_sound src).1
  refine ⟨h, fun depth hdepth => h.performWithin_eq hdepth, ?_⟩
  have hrun := h.perform_player
  rw [h.perform_eq_map]
  split at hrun
  · next he =>
    rw [he]
    rcases hrun with ⟨o, rfl⟩ | ⟨p, rfl⟩
    · exact .inr (.inl ⟨o, rfl⟩)
    · exact .inr (.inr ⟨p, rfl⟩)
  · next hok =>
    rw [hok]
    exact .inl ⟨_, rfl⟩

end DegreeScore
