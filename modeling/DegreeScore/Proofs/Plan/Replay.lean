import DegreeScore.Proofs.Plan.Balance
import DegreeScore.Proofs.Plan.Programs

/-!
# Sections are replayed faithfully

Once a passage has been walked, its programs have their channels and its sections their contexts, and
neither changes any more. So a second walk of it in the same context finds the same channels and
contexts and brings about the same events, at other times and without program changes (`Walk.again`).
A section is always walked in its first context, whatever the context of the insert, so every visit of
it repeats the first one (`Walk.faithful`).
-/

namespace DegreeScore

def Midi.Event.isProgramChange : Midi.Event → Bool
  | .channel _ (.programChange _) => true
  | _ => false

/-- The events `fs` are the events `es` by `delay` later, apart from program changes. -/
def Delayed (delay : ℚ) (es fs : List TimedEvent) : Prop :=
  fs.map (fun e => (e.time.value, e.event)) =
    (es.filter (!·.event.isProgramChange)).map fun e => (e.time.value + delay, e.event)

/-- A visit that brings about the events of another one, as much later as it starts later, and lasts
as long. -/
structure Visit.Repeats (later first : Visit) : Prop where
  events : Delayed (later.start.value - first.start.value) first.events later.events
  lasts : later.stop.value - later.start.value = first.stop.value - first.start.value

namespace Delayed

variable {delay : ℚ} {es es' fs fs' : List TimedEvent}

theorem nil : Delayed delay [] [] := rfl

theorem append (h : Delayed delay es fs) (h' : Delayed delay es' fs') :
    Delayed delay (es ++ es') (fs ++ fs') := by
  rw [Delayed, List.filter_append, List.map_append, List.map_append, h, h']

theorem cons {e f : TimedEvent} (hevent : f.event = e.event)
    (htime : f.time.value = e.time.value + delay) (hother : e.event.isProgramChange = false)
    (h : Delayed delay es fs) : Delayed delay (e :: es) (f :: fs) := by
  rw [Delayed, List.filter_cons_of_pos (by simp [hother]), List.map_cons, List.map_cons, h, hevent,
    htime]

end Delayed

-- ════════════════════════════════════════════════════════════════════════
-- What playing keeps
-- ════════════════════════════════════════════════════════════════════════

namespace Channels

variable {t u : Channels} {p q : UInt8} {c d : Fin 16}

theorem allocate_of_playing? (h : t.playing? p = some c) : t.allocate p = .kept c := by
  rw [allocate, h]

/-- A program that has just been bound plays on its channel. -/
theorem playing?_bind (hnone : t.playing? p = none) (hfree : t.highestFree? = some c) :
    (t.bind c p).playing? p = some c := by
  have hunique : ∀ d ∈ playable, (t.bind c p).program d = some p → d = c := by
    intro d hd hprogram
    by_contra hne
    have hold : t.program d = some p := by
      rwa [program_bind, if_neg hne] at hprogram
    exact List.find?_eq_none.1 hnone d hd (decide_eq_true hold)
  have hself : (t.bind c p).program c = some p := if_pos rfl
  cases hfound : (t.bind c p).playing? p with
  | none =>
    have hc := List.mem_of_find?_eq_some hfree
    exact absurd (decide_eq_true hself) (List.find?_eq_none.1 hfound c hc)
  | some d =>
    have hprogram := List.find?_some hfound
    rw [hunique d (List.mem_of_find?_eq_some hfound) (of_decide_eq_true hprogram)]

/-- Binding a free channel to a program leaves every other program where it is. -/
theorem playing?_bind_of_ne (hne : q ≠ p) (hfree : t.highestFree? = some c) :
    (t.bind c p).playing? q = t.playing? q := by
  have hisNone := List.find?_some (show playable.find? _ = some c from hfree)
  have hnone : t.program c = none := Option.isNone_iff_eq_none.1 hisNone
  have hsame : ∀ d, (t.bind c p).program d = some q ↔ t.program d = some q := by
    intro d
    by_cases hd : d = c
    · subst hd
      rw [program_bind, if_pos rfl, hnone]
      simp [Ne.symm hne]
    · rw [program_bind, if_neg hd]
  simp only [playing?, hsame]

end Channels

/-- What is settled at a stage stays so at a later one: the channels of programs and the contexts of
sections. -/
structure Stage.Precedes (s u : Stage) : Prop where
  playing : ∀ p c, s.channels.playing? p = some c → u.channels.playing? p = some c
  bound : ∀ (i : Nat) (c : Context), s.bound[i]? = some (some c) → u.bound[i]? = some (some c)
  size : u.bound.size = s.bound.size

theorem Stage.Precedes.refl (s : Stage) : s.Precedes s := ⟨fun _ _ h => h, fun _ _ h => h, rfl⟩

theorem Stage.Precedes.trans {s u w : Stage} (h : s.Precedes u) (h' : u.Precedes w) :
    s.Precedes w :=
  ⟨fun p c hc => h'.playing p c (h.playing p c hc), fun i c hc => h'.bound i c (h.bound i c hc),
    h'.size.trans h.size⟩

namespace Player

variable {c d : Context} {t stop : Ratio} {s u : Stage}

/-- A label may find a channel for a program, but plays no section. -/
theorem keeps_label {l : Bytes} (h : (label c l t).run s = .ok (d, u)) :
    s.Precedes u ∧ u.bound = s.bound := by
  rcases label_eq_ok h with ⟨v, -, rfl, rfl⟩ | ⟨p, ch, -, -, -, rfl, rfl⟩ |
    ⟨p, ch, channels, -, -, hfresh, rfl, rfl⟩ | ⟨-, -, rfl, rfl⟩
  · exact ⟨.refl u, rfl⟩
  · exact ⟨.refl u, rfl⟩
  · obtain ⟨hnone, hfree, rfl⟩ := Channels.playing?_eq_none_of_fresh hfresh
    refine ⟨⟨fun q e hq => ?_, fun _ _ h => h, rfl⟩, rfl⟩
    have hne : q ≠ p := by
      rintro rfl
      rw [hnone] at hq
      cases hq
    exact (Channels.playing?_bind_of_ne hne hfree).trans hq
  · exact ⟨⟨fun _ _ h => h, fun _ _ h => h, rfl⟩, rfl⟩

theorem keeps_labels {ls : List Bytes} (h : (labels c t ls).run s = .ok (d, u)) :
    s.Precedes u ∧ u.bound = s.bound := by
  induction ls generalizing c s with
  | nil =>
    obtain ⟨rfl, rfl⟩ := Prod.mk.inj (Except.ok.inj h)
    exact ⟨.refl s, rfl⟩
  | cons l rest ih =>
    rw [labels] at h
    split at h
    · exact ih h
    · obtain ⟨e, w, hlabel, h⟩ := Playing.run_bind_eq_ok h
      obtain ⟨hprecedes, hbound⟩ := keeps_label hlabel
      obtain ⟨hprecedes', hbound'⟩ := ih h
      exact ⟨hprecedes.trans hprecedes', hbound'.trans hbound⟩

theorem keeps_enter {o : Option Options} (h : (enter c o t).run s = .ok (d, u)) :
    s.Precedes u ∧ u.bound = s.bound := by
  cases o with
  | none =>
    obtain ⟨rfl, rfl⟩ := Prod.mk.inj (Except.ok.inj h)
    exact ⟨.refl s, rfl⟩
  | some o => exact keeps_labels h

theorem keeps_note {key : UInt8} (h : (note key c t).run s = .ok (stop, u)) :
    s.Precedes u ∧ u.bound = s.bound := by
  obtain ⟨-, rfl⟩ := note_eq_ok h
  exact ⟨⟨fun _ _ h => h, fun _ _ h => h, rfl⟩, rfl⟩

/-- The context of a section is settled by its first playing. -/
theorem precedes_contextFor {i : Nat} (h : (contextFor i c).run s = .ok (d, u)) :
    s.Precedes u ∧ (i < s.bound.size → u.bound[i]? = some (some d)) := by
  rcases contextFor_eq_ok h with ⟨hfirst, rfl⟩ | ⟨hunplayed, rfl, rfl⟩
  · exact ⟨.refl u, fun _ => hfirst⟩
  · refine ⟨⟨fun _ _ h => h, fun j e he => ?_, Array.size_setIfInBounds⟩, fun hi => ?_⟩
    · have hne : i ≠ j := by
        rintro rfl
        exact hunplayed e he
      rwa [Array.getElem?_setIfInBounds_ne hne]
    · rw [Array.getElem?_setIfInBounds_self, if_pos hi]

end Player

section

variable {sections : Array Section} {m : Nat} {task : Task} {c : Context} {t stop : Ratio}
  {s u : Stage} {vs : List Visit}

theorem Walk.precedes (h : Walk sections m task c t s vs stop u) : s.Precedes u := by
  induction h with
  | note _ henter hnote => exact (Player.keeps_enter henter).1.trans (Player.keeps_note hnote).1
  | rest _ henter hrest =>
    obtain ⟨-, rfl⟩ := Player.later_eq_ok hrest
    exact (Player.keeps_enter henter).1
  | sequence _ henter _ ih | chord _ henter _ ih => exact (Player.keeps_enter henter).1.trans ih
  | insert _ _ hcontext _ ih => exact (Player.precedes_contextFor hcontext).1.trans ih
  | event hlabel => exact (Player.keeps_label hlabel).1
  | error | sequenceNil | chordNil => exact .refl _
  | sequenceLabel hlabel _ ih | chordLabel hlabel _ ih => exact (Player.keeps_label hlabel).1.trans ih
  | sequenceCons _ _ _ ihnode ihrest | chordCons _ _ _ ihnode ihrest => exact ihnode.trans ihrest

theorem Walk.index_lt (h : Walk sections m task c t s vs stop u) : ∀ v ∈ vs, v.index < m := by
  induction h with
  | note | rest | event | error | sequenceNil | chordNil => simp
  | sequence _ _ _ ih | chord _ _ _ ih | sequenceLabel _ _ ih | chordLabel _ _ ih => exact ih
  | insert hi _ _ _ ih =>
    exact List.forall_mem_append.2 ⟨fun v hv => (ih v hv).trans hi, by simpa using hi⟩
  | sequenceCons _ _ _ ihnode ihrest | chordCons _ _ _ ihnode ihrest =>
    exact List.forall_mem_append.2 ⟨ihnode, ihrest⟩

end

-- ════════════════════════════════════════════════════════════════════════
-- Playing again
-- ════════════════════════════════════════════════════════════════════════

/-- Playing from `s'` to `u'` does again what playing from `s` to `u` did, and settles nothing new. -/
structure Again (delay : ℚ) (s u s' u' : Stage) : Prop where
  channels : u'.channels = s'.channels
  bound : u'.bound = s'.bound
  events : ∃ new new', u.events.toList = s.events.toList ++ new ∧
    u'.events.toList = s'.events.toList ++ new' ∧ Delayed delay new new'

namespace Again

variable {delay : ℚ} {s u w s' u' w' : Stage}

theorem refl (s s' : Stage) : Again delay s s s' s' :=
  ⟨rfl, rfl, [], [], (List.append_nil _).symm, (List.append_nil _).symm, .nil⟩

theorem trans (h : Again delay s u s' u') (h' : Again delay u w u' w') : Again delay s w s' w' := by
  obtain ⟨es, fs, hes, hfs, hdelayed⟩ := h.events
  obtain ⟨es', fs', hes', hfs', hdelayed'⟩ := h'.events
  refine ⟨h'.channels.trans h.channels, h'.bound.trans h.bound, es ++ es', fs ++ fs', ?_, ?_,
    hdelayed.append hdelayed'⟩
  · rw [hes', hes, List.append_assoc]
  · rw [hfs', hfs, List.append_assoc]

/-- What is settled before playing again is settled after it. -/
theorem precedes (h : Again delay s u s' u') (hlater : w.Precedes s') : w.Precedes u' := by
  refine ⟨?_, ?_, ?_⟩
  · rw [h.channels]
    exact hlater.playing
  · rw [h.bound]
    exact hlater.bound
  · rw [h.bound]
    exact hlater.size

end Again

namespace Player

variable {delay : ℚ} {c c' d d' : Context} {t t' stop stop' : Ratio} {s u s' u' : Stage}

theorem label_again {l : Bytes} (h : (label c l t).run s = .ok (d, u)) (hlater : u.Precedes s')
    (h' : (label c l t').run s' = .ok (d', u')) (ht : t'.value = t.value + delay) :
    d' = d ∧ Again delay s u s' u' := by
  rw [run_label] at h'
  rcases label_eq_ok h with ⟨v, hv, rfl, rfl⟩ | ⟨p, ch, hdynamic, hprogram, hkept, rfl, rfl⟩ |
    ⟨p, ch, channels, hdynamic, hprogram, hfresh, rfl, rfl⟩ | ⟨hdynamic, hprogram, rfl, rfl⟩
  · simp only [hv] at h'
    obtain ⟨rfl, rfl⟩ := Prod.mk.inj (Except.ok.inj h')
    exact ⟨rfl, .refl ..⟩
  -- The channel of the program is settled by now.
  · have hplaying := hlater.playing p ch (Channels.playing?_of_kept hkept)
    simp only [hdynamic, hprogram, Channels.allocate_of_playing? hplaying] at h'
    obtain ⟨rfl, rfl⟩ := Prod.mk.inj (Except.ok.inj h')
    exact ⟨rfl, .refl ..⟩
  · obtain ⟨hnone, hfree, rfl⟩ := Channels.playing?_eq_none_of_fresh hfresh
    have hplaying := hlater.playing p ch (Channels.playing?_bind hnone hfree)
    simp only [hdynamic, hprogram, Channels.allocate_of_playing? hplaying] at h'
    obtain ⟨rfl, rfl⟩ := Prod.mk.inj (Except.ok.inj h')
    exact ⟨rfl, rfl, rfl, _, [], Array.toList_push, (List.append_nil _).symm, rfl⟩
  · simp only [hdynamic, hprogram] at h'
    obtain ⟨rfl, rfl⟩ := Prod.mk.inj (Except.ok.inj h')
    exact ⟨rfl, rfl, rfl, _, _, Array.toList_push, Array.toList_push, .cons rfl ht rfl .nil⟩

theorem labels_again {ls : List Bytes} (h : (labels c t ls).run s = .ok (d, u))
    (hlater : u.Precedes s') (h' : (labels c t' ls).run s' = .ok (d', u'))
    (ht : t'.value = t.value + delay) : d' = d ∧ Again delay s u s' u' := by
  induction ls generalizing c s s' with
  | nil =>
    obtain ⟨rfl, rfl⟩ := Prod.mk.inj (Except.ok.inj h)
    obtain ⟨rfl, rfl⟩ := Prod.mk.inj (Except.ok.inj h')
    exact ⟨rfl, .refl ..⟩
  | cons l rest ih =>
    rw [labels] at h h'
    split at h
    · next hl =>
      rw [if_pos hl] at h'
      exact ih h hlater h'
    · next hl =>
      rw [if_neg hl] at h'
      obtain ⟨e, w, hlabel, h⟩ := Playing.run_bind_eq_ok h
      obtain ⟨e', w', hlabel', h'⟩ := Playing.run_bind_eq_ok h'
      obtain ⟨rfl, hagain⟩ := label_again hlabel ((keeps_labels h).1.trans hlater) hlabel' ht
      obtain ⟨rfl, hagain'⟩ := ih h (hagain.precedes hlater) h'
      exact ⟨rfl, hagain.trans hagain'⟩

theorem enter_again {o : Option Options} (h : (enter c o t).run s = .ok (d, u))
    (hlater : u.Precedes s') (h' : (enter c o t').run s' = .ok (d', u'))
    (ht : t'.value = t.value + delay) : d' = d ∧ Again delay s u s' u' := by
  cases o with
  | none =>
    obtain ⟨rfl, rfl⟩ := Prod.mk.inj (Except.ok.inj h)
    obtain ⟨rfl, rfl⟩ := Prod.mk.inj (Except.ok.inj h')
    exact ⟨rfl, .refl ..⟩
  | some o => exact labels_again h hlater h' ht

/-- Notes and rests last as long as before. -/
theorem add_again {r : Ratio} (hr : r.IsTime) (ht : t.IsTime) (ht' : t'.IsTime)
    (hvalue : t'.value = t.value + delay) (h : t.add r = .ok stop) (h' : t'.add r = .ok stop') :
    stop'.value = stop.value + delay := by
  rw [(ht.add hr h).2, (ht'.add hr h').2, hvalue]
  ring

theorem later_again (hc : c.duration.IsTime) (ht : t.IsTime) (ht' : t'.IsTime)
    (hvalue : t'.value = t.value + delay) (h : (later t c.duration).run s = .ok (stop, u))
    (h' : (later t' c.duration).run s' = .ok (stop', u')) :
    stop'.value = stop.value + delay ∧ Again delay s u s' u' := by
  obtain ⟨hadd, rfl⟩ := later_eq_ok h
  obtain ⟨hadd', rfl⟩ := later_eq_ok h'
  exact ⟨add_again hc ht ht' hvalue hadd hadd', .refl ..⟩

theorem note_again {key : UInt8} (hc : c.duration.IsTime) (ht : t.IsTime) (ht' : t'.IsTime)
    (hvalue : t'.value = t.value + delay) (h : (note key c t).run s = .ok (stop, u))
    (h' : (note key c t').run s' = .ok (stop', u')) :
    stop'.value = stop.value + delay ∧ Again delay s u s' u' := by
  obtain ⟨hadd, rfl⟩ := note_eq_ok h
  obtain ⟨hadd', rfl⟩ := note_eq_ok h'
  have hstop := add_again hc ht ht' hvalue hadd hadd'
  refine ⟨hstop, rfl, rfl, _, _, toList_push_push .., toList_push_push .., ?_⟩
  exact .cons rfl hvalue rfl (.cons rfl hstop rfl .nil)

theorem events_contextFor {i : Nat} (h : (contextFor i c).run s = .ok (d, u)) :
    u.events = s.events := by
  rcases contextFor_eq_ok h with ⟨-, rfl⟩ | ⟨-, -, rfl⟩ <;> rfl

/-- A section is played in its first context, whatever the context of the insert. -/
theorem contextFor_again {i : Nat} (hi : i < s.bound.size)
    (h : (contextFor i c).run s = .ok (d, u)) (hlater : u.Precedes s')
    (h' : (contextFor i c').run s' = .ok (d', u')) : d' = d ∧ u' = s' := by
  have hbound := hlater.bound i d ((precedes_contextFor h).2 hi)
  rw [run_contextFor, hbound] at h'
  obtain ⟨rfl, rfl⟩ := Prod.mk.inj (Except.ok.inj h')
  exact ⟨rfl, rfl⟩

end Player

-- ════════════════════════════════════════════════════════════════════════
-- Walks made again
-- ════════════════════════════════════════════════════════════════════════

/-- The same task, of which the times have been moved. -/
inductive Task.Moved (delay : ℚ) : Task → Task → Prop
  | node {n : Node} : Moved delay (.node n) (.node n)
  | sequence {ns : List Node} : Moved delay (.sequence ns) (.sequence ns)
  | chord {ns : List Node} {stop stop' : Ratio} (hstop : stop.IsTime) (hstop' : stop'.IsTime)
      (hvalue : stop'.value = stop.value + delay) : Moved delay (.chord ns stop) (.chord ns stop')

theorem Task.Moved.latest {delay : ℚ} {ns : List Node} {a a' b b' : Ratio} (ha : a.IsTime)
    (ha' : a'.IsTime) (hvalue : a'.value = a.value + delay) (hb : b.IsTime) (hb' : b'.IsTime)
    (hvalue' : b'.value = b.value + delay) :
    Moved delay (.chord ns (a.max b)) (.chord ns (a'.max b')) := by
  obtain ⟨hmax, hmaxValue⟩ := ha.max hb
  obtain ⟨hmax', hmaxValue'⟩ := ha'.max hb'
  refine .chord hmax hmax' ?_
  rw [hmaxValue', hmaxValue, hvalue, hvalue', max_add_add_right]

/-- The walk of an insert is the walk of its section. -/
theorem Walk.exists_of_insert {sections : Array Section} {m i : Nat} {c : Context} {t stop : Ratio}
    {s u : Stage} {vs : List Visit} (h : Walk sections m (.node (.insert i)) c t s vs stop u) :
    ∃ passage d w ws, sections[i]? = some passage ∧
      (Player.contextFor i c).run s = .ok (d, w) ∧
      Walk sections i (.node passage.node) d t w ws stop u ∧
      vs = ws ++ [⟨i, c, t, stop, u.events.toList.drop s.events.size⟩] := by
  generalize hn : Node.insert (i : Int) = n at h
  cases h with
  | @insert _ j passage _ d _ _ _ w ws _ _ hsection hcontext hnode =>
    obtain rfl : i = j := Int.ofNat.inj (Node.insert.inj hn)
    exact ⟨passage, d, w, ws, hsection, hcontext, hnode, rfl⟩
  | note | rest | sequence | chord | event | error => cases hn

/-- Once a section has been played, an insert plays it in the same context, whatever its own. -/
theorem Walk.in_first_context {sections : Array Section} {m i : Nat} {passage : Section}
    {c c' d : Context} {t' stop' : Ratio} {s w s' u' : Stage} {vs' : List Visit}
    (h' : Walk sections m (.node (.insert i)) c' t' s' vs' stop' u') (hs' : Poised c' t' s')
    (hsize : s.bound.size = sections.size) (hsection : sections[i]? = some passage)
    (hcontext : (Player.contextFor i c).run s = .ok (d, w)) (hlater : w.Precedes s') :
    ∃ ws, Walk sections i (.node passage.node) d t' s' ws stop' u' ∧ Poised d t' s' := by
  obtain ⟨passage', d', w', ws, hsection', hcontext', hnode', -⟩ := h'.exists_of_insert
  obtain rfl := Option.some.inj (hsection.symm.trans hsection')
  have hbound : i < s.bound.size := by
    rw [hsize]
    exact (Array.getElem?_eq_some_iff.1 hsection).1
  have hd' := (Player.stretch_contextFor hs' hcontext').2
  obtain ⟨rfl, rfl⟩ := Player.contextFor_again hbound hcontext hlater hcontext'
  exact ⟨ws, hnode', hd'⟩

/-- What a walk of `task` has brought about from `t` and `s` to `stop` and `u` is done again by every
walk of it in the same context that begins at a stage at which all of that is settled. -/
def Repeatable (delay : ℚ) (sections : Array Section) (task : Task) (c : Context) (t : Ratio)
    (s : Stage) (stop : Ratio) (u : Stage) : Prop :=
  ∀ ⦃m task' t' s' vs stop' u'⦄, Walk sections m task' c t' s' vs stop' u' →
    task.Moved delay task' → s.bound.size = sections.size → Poised c t s → Poised c t' s' →
    t'.value = t.value + delay → u.Precedes s' →
    stop'.value = stop.value + delay ∧ Again delay s u s' u'

namespace Repeatable

variable {delay : ℚ} {sections : Array Section} {m m' : Nat} {o : Option Options} {n : Node}
  {ns : List Node} {l : Bytes} {task task' : Task} {c d d' : Context}
  {t t' mid before stop stop' : Ratio} {s w u s' w' u' : Stage} {vs vs' : List Visit}

theorem note {degree accidental : Int64} (ho : Options.Timed o)
    (henter : (Player.enter c o t).run s = .ok (d, w))
    (hnote : (Player.note (pitch degree accidental d.key) d t).run w = .ok (stop, u)) :
    Repeatable delay sections (.node (.note degree accidental o)) c t s stop u := by
  intro m' task' t' s' vs' stop' u' h' hmoved hsize hs hs' ht hlater
  cases hmoved
  cases h' with
  | note _ henter' hnote' =>
    have hd := (Player.stretch_enter ho hs henter).2
    obtain ⟨rfl, hagain⟩ :=
      Player.enter_again henter ((Player.keeps_note hnote).1.trans hlater) henter' ht
    obtain ⟨hstop, hagain'⟩ :=
      Player.note_again hd.duration.toIsTime hs.time hs'.time ht hnote hnote'
    exact ⟨hstop, hagain.trans hagain'⟩

theorem rest (ho : Options.Timed o) (henter : (Player.enter c o t).run s = .ok (d, w))
    (hrest : (Player.later t d.duration).run w = .ok (stop, u)) :
    Repeatable delay sections (.node (.rest o)) c t s stop u := by
  intro m' task' t' s' vs' stop' u' h' hmoved hsize hs hs' ht hlater
  cases hmoved
  cases h' with
  | rest _ henter' hrest' =>
    have hd := (Player.stretch_enter ho hs henter).2
    obtain ⟨-, rfl⟩ := Player.later_eq_ok hrest
    obtain ⟨rfl, hagain⟩ := Player.enter_again henter hlater henter' ht
    obtain ⟨hstop, hagain'⟩ :=
      Player.later_again hd.duration.toIsTime hs.time hs'.time ht hrest hrest'
    exact ⟨hstop, hagain.trans hagain'⟩

/-- The options of a group are followed again, and so is what is in it. -/
theorem entered (ih : Repeatable delay sections task d t w stop u) (ho : Options.Timed o)
    (henter : (Player.enter c o t).run s = .ok (d, w)) (hrest : w.Precedes u)
    (henter' : (Player.enter c o t').run s' = .ok (d', w'))
    (h' : Walk sections m' task' d' t' w' vs' stop' u') (hmoved : task.Moved delay task')
    (hsize : s.bound.size = sections.size) (hs : Poised c t s) (hs' : Poised c t' s')
    (ht : t'.value = t.value + delay) (hlater : u.Precedes s') :
    stop'.value = stop.value + delay ∧ Again delay s u s' u' := by
  obtain ⟨rfl, hagain⟩ := Player.enter_again henter (hrest.trans hlater) henter' ht
  obtain ⟨hstop, hagain'⟩ := ih h' hmoved ((Player.keeps_enter henter).1.size.trans hsize)
    (Player.stretch_enter ho hs henter).2 (Player.stretch_enter ho hs' henter').2 ht
    (hagain.precedes hlater)
  exact ⟨hstop, hagain.trans hagain'⟩

/-- A label between the nodes of a group is followed again, and so are the nodes after it. -/
theorem labelled (ih : Repeatable delay sections task d t w stop u)
    (hlabel : (Player.label c l t).run s = .ok (d, w)) (hrest : w.Precedes u)
    (hlabel' : (Player.label c l t').run s' = .ok (d', w'))
    (h' : Walk sections m' task' d' t' w' vs' stop' u') (hmoved : task.Moved delay task')
    (hsize : s.bound.size = sections.size) (hs : Poised c t s) (hs' : Poised c t' s')
    (ht : t'.value = t.value + delay) (hlater : u.Precedes s') :
    stop'.value = stop.value + delay ∧ Again delay s u s' u' := by
  obtain ⟨rfl, hagain⟩ := Player.label_again hlabel (hrest.trans hlater) hlabel' ht
  obtain ⟨hstop, hagain'⟩ := ih h' hmoved ((Player.keeps_label hlabel).1.size.trans hsize)
    (Player.stretch_label hs hlabel).2 (Player.stretch_label hs' hlabel').2 ht
    (hagain.precedes hlater)
  exact ⟨hstop, hagain.trans hagain'⟩

theorem sequence (ho : Options.Timed o) (henter : (Player.enter c o t).run s = .ok (d, w))
    (hchildren : w.Precedes u) (ih : Repeatable delay sections (.sequence ns) d t w stop u) :
    Repeatable delay sections (.node (.group .sequence ns o)) c t s stop u := by
  intro m' task' t' s' vs' stop' u' h' hmoved hsize hs hs' ht hlater
  cases hmoved
  cases h' with
  | sequence _ henter' hchildren' =>
    exact ih.entered ho henter hchildren henter' hchildren' .sequence hsize hs hs' ht hlater

theorem chord (ho : Options.Timed o) (henter : (Player.enter c o t).run s = .ok (d, w))
    (hchildren : w.Precedes u) (ih : Repeatable delay sections (.chord ns t) d t w stop u) :
    Repeatable delay sections (.node (.group .chord ns o)) c t s stop u := by
  intro m' task' t' s' vs' stop' u' h' hmoved hsize hs hs' ht hlater
  cases hmoved
  cases h' with
  | chord _ henter' hchildren' =>
    have hmoved' : Task.Moved delay (.chord ns t) (.chord ns t') := .chord hs.time hs'.time ht
    exact ih.entered ho henter hchildren henter' hchildren' hmoved' hsize hs hs' ht hlater

/-- The section is played in its first context, so that an insert of it repeats what it did. -/
theorem insert {i : Nat} {passage : Section} (hsection : sections[i]? = some passage)
    (hcontext : (Player.contextFor i c).run s = .ok (d, w)) (hnode : w.Precedes u)
    (ih : Repeatable delay sections (.node passage.node) d t w stop u) :
    Repeatable delay sections (.node (.insert i)) c t s stop u := by
  intro m' task' t' s' vs' stop' u' h' hmoved hsize hs hs' ht hlater
  cases hmoved
  obtain ⟨ws, hnode', hd'⟩ :=
    h'.in_first_context hs' hsize hsection hcontext (hnode.trans hlater)
  have hd := (Player.stretch_contextFor hs hcontext).2
  obtain ⟨hstop, hagain⟩ := ih hnode' .node
    ((Player.precedes_contextFor hcontext).1.size.trans hsize) hd hd' ht hlater
  refine ⟨hstop, hagain.channels, hagain.bound, ?_⟩
  rw [← Player.events_contextFor hcontext]
  exact hagain.events

theorem event (hlabel : (Player.label c l t).run s = .ok (d, u)) :
    Repeatable delay sections (.node (.event l none)) c t s t u := by
  intro m' task' t' s' vs' stop' u' h' hmoved hsize hs hs' ht hlater
  cases hmoved
  cases h' with
  | event hlabel' => exact ⟨ht, (Player.label_again hlabel hlater hlabel' ht).2⟩

theorem sequenceLabel (hlabel : (Player.label c l t).run s = .ok (d, w)) (hrest : w.Precedes u)
    (ih : Repeatable delay sections (.sequence ns) d t w stop u) :
    Repeatable delay sections (.sequence (.event l none :: ns)) c t s stop u := by
  intro m' task' t' s' vs' stop' u' h' hmoved hsize hs hs' ht hlater
  cases hmoved
  cases h' with
  | sequenceLabel hlabel' hrest' =>
    exact ih.labelled hlabel hrest hlabel' hrest' .sequence hsize hs hs' ht hlater
  | sequenceCons hn => exact absurd rfl (hn _ _)

theorem sequenceCons (hn : ∀ l o, n ≠ .event l o) (hnode : Walk sections m (.node n) c t s vs mid w)
    (hrest : w.Precedes u) (ihnode : Repeatable delay sections (.node n) c t s mid w)
    (ihrest : Repeatable delay sections (.sequence ns) c mid w stop u) :
    Repeatable delay sections (.sequence (n :: ns)) c t s stop u := by
  intro m' task' t' s' vs' stop' u' h' hmoved hsize hs hs' ht hlater
  cases hmoved
  cases h' with
  | sequenceLabel => exact absurd rfl (hn _ _)
  | sequenceCons _ hnode' hrest' =>
    obtain ⟨hmid, hagain⟩ := ihnode hnode' .node hsize hs hs' ht (hrest.trans hlater)
    obtain ⟨hstop, hagain'⟩ := ihrest hrest' .sequence (hnode.precedes.size.trans hsize)
      (hs.walk hnode) (hs'.walk hnode') hmid (hagain.precedes hlater)
    exact ⟨hstop, hagain.trans hagain'⟩

theorem chordLabel (hlabel : (Player.label c l t).run s = .ok (d, w)) (hrest : w.Precedes u)
    (ih : Repeatable delay sections (.chord ns before) d t w stop u) :
    Repeatable delay sections (.chord (.event l none :: ns) before) c t s stop u := by
  intro m' task' t' s' vs' stop' u' h' hmoved hsize hs hs' ht hlater
  cases hmoved with
  | chord hstop hstop' hvalue =>
    cases h' with
    | chordLabel hlabel' hrest' =>
      have hmoved' : Task.Moved delay (.chord ns before) (.chord ns _) := .chord hstop hstop' hvalue
      exact ih.labelled hlabel hrest hlabel' hrest' hmoved' hsize hs hs' ht hlater
    | chordCons hn => exact absurd rfl (hn _ _)

/-- Every child of a chord starts where the chord does, and the chord ends with the latest. -/
theorem chordCons (hn : ∀ l o, n ≠ .event l o) (hnode : Walk sections m (.node n) c t s vs mid w)
    (hrest : w.Precedes u) (ihnode : Repeatable delay sections (.node n) c t s mid w)
    (ihrest : Repeatable delay sections (.chord ns (before.max mid)) c t w stop u) :
    Repeatable delay sections (.chord (n :: ns) before) c t s stop u := by
  intro m' task' t' s' vs' stop' u' h' hmoved hsize hs hs' ht hlater
  cases hmoved with
  | chord hstop hstop' hvalue =>
    cases h' with
    | chordLabel => exact absurd rfl (hn _ _)
    | chordCons _ hnode' hrest' =>
      obtain ⟨hchild, hagain⟩ := ihnode hnode' .node hsize hs hs' ht (hrest.trans hlater)
      have hended := hs.walk hnode
      have hended' := hs'.walk hnode'
      obtain ⟨hends, hagain'⟩ := ihrest hrest'
        (.latest hstop hstop' hvalue hended.time hended'.time hchild)
        (hnode.precedes.size.trans hsize) ⟨hs.duration, hs.time, hended.timed⟩
        ⟨hs'.duration, hs'.time, hended'.timed⟩ ht (hagain.precedes hlater)
      exact ⟨hends, hagain.trans hagain'⟩

end Repeatable

/-- The first walk is taken apart rule by rule, and the second must go by the same rules. Each of its
parts begins at a stage at which all of the first walk is settled. -/
theorem Walk.again {delay : ℚ} {sections : Array Section} {m : Nat} {task : Task} {c : Context}
    {t stop : Ratio} {s u : Stage} {vs : List Visit}
    (h : Walk sections m task c t s vs stop u) : Repeatable delay sections task c t s stop u := by
  induction h with
  | note ho henter hnote => exact .note ho henter hnote
  | rest ho henter hrest => exact .rest ho henter hrest
  | sequence ho henter hchildren ih => exact .sequence ho henter hchildren.precedes ih
  | chord ho henter hchildren ih => exact .chord ho henter hchildren.precedes ih
  | insert _ hsection hcontext hnode ih => exact .insert hsection hcontext hnode.precedes ih
  | event hlabel => exact .event hlabel
  | error | sequenceNil =>
    intro m' task' t' s' vs' stop' u' h' hmoved _ _ _ ht _
    cases hmoved
    cases h'
    exact ⟨ht, .refl ..⟩
  | sequenceLabel hlabel hrest ih => exact .sequenceLabel hlabel hrest.precedes ih
  | sequenceCons hn hnode hrest ihnode ihrest =>
    exact .sequenceCons hn hnode hrest.precedes ihnode ihrest
  | chordNil =>
    intro m' task' t' s' vs' stop' u' h' hmoved _ _ _ _ _
    cases hmoved with
    | chord _ _ hvalue =>
      cases h'
      exact ⟨hvalue, .refl ..⟩
  | chordLabel hlabel hrest ih => exact .chordLabel hlabel hrest.precedes ih
  | chordCons hn hnode hrest ihnode ihrest =>
    exact .chordCons hn hnode hrest.precedes ihnode ihrest

-- ════════════════════════════════════════════════════════════════════════
-- Visits
-- ════════════════════════════════════════════════════════════════════════

section

variable {sections : Array Section}

/-- Whenever the section is played again from the stage `s` on, the visit is repeated. -/
def Visit.Replayable (sections : Array Section) (v : Visit) (s : Stage) : Prop :=
  ∀ ⦃m c t s' vs stop u⦄, s.Precedes s' → Poised c t s' →
    Walk sections m (.node (.insert v.index)) c t s' vs stop u →
    Visit.Repeats ⟨v.index, c, t, stop, u.events.toList.drop s'.events.size⟩ v

theorem Visit.Replayable.mono {v : Visit} {s u : Stage} (h : v.Replayable sections s)
    (hsu : s.Precedes u) : v.Replayable sections u := by
  intro m c t s' vs stop w hlater hs' hwalk
  exact h (hsu.trans hlater) hs' hwalk

theorem Walk.replayable {m i : Nat} {c : Context} {t stop : Ratio} {s u : Stage} {vs : List Visit}
    (h : Walk sections m (.node (.insert i)) c t s vs stop u)
    (hsize : s.bound.size = sections.size) (hs : Poised c t s) :
    Visit.Replayable sections ⟨i, c, t, stop, u.events.toList.drop s.events.size⟩ u := by
  intro m' c' t' s' vs' stop' u' hlater hs' h'
  obtain ⟨passage, d, w, ws, hsection, hcontext, hnode, -⟩ := h.exists_of_insert
  obtain ⟨ws', hnode', hd'⟩ :=
    h'.in_first_context hs' hsize hsection hcontext (hnode.precedes.trans hlater)
  have ht : t'.value = t.value + (t'.value - t.value) := by ring
  have hd := (Player.stretch_contextFor hs hcontext).2
  obtain ⟨hstop, hagain⟩ := hnode.again hnode' .node
    ((Player.precedes_contextFor hcontext).1.size.trans hsize) hd hd' ht hlater
  obtain ⟨new, new', hnew, hnew', hdelayed⟩ := hagain.events
  rw [Player.events_contextFor hcontext] at hnew
  refine ⟨?_, ?_⟩
  · simpa [hnew, hnew'] using hdelayed
  · dsimp only
    rw [hstop]
    ring

/-- The visits so far: each repeats the earlier ones of its section, and will itself be repeated. -/
structure Faithful (sections : Array Section) (visits : List Visit) (s : Stage) : Prop where
  repeats : visits.Pairwise fun v w => v.index = w.index → w.Repeats v
  replayable : ∀ v ∈ visits, v.Replayable sections s

theorem Faithful.mono {visits : List Visit} {s u : Stage} (h : Faithful sections visits s)
    (hsu : s.Precedes u) : Faithful sections visits u :=
  ⟨h.repeats, fun v hv => (h.replayable v hv).mono hsu⟩

theorem Walk.faithful {m : Nat} {task : Task} {c : Context} {t stop : Ratio} {s u : Stage}
    {vs before : List Visit} (h : Walk sections m task c t s vs stop u)
    (hsize : s.bound.size = sections.size) (hs : Poised c t s)
    (hbefore : Faithful sections before s) : Faithful sections (before ++ vs) u := by
  induction h generalizing before with
  | note _ henter hnote =>
    rw [List.append_nil]
    exact hbefore.mono ((Player.keeps_enter henter).1.trans (Player.keeps_note hnote).1)
  | rest _ henter hrest =>
    rw [List.append_nil]
    obtain ⟨-, rfl⟩ := Player.later_eq_ok hrest
    exact hbefore.mono (Player.keeps_enter henter).1
  | sequence ho henter _ ih | chord ho henter _ ih =>
    have henters := (Player.keeps_enter henter).1
    exact ih (henters.size.trans hsize) (Player.stretch_enter ho hs henter).2 (hbefore.mono henters)
  | @insert m i passage c d t stop s u vs w hi hsection hcontext hnode ih =>
    have hwalk := Walk.insert hi hsection hcontext hnode
    have hcontexts := (Player.precedes_contextFor hcontext).1
    have hd := (Player.stretch_contextFor hs hcontext).2
    have hinner := ih (hcontexts.size.trans hsize) hd (hbefore.mono hcontexts)
    rw [← List.append_assoc]
    refine ⟨?_, List.forall_mem_append.2 ⟨hinner.replayable, ?_⟩⟩
    · refine List.pairwise_append.2 ⟨hinner.repeats, List.pairwise_singleton .., ?_⟩
      intro v hv w hw hindex
      obtain rfl := List.mem_singleton.1 hw
      rcases List.mem_append.1 hv with hv | hv
      · -- An earlier visit, which this one repeats.
        subst hindex
        exact hbefore.replayable v hv (.refl s) hs hwalk
      · -- A visit inside this one is of another section.
        exact absurd hindex (hnode.index_lt v hv).ne
    · exact List.forall_mem_singleton.2 (hwalk.replayable hsize hs)
  | event hlabel =>
    rw [List.append_nil]
    exact hbefore.mono (Player.keeps_label hlabel).1
  | error | sequenceNil | chordNil =>
    rw [List.append_nil]
    exact hbefore
  | sequenceLabel hlabel _ ih | chordLabel hlabel _ ih =>
    have hlabels := (Player.keeps_label hlabel).1
    exact ih (hlabels.size.trans hsize) (Player.stretch_label hs hlabel).2 (hbefore.mono hlabels)
  | sequenceCons _ hnode _ ihnode ihrest =>
    rw [← List.append_assoc]
    exact ihrest (hnode.precedes.size.trans hsize) (hs.walk hnode) (ihnode hsize hs hbefore)
  | chordCons _ hnode _ ihnode ihrest =>
    rw [← List.append_assoc]
    have hended := hs.walk hnode
    exact ihrest (hnode.precedes.size.trans hsize) ⟨hs.duration, hs.time, hended.timed⟩
      (ihnode hsize hs hbefore)

end

/-- Every visit of a section repeats its first one. -/
theorem Walk.repeats {sections : Array Section} {m : Nat} {n : Node} {stop : Ratio} {u : Stage}
    {vs : List Visit}
    (h : Walk sections m (.node n) .initial .zero (.empty sections.size) vs stop u) {k : Nat}
    {first : Visit} {later : List Visit} (hvisits : vs.filter (·.index = k) = first :: later) :
    ∀ v ∈ later, v.Repeats first := by
  have hnone : Faithful sections [] (.empty sections.size) := ⟨.nil, by simp⟩
  have hfaithful := h.faithful Array.size_replicate (.initial _) hnone
  have hpairwise := hfaithful.repeats.filter (·.index = k)
  rw [List.nil_append, hvisits] at hpairwise
  intro v hv
  have hindex : ∀ w ∈ first :: later, w.index = k := by
    intro w hw
    rw [← hvisits] at hw
    exact of_decide_eq_true (List.mem_filter.1 hw).2
  refine (List.pairwise_cons.1 hpairwise).1 v hv ?_
  rw [hindex first List.mem_cons_self, hindex v (List.mem_cons_of_mem _ hv)]

end DegreeScore
