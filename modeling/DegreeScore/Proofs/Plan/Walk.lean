import DegreeScore.Proofs.Plan.Playing
import DegreeScore.Proofs.Traversal

/-!
# Walks

`Walk` describes the successful runs of the player over sound scores by rules: one for each kind of
node, with the stages before and after it. Inserts are bounded by an index that goes down with every
section that is entered, so a walk has no depth to run out of. What is true of every run is proved by
induction on its walk.

A walk also lists the visits of sections, which are their playings through inserts. The performer
`recorder` notes them down while it plays (`Tree.record`), and the runs of the player, the walks and
the recorded runs are the same (`Tree.Sound.exists_walk`, `Walk.run_recorder`).
-/

namespace DegreeScore

/-- A playing of a section through an insert. -/
structure Visit where
  index : Nat
  /-- The context in force at the insert. -/
  context : Context
  start : Ratio
  stop : Ratio
  /-- The events brought about, in the order of playing. -/
  events : List TimedEvent
deriving Repr, DecidableEq

/-- A stage with the visits so far, in the order in which they ended. Visits of one section do not
overlap, so for them this is the order in which they began. -/
structure Recorded where
  stage : Stage
  visits : List Visit

namespace Recorded

/-- Makes a step of the player. -/
def lift {α : Type} (x : Player α) : Playing Recorded α := fun g =>
  match x.run g.stage with
  | .error e => .error e
  | .ok (a, s) => .ok (a, { g with stage := s })

end Recorded

/-- The player with a record of its visits. -/
def recorder : Performer Recorded Context Ratio where
  override := player.override
  label c l t := Recorded.lift (player.label c l t)
  note degree accidental c t := Recorded.lift (player.note degree accidental c t)
  rest c t := Recorded.lift (player.rest c t)
  contextFor i c := Recorded.lift (player.contextFor i c)
  latest := player.latest

/-- Plays a section as the player does and notes the visit down. -/
def Recorded.play (sections : Array Section) : Nat → Int → Context → Ratio → Playing Recorded Ratio
  | 0, index, _, _ =>
    match Player.section? sections index with
    | none => throw (.missingSection index)
    | some _ => throw (.circular index)
  | depth + 1, index, c, t => do
    match Player.section? sections index with
    | none => throw (.missingSection index)
    | some s =>
      let before ← get
      let d ← recorder.contextFor index.toNat c
      let stop ← recorder.node (play sections depth) s.node d t
      modify fun g => { g with visits := g.visits ++ [{
        index := index.toNat, context := c, start := t, stop
        events := g.stage.events.toList.drop before.stage.events.size }] }
      return stop

/-- The performance of a score and the visits of its sections. -/
def Tree.record (tree : Tree) : Except PlanError (Performance × List Visit) :=
  ((recorder.node (Recorded.play tree.sections tree.reach) tree.main .initial .zero).run
    ⟨.empty tree.sections.size, []⟩).map fun r => (Stage.performance (r.1, r.2.stage), r.2.visits)

-- ════════════════════════════════════════════════════════════════════════
-- The rules
-- ════════════════════════════════════════════════════════════════════════

/-- What is walked: a node, nodes in turn, or nodes together of which those before end at `stop`. -/
inductive Task
  | node (n : Node)
  | sequence (ns : List Node)
  | chord (ns : List Node) (stop : Ratio)

/-- Options that give no duration or a valid one. -/
def Options.Timed (o : Option Options) : Prop := ∀ x ∈ o, ∀ d ∈ x.duration, d.IsDuration

/-- `Walk sections m task c t s vs stop u`: from the stage `s`, what is walked in the context `c` from
the time `t` on ends at `stop` and at the stage `u`. All inserts on the way lead below `m`, and `vs`
are the visits in the order in which they end. -/
inductive Walk (sections : Array Section) :
    Nat → Task → Context → Ratio → Stage → List Visit → Ratio → Stage → Prop
  | note {m degree accidental o c d t stop s u w} (ho : Options.Timed o)
      (henter : (Player.enter c o t).run s = .ok (d, u))
      (hnote : (Player.note (pitch degree accidental d.key) d t).run u = .ok (stop, w)) :
      Walk sections m (.node (.note degree accidental o)) c t s [] stop w
  | rest {m o c d t stop s u w} (ho : Options.Timed o)
      (henter : (Player.enter c o t).run s = .ok (d, u))
      (hrest : (Player.later t d.duration).run u = .ok (stop, w)) :
      Walk sections m (.node (.rest o)) c t s [] stop w
  | sequence {m ns o c d t stop s u vs w} (ho : Options.Timed o)
      (henter : (Player.enter c o t).run s = .ok (d, u))
      (hchildren : Walk sections m (.sequence ns) d t u vs stop w) :
      Walk sections m (.node (.group .sequence ns o)) c t s vs stop w
  | chord {m ns o c d t stop s u vs w} (ho : Options.Timed o)
      (henter : (Player.enter c o t).run s = .ok (d, u))
      (hchildren : Walk sections m (.chord ns t) d t u vs stop w) :
      Walk sections m (.node (.group .chord ns o)) c t s vs stop w
  | insert {m i : Nat} {passage c d t stop s u vs w} (hi : i < m)
      (hsection : sections[i]? = some passage)
      (hcontext : (Player.contextFor i c).run s = .ok (d, u))
      (hnode : Walk sections i (.node passage.node) d t u vs stop w) :
      Walk sections m (.node (.insert i)) c t s
        (vs ++ [⟨i, c, t, stop, w.events.toList.drop s.events.size⟩]) stop w
  | event {m l c d t s u} (hlabel : (Player.label c l t).run s = .ok (d, u)) :
      Walk sections m (.node (.event l none)) c t s [] t u
  | error {m offset message c t s} : Walk sections m (.node (.error offset message)) c t s [] t s
  | sequenceNil {m c t s} : Walk sections m (.sequence []) c t s [] t s
  | sequenceLabel {m l ns c d t stop s u vs w}
      (hlabel : (Player.label c l t).run s = .ok (d, u))
      (hrest : Walk sections m (.sequence ns) d t u vs stop w) :
      Walk sections m (.sequence (.event l none :: ns)) c t s vs stop w
  | sequenceCons {m n ns c t mid stop s u vs ws w} (hn : ∀ l o, n ≠ .event l o)
      (hnode : Walk sections m (.node n) c t s vs mid u)
      (hrest : Walk sections m (.sequence ns) c mid u ws stop w) :
      Walk sections m (.sequence (n :: ns)) c t s (vs ++ ws) stop w
  | chordNil {m c t stop s} : Walk sections m (.chord [] stop) c t s [] stop s
  | chordLabel {m l ns c d t before stop s u vs w}
      (hlabel : (Player.label c l t).run s = .ok (d, u))
      (hrest : Walk sections m (.chord ns before) d t u vs stop w) :
      Walk sections m (.chord (.event l none :: ns) before) c t s vs stop w
  | chordCons {m n ns c t before child stop s u vs ws w} (hn : ∀ l o, n ≠ .event l o)
      (hnode : Walk sections m (.node n) c t s vs child u)
      (hrest : Walk sections m (.chord ns (before.max child)) c t u ws stop w) :
      Walk sections m (.chord (n :: ns) before) c t s (vs ++ ws) stop w

-- ════════════════════════════════════════════════════════════════════════
-- Runs of the player are walks
-- ════════════════════════════════════════════════════════════════════════

theorem Playing.run_bind_eq_ok {σ α β : Type} {x : Playing σ α} {f : α → Playing σ β} {s : σ}
    {r : β × σ} (h : (x >>= f).run s = .ok r) :
    ∃ a u, x.run s = .ok (a, u) ∧ (f a).run u = .ok r := by
  rw [StateT.run_bind] at h
  cases hx : x.run s with
  | error e =>
    rw [hx] at h
    cases h
  | ok p =>
    rw [hx] at h
    exact ⟨p.1, p.2, rfl, h⟩

theorem Options.Sound.timed {size : Nat} {o : Option Options} (h : ∀ x ∈ o, x.Sound size) :
    Options.Timed o :=
  fun x hx => (h x hx).duration

section

variable {sections : Array Section} {m size : Nat} {insert : Int → Context → Ratio → Player Ratio}

/-- Every successful run of the player over the node is a walk. -/
def Walked (sections : Array Section) (m : Nat) (insert : Int → Context → Ratio → Player Ratio)
    (n : Node) : Prop :=
  ∀ ⦃c t s stop u⦄, (player.node insert n c t).run s = .ok (stop, u) →
    ∃ vs, Walk sections m (.node n) c t s vs stop u

theorem exists_walk_sequence {ns : List Node}
    (hnodes : ∀ n ∈ ns, n.Sound m size ∧ Walked sections m insert n) {c : Context} {t stop : Ratio}
    {s u : Stage} (h : (player.sequence insert ns c t).run s = .ok (stop, u)) :
    ∃ vs, Walk sections m (.sequence ns) c t s vs stop u := by
  induction ns generalizing c t s with
  | nil =>
    rw [Performer.sequence] at h
    obtain ⟨rfl, rfl⟩ := Prod.mk.inj (Except.ok.inj h)
    exact ⟨[], .sequenceNil⟩
  | cons n rest ih =>
    obtain ⟨hn, hwalked⟩ := hnodes n List.mem_cons_self
    have hrest := fun k hk => hnodes k (List.mem_cons_of_mem n hk)
    by_cases hevent : ∃ l o, n = .event l o
    · obtain ⟨l, o, rfl⟩ := hevent
      cases hn with
      | event hl =>
        rw [Performer.sequence] at h
        obtain ⟨d, w, hlabel, h⟩ := Playing.run_bind_eq_ok h
        obtain ⟨vs, hvs⟩ := ih hrest h
        exact ⟨vs, .sequenceLabel hlabel hvs⟩
    · have hne : ∀ l o, n ≠ .event l o := fun l o h => hevent ⟨l, o, h⟩
      rw [Performer.sequence_cons player hne] at h
      obtain ⟨mid, w, hnode, h⟩ := Playing.run_bind_eq_ok h
      obtain ⟨vs, hvs⟩ := hwalked hnode
      obtain ⟨ws, hws⟩ := ih hrest h
      exact ⟨vs ++ ws, .sequenceCons hne hvs hws⟩

theorem exists_walk_chord {ns : List Node}
    (hnodes : ∀ n ∈ ns, n.Sound m size ∧ Walked sections m insert n) {c : Context}
    {t before stop : Ratio} {s u : Stage}
    (h : (player.chord insert ns c t before).run s = .ok (stop, u)) :
    ∃ vs, Walk sections m (.chord ns before) c t s vs stop u := by
  induction ns generalizing c before s with
  | nil =>
    rw [Performer.chord] at h
    obtain ⟨rfl, rfl⟩ := Prod.mk.inj (Except.ok.inj h)
    exact ⟨[], .chordNil⟩
  | cons n rest ih =>
    obtain ⟨hn, hwalked⟩ := hnodes n List.mem_cons_self
    have hrest := fun k hk => hnodes k (List.mem_cons_of_mem n hk)
    by_cases hevent : ∃ l o, n = .event l o
    · obtain ⟨l, o, rfl⟩ := hevent
      cases hn with
      | event hl =>
        rw [Performer.chord] at h
        obtain ⟨d, w, hlabel, h⟩ := Playing.run_bind_eq_ok h
        obtain ⟨vs, hvs⟩ := ih hrest h
        exact ⟨vs, .chordLabel hlabel hvs⟩
    · have hne : ∀ l o, n ≠ .event l o := fun l o h => hevent ⟨l, o, h⟩
      rw [Performer.chord_cons player hne] at h
      obtain ⟨child, w, hnode, h⟩ := Playing.run_bind_eq_ok h
      obtain ⟨vs, hvs⟩ := hwalked hnode
      obtain ⟨ws, hws⟩ := ih hrest h
      exact ⟨vs ++ ws, .chordCons hne hvs hws⟩

/-- One case per kind of node; the inserts of a sound node point below `m`. -/
theorem Node.Sound.walked {n : Node} (hn : n.Sound m size)
    (hinsert : ∀ i < m, Walked sections m insert (.insert (i : Nat))) :
    Walked sections m insert n := by
  induction hn with
  | note hdegree haccidental ho =>
    intro c t s stop u h
    rw [Performer.node, player_enter] at h
    obtain ⟨d, w, henter, hnote⟩ := Playing.run_bind_eq_ok h
    exact ⟨[], .note (Options.Sound.timed ho) henter hnote⟩
  | rest ho =>
    intro c t s stop u h
    rw [Performer.node, player_enter] at h
    obtain ⟨d, w, henter, hrest⟩ := Playing.run_bind_eq_ok h
    exact ⟨[], .rest (Options.Sound.timed ho) henter hrest⟩
  | @group g children o hchildren ho ih =>
    have hnodes := fun n hn => And.intro (hchildren n hn) (ih n hn)
    intro c t s stop u h
    cases g with
    | sequence =>
      rw [Performer.node, player_enter] at h
      obtain ⟨d, w, henter, h⟩ := Playing.run_bind_eq_ok h
      obtain ⟨vs, hvs⟩ := exists_walk_sequence hnodes h
      exact ⟨vs, .sequence (Options.Sound.timed ho) henter hvs⟩
    | chord =>
      rw [Performer.node, player_enter] at h
      obtain ⟨d, w, henter, h⟩ := Playing.run_bind_eq_ok h
      obtain ⟨vs, hvs⟩ := exists_walk_chord hnodes h
      exact ⟨vs, .chord (Options.Sound.timed ho) henter hvs⟩
  | insert hi => exact hinsert _ hi
  | event hl =>
    intro c t s stop u h
    rw [Performer.node] at h
    obtain ⟨d, w, hlabel, h⟩ := Playing.run_bind_eq_ok h
    obtain ⟨rfl, rfl⟩ := Prod.mk.inj (Except.ok.inj h)
    exact ⟨[], .event hlabel⟩
  | error =>
    intro c t s stop u h
    rw [Performer.node] at h
    obtain ⟨rfl, rfl⟩ := Prod.mk.inj (Except.ok.inj h)
    exact ⟨[], .error⟩

end

theorem section?_natCast {sections : Array Section} (i : Nat) :
    Player.section? sections i = sections[i]? := by
  rw [Player.section?, if_neg (by omega), Int.toNat_natCast]

/-- A section plays earlier ones only, so a depth above its index is enough. -/
theorem SoundSections.walked {size : Nat} {sections : Array Section}
    (hsections : SoundSections size sections) {depth i m : Nat} (hi : i < sections.size)
    (hdepth : i < depth) (hm : i < m) :
    Walked sections m (player.play sections depth) (.insert i) := by
  induction depth generalizing i m with
  | zero => exact absurd hdepth (Nat.not_lt_zero i)
  | succ depth ih =>
    intro c t s stop u h
    have hsection := Array.getElem?_eq_getElem hi
    have hnode := hsections i sections[i] hsection
    simp only [Performer.node, Performer.play, section?_natCast, hsection, Int.toNat_natCast] at h
    obtain ⟨d, w, hcontext, h⟩ := Playing.run_bind_eq_ok h
    obtain ⟨vs, hvs⟩ := hnode.walked (fun j hj => ih (by omega) (by omega) hj) h
    exact ⟨_, .insert hm hsection hcontext hvs⟩

/-- A performance of a sound score is a walk of its main passage. -/
theorem Tree.Sound.exists_walk {size : Nat} {tree : Tree} (h : tree.Sound size) {p : Performance}
    (hp : tree.perform = .ok p) :
    ∃ vs stop u, Walk tree.sections tree.sections.size (.node tree.main) .initial .zero
      (.empty tree.sections.size) vs stop u ∧ p = Stage.performance (stop, u) := by
  have hreach : tree.sections.size ≤ tree.reach := Nat.le_add_left ..
  rw [h.perform_eq_map] at hp
  obtain ⟨⟨stop, u⟩, hrun, rfl⟩ := Traversal.map_eq_ok_iff.1 hp
  obtain ⟨vs, hvs⟩ := h.main.walked
    (fun i hi => h.sections.walked hi (Nat.lt_of_lt_of_le hi hreach) hi) hrun
  exact ⟨vs, stop, u, hvs, rfl⟩

-- ════════════════════════════════════════════════════════════════════════
-- Walks are recorded
-- ════════════════════════════════════════════════════════════════════════

theorem Playing.run_bind_of_ok {σ α β : Type} {x : Playing σ α} {f : α → Playing σ β} {s u : σ}
    {a : α} (h : x.run s = .ok (a, u)) : (x >>= f).run s = (f a).run u := by
  rw [StateT.run_bind, h]
  rfl

theorem Recorded.run_lift {α : Type} {x : Player α} {s u : Stage} {a : α}
    (h : x.run s = .ok (a, u)) (visits : List Visit) :
    (lift x).run ⟨s, visits⟩ = .ok (a, ⟨u, visits⟩) := by
  change lift x ⟨s, visits⟩ = _
  simp only [lift, h]

theorem recorder_labels {c d : Context} {t : Ratio} {ls : List Bytes} {s u : Stage}
    (h : (Player.labels c t ls).run s = .ok (d, u)) (visits : List Visit) :
    (recorder.labels c t ls).run ⟨s, visits⟩ = .ok (d, ⟨u, visits⟩) := by
  induction ls generalizing c s with
  | nil =>
    obtain ⟨rfl, rfl⟩ := Prod.mk.inj (Except.ok.inj h)
    rfl
  | cons l rest ih =>
    rw [Player.labels] at h
    rw [Performer.labels]
    split at h
    · next hl =>
      rw [if_pos hl]
      exact ih h
    · next hl =>
      obtain ⟨e, w, hlabel, h⟩ := Playing.run_bind_eq_ok h
      have hrecorded : (recorder.label c l t).run ⟨s, visits⟩ = .ok (e, ⟨w, visits⟩) :=
        Recorded.run_lift hlabel visits
      rw [if_neg hl, Playing.run_bind_of_ok hrecorded]
      exact ih h

theorem recorder_enter {c d : Context} {o : Option Options} {t : Ratio} {s u : Stage}
    (h : (Player.enter c o t).run s = .ok (d, u)) (visits : List Visit) :
    (recorder.enter c o t).run ⟨s, visits⟩ = .ok (d, ⟨u, visits⟩) := by
  cases o with
  | none =>
    obtain ⟨rfl, rfl⟩ := Prod.mk.inj (Except.ok.inj h)
    rfl
  | some o => exact recorder_labels h visits

/-- What a performer does with a task. -/
def Task.run {σ : Type} (P : Performer σ Context Ratio)
    (insert : Int → Context → Ratio → Playing σ Ratio) :
    Task → Context → Ratio → Playing σ Ratio
  | .node n, c, t => P.node insert n c t
  | .sequence ns, c, t => P.sequence insert ns c t
  | .chord ns stop, c, t => P.chord insert ns c t stop

/-- The recorder makes every walk and notes down its visits. -/
theorem Walk.run_recorder {sections : Array Section} {m : Nat} {task : Task} {c : Context}
    {t stop : Ratio} {s u : Stage} {vs : List Visit} (h : Walk sections m task c t s vs stop u)
    {depth : Nat} (hdepth : m ≤ depth) (visits : List Visit) :
    (task.run recorder (Recorded.play sections depth) c t).run ⟨s, visits⟩ =
      .ok (stop, ⟨u, visits ++ vs⟩) := by
  induction h generalizing depth visits with
  | note ho henter hnote =>
    rw [Task.run, Performer.node, Playing.run_bind_of_ok (recorder_enter henter visits),
      List.append_nil]
    exact Recorded.run_lift hnote visits
  | rest ho henter hrest =>
    rw [Task.run, Performer.node, Playing.run_bind_of_ok (recorder_enter henter visits),
      List.append_nil]
    exact Recorded.run_lift hrest visits
  | sequence ho henter _ ih =>
    rw [Task.run, Performer.node, Playing.run_bind_of_ok (recorder_enter henter visits)]
    exact ih hdepth visits
  | chord ho henter _ ih =>
    rw [Task.run, Performer.node, Playing.run_bind_of_ok (recorder_enter henter visits)]
    exact ih hdepth visits
  | @insert m i passage c d t stop s u vs w hi hsection hcontext _ ih =>
    obtain ⟨depth, rfl⟩ := Nat.exists_eq_succ_of_ne_zero (Nat.ne_zero_of_lt (hi.trans_le hdepth))
    have hrecorded : (recorder.contextFor i c).run ⟨s, visits⟩ = .ok (d, ⟨u, visits⟩) :=
      Recorded.run_lift hcontext visits
    have hnode := ih (Nat.le_of_lt_succ (hi.trans_le hdepth)) visits
    rw [Task.run] at hnode
    simp only [Task.run, Performer.node, Recorded.play, section?_natCast, hsection,
      Int.toNat_natCast]
    rw [Playing.run_bind_of_ok (a := ⟨s, visits⟩) rfl, Playing.run_bind_of_ok hrecorded,
      Playing.run_bind_of_ok hnode]
    change Except.ok (stop, Recorded.mk w ((visits ++ vs) ++ _)) = _
    rw [List.append_assoc]
  | event hlabel =>
    rw [Task.run, Performer.node, List.append_nil]
    exact Playing.run_bind_of_ok (Recorded.run_lift hlabel visits)
  | error =>
    rw [Task.run, Performer.node, List.append_nil]
    rfl
  | sequenceNil =>
    rw [Task.run, Performer.sequence, List.append_nil]
    rfl
  | sequenceLabel hlabel _ ih =>
    rw [Task.run, Performer.sequence]
    exact (Playing.run_bind_of_ok (Recorded.run_lift hlabel visits)).trans (ih hdepth visits)
  | sequenceCons hn _ _ ihnode ihrest =>
    rw [Task.run, Performer.sequence_cons recorder hn, ← List.append_assoc]
    exact (Playing.run_bind_of_ok (ihnode hdepth visits)).trans (ihrest hdepth _)
  | chordNil =>
    rw [Task.run, Performer.chord, List.append_nil]
    rfl
  | chordLabel hlabel _ ih =>
    rw [Task.run, Performer.chord]
    exact (Playing.run_bind_of_ok (Recorded.run_lift hlabel visits)).trans (ih hdepth visits)
  | chordCons hn _ _ ihnode ihrest =>
    rw [Task.run, Performer.chord_cons recorder hn, ← List.append_assoc]
    exact (Playing.run_bind_of_ok (ihnode hdepth visits)).trans (ihrest hdepth _)

/-- The record of a performance: its walk from the empty stage on. -/
theorem Tree.Sound.exists_record {size : Nat} {tree : Tree} (h : tree.Sound size) {p : Performance}
    (hp : tree.perform = .ok p) :
    ∃ vs stop u, tree.record = .ok (p, vs) ∧
      Walk tree.sections tree.sections.size (.node tree.main) .initial .zero
        (.empty tree.sections.size) vs stop u ∧ p = Stage.performance (stop, u) := by
  obtain ⟨vs, stop, u, hwalk, rfl⟩ := h.exists_walk hp
  have hreach : tree.sections.size ≤ tree.reach := Nat.le_add_left ..
  have hrun := hwalk.run_recorder hreach []
  refine ⟨vs, stop, u, ?_, hwalk, rfl⟩
  change ((Task.run recorder _ (.node tree.main) .initial .zero).run _).map _ = _
  rw [hrun]
  rfl

end DegreeScore
