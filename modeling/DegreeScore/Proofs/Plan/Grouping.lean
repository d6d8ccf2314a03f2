import DegreeScore.Proofs.Plan.Playing
import Mathlib.Data.List.Forall2

/-!
# Redundant groups

A node that is put into a group of its own is played as before (`Tree.Wraps.perform_eq`), wherever it
stands: under other groups, or in a section that is played many times. For a sequence this is plain. A
chord ends with the latest of its start and the ends of its children, so it ends with its only child
because nothing ends before it starts, and at the same fraction because fractions are in lowest terms.

Both players are followed from equal stages at once (`unison`). The inserts of the one lead to sections
with the node in a group, those of the other to sections without.
-/

namespace DegreeScore

-- ════════════════════════════════════════════════════════════════════════
-- Measured scores
-- ════════════════════════════════════════════════════════════════════════

/-- Options that give no duration or a fraction in lowest terms, of whatever size. -/
def Options.Measured (o : Option Options) : Prop := ∀ x ∈ o, ∀ d ∈ x.duration, d.IsTime

/-- All durations in a node are fractions in lowest terms. -/
inductive Node.Measured : Node → Prop
  | note {degree accidental o} (ho : Options.Measured o) : Measured (.note degree accidental o)
  | rest {o} (ho : Options.Measured o) : Measured (.rest o)
  | group {g children o} (hchildren : ∀ n ∈ children, n.Measured) (ho : Options.Measured o) :
      Measured (.group g children o)
  | insert {index} : Measured (.insert index)
  | event {l o} (ho : Options.Measured o) : Measured (.event l o)
  | error {offset message} : Measured (.error offset message)
  | hole : Measured .hole

/-- All durations in a score are fractions in lowest terms. -/
structure Tree.Measured (tree : Tree) : Prop where
  main : tree.main.Measured
  sections : ∀ s ∈ tree.sections, s.node.Measured

/-- The sections played so far have been given fractions in lowest terms. -/
def Stage.Measured (s : Stage) : Prop :=
  ∀ (i : Nat) (c : Context), s.bound[i]? = some (some c) → c.duration.IsTime

theorem Stage.measured_empty (sections : Nat) : (Stage.empty sections).Measured :=
  (Stage.sound_empty 0 sections).bound

theorem Context.isTime_override {c : Context} {o : Option Options} (hc : c.duration.IsTime)
    (ho : Options.Measured o) : (c.override o).duration.IsTime := by
  cases o with
  | none => exact hc
  | some o =>
    obtain ⟨v, hv⟩ := Context.exists_withDynamics_eq
      { c with duration := o.duration.getD c.duration, key := o.key.getD c.key } o.labels
    rw [Context.override, hv]
    cases hd : o.duration with
    | none => exact hc
    | some d => exact ho o rfl d hd

-- ════════════════════════════════════════════════════════════════════════
-- Playing in unison
-- ════════════════════════════════════════════════════════════════════════

/-- Two players at one stage with one context and one time. -/
def unison : Correspondence Stage Context Ratio Stage Context Ratio where
  state s s' := s = s' ∧ s.Measured
  context _ _ c c' := c = c' ∧ c.duration.IsTime
  time t t' := t = t' ∧ t.IsTime
  error _ := False
  shared _ := True

/-- One end for both players, no earlier than the start. -/
def EndsFrom (start : Ratio) (_ _ : Stage) (stop stop' : Ratio) : Prop :=
  stop = stop' ∧ stop.IsTime ∧ start.value ≤ stop.value

/-- From every stage, context and time on, what is played is the same and ends no earlier than it
starts. -/
def InUnison (f g : Context → Ratio → Player Ratio) : Prop :=
  ∀ ⦃s c t⦄, s.Measured → c.duration.IsTime → t.IsTime →
    unison.Follows s s (f c t) (g c t) (EndsFrom t)

namespace unison

variable {α : Type} {s : Stage} {c : Context} {t : Ratio}

/-- What a player does is the same for both. -/
theorem follows_self {x : Player α} {post : Stage → Stage → α → α → Prop}
    (h : ∀ a u, x.run s = .ok (a, u) → u.Measured ∧ post u u a a) :
    unison.Follows s s x x post := by
  rw [Correspondence.Follows]
  split
  · next he => exact .inr ⟨trivial, he⟩
  · next a u ha =>
    obtain ⟨hu, hpost⟩ := h a u ha
    exact ⟨a, u, ha, ⟨rfl, hu⟩, fun _ _ h => h, hpost⟩

/-- Both go on with one context. -/
theorem bind_context {x y : Player Context} {f g : Context → Player α}
    {post : Stage → Stage → α → α → Prop} (hx : unison.Follows s s x y unison.context)
    (hf : ∀ u d, u.Measured → d.duration.IsTime → unison.Follows u u (f d) (g d) post) :
    unison.Follows s s (x >>= f) (y >>= g) post := by
  refine hx.bind ?_
  rintro u _ d _ ⟨rfl, hu⟩ - ⟨rfl, hd⟩
  exact hf u d hu hd

/-- Both go on from one end. -/
theorem bind_ends {x y : Player Ratio} {f g : Ratio → Player α}
    {post : Stage → Stage → α → α → Prop} (hx : unison.Follows s s x y (EndsFrom t))
    (hf : ∀ u stop, u.Measured → stop.IsTime → t.value ≤ stop.value →
      unison.Follows u u (f stop) (g stop) post) :
    unison.Follows s s (x >>= f) (y >>= g) post := by
  refine hx.bind ?_
  rintro u _ stop _ ⟨rfl, hu⟩ - ⟨rfl, hstop, hle⟩
  exact hf u stop hu hstop hle

theorem run_eq {f g : Context → Ratio → Player Ratio} (h : InUnison f g) (hs : s.Measured)
    (hc : c.duration.IsTime) (ht : t.IsTime) : (f c t).run s = (g c t).run s := by
  have hfollows := h hs hc ht
  rw [Correspondence.Follows] at hfollows
  split at hfollows
  · next he =>
    obtain ⟨-, hsame⟩ := hfollows.resolve_left id
    rw [he, hsame]
  · next ha =>
    obtain ⟨b, u', hb, ⟨rfl, -⟩, -, rfl, -⟩ := hfollows
    rw [ha, hb]

-- ════════════════════════════════════════════════════════════════════════
-- Labels and leaves
-- ════════════════════════════════════════════════════════════════════════

theorem label (hs : s.Measured) (hc : c.duration.IsTime) (l : Bytes) :
    unison.Follows s s (player.label c l t) (player.label c l t) unison.context := by
  refine follows_self fun d u h => ?_
  rcases Player.label_eq_ok h with ⟨v, -, rfl, rfl⟩ | ⟨p, ch, -, -, -, rfl, rfl⟩ |
    ⟨p, ch, channels, -, -, -, rfl, rfl⟩ | ⟨-, -, rfl, rfl⟩ <;> exact ⟨hs, rfl, hc⟩

theorem labels (hs : s.Measured) (hc : c.duration.IsTime) (ls : List Bytes) :
    unison.Follows s s (player.labels c t ls) (player.labels c t ls) unison.context := by
  induction ls generalizing s c with
  | nil => exact Correspondence.follows_pure ⟨rfl, hs⟩ ⟨rfl, hc⟩
  | cons l rest ih =>
    rw [Performer.labels]
    split
    · exact ih hs hc
    · exact bind_context (label hs hc l) fun u d hu hd => ih hu hd

theorem enter {o : Option Options} (hs : s.Measured) (hc : c.duration.IsTime)
    (ho : Options.Measured o) :
    unison.Follows s s (player.enter c o t) (player.enter c o t) unison.context := by
  cases o with
  | none => exact Correspondence.follows_pure ⟨rfl, hs⟩ ⟨rfl, hc⟩
  | some o => exact labels hs (Context.isTime_override hc ho) o.labels

theorem event {o : Option Options} (hs : s.Measured) (hc : c.duration.IsTime)
    (ho : Options.Measured o) (l : Bytes) :
    unison.Follows s s (player.event l o c t) (player.event l o c t) unison.context :=
  bind_context (enter hs hc ho) fun _ _ hu hd => label hu hd l

/-- A sum with a duration is no earlier than the time. -/
theorem endsFrom_add {stop : Ratio} {u u' : Stage} (ht : t.IsTime) (hc : c.duration.IsTime)
    (h : t.add c.duration = .ok stop) : EndsFrom t u u' stop stop := by
  obtain ⟨hstop, hvalue⟩ := ht.add hc h
  exact ⟨rfl, hstop, hvalue ▸ le_add_of_nonneg_right hc.value_nonneg⟩

theorem rest : InUnison player.rest player.rest := by
  intro s c t hs hc ht
  refine follows_self fun stop u h => ?_
  obtain ⟨hadd, rfl⟩ := Player.later_eq_ok h
  exact ⟨hs, endsFrom_add ht hc hadd⟩

theorem note (degree accidental : Int64) :
    InUnison (player.note degree accidental) (player.note degree accidental) := by
  intro s c t hs hc ht
  refine follows_self fun stop u h => ?_
  obtain ⟨hadd, rfl⟩ := Player.note_eq_ok h
  exact ⟨hs, endsFrom_add ht hc hadd⟩

theorem contextFor (hs : s.Measured) (hc : c.duration.IsTime) (i : Nat) :
    unison.Follows s s (player.contextFor i c) (player.contextFor i c) unison.context := by
  refine follows_self fun d u h => ?_
  rcases Player.contextFor_eq_ok h with ⟨hfirst, rfl⟩ | ⟨-, rfl, rfl⟩
  · exact ⟨hs, rfl, hs i d hfirst⟩
  · refine ⟨fun j e he => ?_, rfl, hc⟩
    rcases eq_or_of_getElem?_setIfInBounds he with rfl | he
    · exact hc
    · exact hs j e he

-- ════════════════════════════════════════════════════════════════════════
-- Groups
-- ════════════════════════════════════════════════════════════════════════

/-- Two nodes that can stand for each other in a group: the same label, or no labels and played in
unison. -/
inductive Alike (insert insert' : Int → Context → Ratio → Player Ratio) : Node → Node → Prop
  | event {l o} (ho : Options.Measured o) : Alike insert insert' (.event l o) (.event l o)
  | other {n n'} (hn : ∀ l o, n ≠ .event l o) (hn' : ∀ l o, n' ≠ .event l o)
      (h : InUnison (player.node insert n) (player.node insert' n')) : Alike insert insert' n n'

variable {insert insert' : Int → Context → Ratio → Player Ratio} {ns ns' : List Node} {n : Node}

/-- In a sequence the time moves on from node to node, away from the start. -/
theorem sequence (h : List.Forall₂ (Alike insert insert') ns ns') {start : Ratio} (hs : s.Measured)
    (hc : c.duration.IsTime) (ht : t.IsTime) (hstart : start.value ≤ t.value) :
    unison.Follows s s (player.sequence insert ns c t) (player.sequence insert' ns' c t)
      (EndsFrom start) := by
  induction h generalizing s c t with
  | nil =>
    rw [Performer.sequence, Performer.sequence]
    exact Correspondence.follows_pure ⟨rfl, hs⟩ ⟨rfl, ht, hstart⟩
  | cons hn _ ih =>
    cases hn with
    | event ho =>
      rw [Performer.sequence, Performer.sequence]
      exact bind_context (event hs hc ho _) fun u d hu hd => ih hu hd ht hstart
    | other hn hn' h =>
      rw [Performer.sequence_cons player hn, Performer.sequence_cons player hn']
      exact bind_ends (h hs hc ht) fun u mid hu hmid hle => ih hu hc hmid (hstart.trans hle)

/-- In a chord every node starts where the chord does, so the latest end is no earlier. -/
theorem chord (h : List.Forall₂ (Alike insert insert') ns ns') {stop : Ratio} (hs : s.Measured)
    (hc : c.duration.IsTime) (ht : t.IsTime) (hstop : stop.IsTime) (hle : t.value ≤ stop.value) :
    unison.Follows s s (player.chord insert ns c t stop) (player.chord insert' ns' c t stop)
      (EndsFrom t) := by
  induction h generalizing s c stop with
  | nil =>
    rw [Performer.chord, Performer.chord]
    exact Correspondence.follows_pure ⟨rfl, hs⟩ ⟨rfl, hstop, hle⟩
  | cons hn _ ih =>
    cases hn with
    | event ho =>
      rw [Performer.chord, Performer.chord]
      exact bind_context (event hs hc ho _) fun u d hu hd => ih hu hd hstop hle
    | other hn hn' h =>
      rw [Performer.chord_cons player hn, Performer.chord_cons player hn']
      refine bind_ends (h hs hc ht) fun u child hu hchild _ => ?_
      obtain ⟨hmax, hvalue⟩ := hstop.max hchild
      exact ih hu hc hmax (hle.trans (hvalue ▸ le_max_left ..))

theorem group (g : Grouping) {o : Option Options} (ho : Options.Measured o)
    (h : List.Forall₂ (Alike insert insert') ns ns') :
    InUnison (player.node insert (.group g ns o)) (player.node insert' (.group g ns' o)) := by
  intro s c t hs hc ht
  cases g with
  | sequence =>
    rw [Performer.node, Performer.node]
    exact bind_context (enter hs hc ho) fun u d hu hd => sequence h hu hd ht le_rfl
  | chord =>
    rw [Performer.node, Performer.node]
    exact bind_context (enter hs hc ho) fun u d hu hd => chord h hu hd ht ht le_rfl

/-- A group of one node without options is left at the end of the node. -/
theorem group_singleton (g : Grouping) (hn : ∀ l o, n ≠ .event l o)
    {f : Context → Ratio → Player Ratio} (h : InUnison f (player.node insert n)) :
    InUnison f (player.node insert (.group g [n] none)) := by
  intro s c t hs hc ht
  have hnode := h hs hc ht
  cases g with
  | sequence =>
    have hgroup : player.node insert (.group .sequence [n] none) c t =
        (player.node insert n c t >>= fun stop => pure stop) := by
      rw [Performer.node, Performer.enter, pure_bind, Performer.sequence_cons player hn]
      simp only [Performer.sequence]
    rw [hgroup]
    exact hnode.map_right fun _ _ _ _ h => h
  | chord =>
    have hgroup : player.node insert (.group .chord [n] none) c t =
        (player.node insert n c t >>= fun stop => pure (t.max stop)) := by
      rw [Performer.node, Performer.enter, pure_bind, Performer.chord_cons player hn]
      simp only [Performer.chord]
      rfl
    rw [hgroup]
    refine hnode.map_right ?_
    rintro _ _ stop _ ⟨rfl, hstop, hle⟩
    exact ⟨(ht.max_eq_right hstop hle).symm, hstop, hle⟩

/-- How inserts are played is all that makes a difference to a node. -/
theorem alike_self (hinsert : ∀ index, InUnison (insert index) (insert' index)) (hn : n.Measured) :
    Alike insert insert' n n := by
  induction hn with
  | note ho =>
    refine .other (by simp) (by simp) fun s c t hs hc ht => ?_
    rw [Performer.node, Performer.node]
    exact bind_context (enter hs hc ho) fun u d hu hd => note _ _ hu hd ht
  | rest ho =>
    refine .other (by simp) (by simp) fun s c t hs hc ht => ?_
    rw [Performer.node, Performer.node]
    exact bind_context (enter hs hc ho) fun u d hu hd => rest hu hd ht
  | group _ ho ih => exact .other (by simp) (by simp) (group _ ho (List.forall₂_same.2 ih))
  | insert =>
    refine .other (by simp) (by simp) fun s c t hs hc ht => ?_
    rw [Performer.node, Performer.node]
    exact hinsert _ hs hc ht
  | event ho => exact .event ho
  | error =>
    refine .other (by simp) (by simp) fun s c t hs hc ht => ?_
    rw [Performer.node, Performer.node]
    exact Correspondence.follows_pure ⟨rfl, hs⟩ ⟨rfl, ht, le_rfl⟩
  | hole =>
    refine .other (by simp) (by simp) fun s c t hs hc ht => ?_
    rw [Performer.node, Performer.node]
    exact .inr ⟨trivial, rfl⟩

end unison

-- ════════════════════════════════════════════════════════════════════════
-- Nodes in groups of their own
-- ════════════════════════════════════════════════════════════════════════

/-- One node, which is no label, has been put into a group of its own without options. -/
inductive Node.Wraps : Node → Node → Prop
  | here (g : Grouping) {n} (hn : ∀ l o, n ≠ .event l o) : Wraps n (.group g [n] none)
  | child {g before n n' after o} (h : n.Wraps n') :
      Wraps (.group g (before ++ n :: after) o) (.group g (before ++ n' :: after) o)

/-- One node of the main passage or of a section has been put into a group of its own. There is none
where there is no main passage. -/
inductive Tree.Wraps (tree : Tree) : Tree → Prop
  | main {n} (hmain : tree.main ≠ .hole) (h : tree.main.Wraps n) :
      tree.Wraps { tree with main := n }
  | passage {i : Nat} {s : Section} {n} (hs : tree.sections[i]? = some s) (h : s.node.Wraps n) :
      tree.Wraps { tree with sections := tree.sections.setIfInBounds i { s with node := n } }

/-- What wraps a node is a group. -/
theorem Node.Wraps.ne_hole {n n' : Node} (h : n.Wraps n') : n' ≠ .hole := by
  cases h <;> simp

namespace unison

variable {insert insert' : Int → Context → Ratio → Player Ratio} {n n' : Node}

theorem unison_of_alike (h : Alike insert insert' n n') :
    InUnison (player.node insert n) (player.node insert' n') := by
  cases h with
  | event ho =>
    intro s c t hs hc ht
    rw [Performer.node, Performer.node]
    exact bind_context (event hs hc ho _) fun u _ hu _ =>
      Correspondence.follows_pure ⟨rfl, hu⟩ ⟨rfl, ht, le_rfl⟩
  | other _ _ h => exact h

/-- One case for the node itself and one for each group around it. -/
theorem alike_of_wraps (hinsert : ∀ index, InUnison (insert index) (insert' index))
    (hn : n.Measured) (h : n.Wraps n') : Alike insert insert' n n' := by
  induction h with
  | here g hne => exact .other hne (by simp) (group_singleton g hne (unison_of_alike (alike_self hinsert hn)))
  | child _ ih =>
    cases hn with
    | group hchildren ho =>
      refine .other (by simp) (by simp) (group _ ho (List.rel_append ?_ (.cons ?_ ?_)))
      · exact List.forall₂_same.2 fun m hm => alike_self hinsert (hchildren m (by simp [hm]))
      · exact ih (hchildren _ (by simp))
      · exact List.forall₂_same.2 fun m hm => alike_self hinsert (hchildren m (by simp [hm]))

/-- The same node, or one with a node in a group of its own. -/
def Same (n n' : Node) : Prop := n.Measured ∧ (n' = n ∨ n.Wraps n')

theorem node (hinsert : ∀ index, InUnison (insert index) (insert' index)) (h : Same n n') :
    InUnison (player.node insert n) (player.node insert' n') := by
  obtain ⟨hn, rfl | hwraps⟩ := h
  · exact unison_of_alike (alike_self hinsert hn)
  · exact unison_of_alike (alike_of_wraps hinsert hn hwraps)

/-- The same sections, up to nodes in groups of their own. -/
def SameSections (sections sections' : Array Section) : Prop :=
  ∀ i : Nat, Option.Rel (fun p p' : Section => Same p.node p'.node) sections[i]? sections'[i]?

theorem section?_rel {sections sections' : Array Section} (h : SameSections sections sections')
    (index : Int) :
    Option.Rel (fun p p' : Section => Same p.node p'.node) (Player.section? sections index)
      (Player.section? sections' index) := by
  rw [Player.section?, Player.section?]
  split
  · exact .none
  · exact h _

/-- Both players find sections in the same places, so they fail alike at those that are missing. -/
theorem play {sections sections' : Array Section} (h : SameSections sections sections')
    (depth : Nat) (index : Int) :
    InUnison (player.play sections depth index) (player.play sections' depth index) := by
  induction depth generalizing index with
  | zero =>
    intro s c t hs hc ht
    have hsection := section?_rel h index
    rw [Performer.play, Performer.play]
    generalize Player.section? sections index = found at hsection
    generalize Player.section? sections' index = found' at hsection
    cases hsection with
    | none => exact .inr ⟨trivial, rfl⟩
    | some _ => exact .inr ⟨trivial, rfl⟩
  | succ depth ih =>
    intro s c t hs hc ht
    have hsection := section?_rel h index
    rw [Performer.play, Performer.play]
    generalize Player.section? sections index = found at hsection
    generalize Player.section? sections' index = found' at hsection
    cases hsection with
    | none => exact .inr ⟨trivial, rfl⟩
    | some hsame =>
      exact bind_context (contextFor hs hc _) fun u d hu hd => node ih hsame hu hd ht

end unison

namespace Tree

variable {tree tree' : Tree}

theorem Measured.sameSections (h : tree.Measured) :
    unison.SameSections tree.sections tree.sections := by
  intro i
  cases hi : tree.sections[i]? with
  | none => exact .none
  | some p => exact .some ⟨h.sections p (Array.mem_of_getElem? hi), .inl rfl⟩

namespace Wraps

theorem size_eq (h : tree.Wraps tree') : tree'.sections.size = tree.sections.size := by
  cases h with
  | main => rfl
  | passage => exact Array.size_setIfInBounds

theorem main_ne_hole (h : tree.Wraps tree') (hmain : tree.main ≠ .hole) : tree'.main ≠ .hole := by
  cases h with
  | main _ h => exact h.ne_hole
  | passage => exact hmain

theorem same_main (hmeasured : tree.Measured) (h : tree.Wraps tree') :
    unison.Same tree.main tree'.main := by
  cases h with
  | main _ h => exact ⟨hmeasured.main, .inr h⟩
  | passage => exact ⟨hmeasured.main, .inl rfl⟩

theorem sameSections (hmeasured : tree.Measured) (h : tree.Wraps tree') :
    unison.SameSections tree.sections tree'.sections := by
  cases h with
  | main => exact hmeasured.sameSections
  | @passage i p n hp h =>
    intro j
    by_cases hj : i = j
    · subst hj
      obtain ⟨hi, -⟩ := Array.getElem?_eq_some_iff.1 hp
      rw [Array.getElem?_setIfInBounds_self_of_lt hi, hp]
      exact .some ⟨hmeasured.sections p (Array.mem_of_getElem? hp), .inr h⟩
    · rw [Array.getElem?_setIfInBounds_ne hj]
      exact hmeasured.sameSections j

/-- A node of a score that is put into a group of its own makes no difference to the performance or to
the error, if durations are fractions in lowest terms. It does not matter where sections lead. -/
theorem perform_eq (hmeasured : tree.Measured) (h : tree.Wraps tree') :
    tree'.perform = tree.perform := by
  by_cases hmain : tree.main = .hole
  · cases h with
    | main hne => exact absurd hmain hne
    | passage => simp only [perform, hmain]
  · have hplay := unison.play (h.sameSections hmeasured) tree.reach
    have hrun := unison.run_eq (unison.node hplay (h.same_main hmeasured))
      (Stage.measured_empty tree.sections.size) Context.isTime_initial Ratio.isTime_zero
    rw [perform_eq_performWithin, perform_eq_performWithin, reach, reach, h.size_eq,
      tree'.performWithin_eq_map_of_ne_hole (h.main_ne_hole hmain),
      tree.performWithin_eq_map_of_ne_hole hmain, h.size_eq]
    exact congrArg _ hrun.symm

end Wraps

/-- A chord in a section that is played twice. -/
def refrain : Tree where
  main := .group .sequence [.insert 0, .event (Bytes.ofString "f") none, .insert 0] none
  sections := #[⟨Bytes.ofString "a", .group .chord [.note 0 0 (some { duration := some ⟨1, 2⟩ }),
    .event (Bytes.ofString "p") none, .note 4 0 none] none⟩]
  metadata := none

/-- The refrain with its longer note in a chord of its own. -/
def refrainInChord : Tree :=
  { refrain with
    sections := #[⟨Bytes.ofString "a", .group .chord [
      .group .chord [.note 0 0 (some { duration := some ⟨1, 2⟩ })] none,
      .event (Bytes.ofString "p") none, .note 4 0 none] none⟩] }

/-- Each chord lasts half a note, also with its longer note in another chord. -/
theorem Wraps.perform_eq_refrain :
    refrain.Measured ∧ refrain.Wraps refrainInChord ∧
      refrainInChord.perform = refrain.perform ∧
      (refrain.perform.map (·.duration)).toOption = some ⟨1, 1⟩ := by
  have hhalf : Options.Measured (some { duration := some ⟨1, 2⟩ }) := by
    intro o ho d hd
    obtain rfl := Option.mem_some_iff.1 ho
    obtain rfl := Option.mem_some_iff.1 hd
    exact ⟨by decide, show 0 < (2 : Int64).toInt by decide, by decide⟩
  have hnone : Options.Measured none := fun _ h => by cases h
  have hmeasured : refrain.Measured := by
    refine ⟨.group ?_ hnone, fun p hp => ?_⟩
    · simp only [List.forall_mem_cons]
      exact ⟨.insert, .event hnone, .insert, by simp⟩
    · obtain rfl := List.mem_singleton.1 (Array.mem_toList_iff.2 hp)
      refine .group ?_ hnone
      simp only [List.forall_mem_cons]
      exact ⟨.note hhalf, .event hnone, .note hnone, by simp⟩
  have hwraps : refrain.Wraps refrainInChord :=
    @Wraps.passage refrain 0 _ _ rfl (@Node.Wraps.child _ [] _ _ _ _ (.here .chord (by simp)))
  exact ⟨hmeasured, hwraps, hwraps.perform_eq hmeasured, by decide +kernel⟩

end Tree

end DegreeScore
