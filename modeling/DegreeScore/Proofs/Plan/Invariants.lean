import DegreeScore.Proofs.Plan.Walk

/-!
# What every step keeps

`Playing.Keeps I x post` says that the step `x`, where it succeeds, goes from states with `I` to
states with `I` and has a result with `post`. If the steps of a performer at the leaves of a score
keep `I`, and make contexts with `C` from contexts with `C`, so does every walk (`Performer.Invariant`).
No score is excluded: a walk that fails has nothing to keep.

## Main results

- `Performer.Invariant.node`, `Performer.Invariant.play` — walks of nodes and of sections
- `Performer.Invariant.perform_tree` — performances
-/

namespace DegreeScore

-- ════════════════════════════════════════════════════════════════════════
-- Steps
-- ════════════════════════════════════════════════════════════════════════

namespace Playing

variable {σ α β : Type} {I : σ → Prop} {post mid : α → Prop} {x : Playing σ α}

/-- Where `x` succeeds from a state with `I`, it leaves a state with `I` and has a result with
`post`. -/
def Keeps (I : σ → Prop) (x : Playing σ α) (post : α → Prop) : Prop :=
  ∀ ⦃s a u⦄, I s → x.run s = .ok (a, u) → I u ∧ post a

theorem keeps_pure {a : α} (h : post a) : Keeps I (pure a) post := by
  intro s b u hs hrun
  obtain ⟨rfl, rfl⟩ := Prod.mk.inj (Except.ok.inj hrun)
  exact ⟨hs, h⟩

theorem keeps_throw {e : PlanError} : Keeps I (throw e) post := by
  intro s b u _ hrun
  cases hrun

theorem Keeps.bind {f : α → Playing σ β} {post : β → Prop} (hx : Keeps I x mid)
    (hf : ∀ a, mid a → Keeps I (f a) post) : Keeps I (x >>= f) post := by
  intro s b w hs hrun
  obtain ⟨a, u, ha, hrun⟩ := run_bind_eq_ok hrun
  obtain ⟨hu, hmid⟩ := hx hs ha
  exact hf a hmid hu hrun

end Playing

open Playing

-- ════════════════════════════════════════════════════════════════════════
-- Walks
-- ════════════════════════════════════════════════════════════════════════

namespace Performer

variable {σ γ τ : Type} {P : Performer σ γ τ} {I : σ → Prop} {C : γ → Prop}

/-- The steps at the leaves of a score keep `I`, and contexts with `C` lead to contexts with `C`. -/
structure Invariant (P : Performer σ γ τ) (I : σ → Prop) (C : γ → Prop) : Prop where
  override : ∀ {c} o, C c → C (P.override c o)
  label : ∀ {c} l t, C c → Keeps I (P.label c l t) C
  note : ∀ {c} degree accidental t, C c → Keeps I (P.note degree accidental c t) fun _ => True
  rest : ∀ {c} t, C c → Keeps I (P.rest c t) fun _ => True
  contextFor : ∀ {c} i, C c → Keeps I (P.contextFor i c) C

namespace Invariant

variable {c : γ}

theorem labels (H : P.Invariant I C) (t : τ) (ls : List Bytes) (hc : C c) :
    Keeps I (P.labels c t ls) C := by
  induction ls generalizing c with
  | nil => exact keeps_pure hc
  | cons l rest ih =>
    rw [Performer.labels]
    split
    · exact ih hc
    · exact (H.label l t hc).bind fun d hd => ih hd

theorem enter (H : P.Invariant I C) (o : Option Options) (t : τ) (hc : C c) :
    Keeps I (P.enter c o t) C := by
  cases o with
  | none => exact keeps_pure hc
  | some o => exact H.labels t o.labels (H.override o hc)

theorem event (H : P.Invariant I C) (l : Bytes) (o : Option Options) (t : τ) (hc : C c) :
    Keeps I (P.event l o c t) C :=
  (H.enter o t hc).bind fun _ hd => H.label l t hd

section

variable {insert : Int → γ → τ → Playing σ τ}

mutual

theorem node (H : P.Invariant I C)
    (hinsert : ∀ i c t, C c → Keeps I (insert i c t) fun _ => True) (n : Node) {c : γ} (t : τ)
    (hc : C c) : Keeps I (P.node insert n c t) fun _ => True := by
  cases n with
  | note degree accidental o =>
    rw [Performer.node]
    exact (H.enter o t hc).bind fun d hd => H.note degree accidental t hd
  | rest o =>
    rw [Performer.node]
    exact (H.enter o t hc).bind fun d hd => H.rest t hd
  | group g children o =>
    cases g with
    | sequence =>
      rw [Performer.node]
      exact (H.enter o t hc).bind fun d hd => H.sequence hinsert children t hd
    | chord =>
      rw [Performer.node]
      exact (H.enter o t hc).bind fun d hd => H.chord hinsert children t t hd
  | insert index =>
    rw [Performer.node]
    exact hinsert index c t hc
  | event l o =>
    rw [Performer.node]
    exact (H.event l o t hc).bind fun _ _ => keeps_pure trivial
  | error offset message =>
    rw [Performer.node]
    exact keeps_pure trivial
  | hole =>
    rw [Performer.node]
    exact keeps_throw

theorem sequence (H : P.Invariant I C)
    (hinsert : ∀ i c t, C c → Keeps I (insert i c t) fun _ => True) (ns : List Node) {c : γ}
    (t : τ) (hc : C c) : Keeps I (P.sequence insert ns c t) fun _ => True := by
  cases ns with
  | nil =>
    rw [Performer.sequence]
    exact keeps_pure trivial
  | cons n rest =>
    by_cases hevent : ∃ l o, n = .event l o
    · obtain ⟨l, o, rfl⟩ := hevent
      rw [Performer.sequence]
      exact (H.event l o t hc).bind fun d hd => H.sequence hinsert rest t hd
    · rw [P.sequence_cons fun l o hn => hevent ⟨l, o, hn⟩]
      exact (H.node hinsert n t hc).bind fun stop _ => H.sequence hinsert rest stop hc

theorem chord (H : P.Invariant I C)
    (hinsert : ∀ i c t, C c → Keeps I (insert i c t) fun _ => True) (ns : List Node) {c : γ}
    (start stop : τ) (hc : C c) : Keeps I (P.chord insert ns c start stop) fun _ => True := by
  cases ns with
  | nil =>
    rw [Performer.chord]
    exact keeps_pure trivial
  | cons n rest =>
    by_cases hevent : ∃ l o, n = .event l o
    · obtain ⟨l, o, rfl⟩ := hevent
      rw [Performer.chord]
      exact (H.event l o start hc).bind fun d hd => H.chord hinsert rest start stop hd
    · rw [P.chord_cons fun l o hn => hevent ⟨l, o, hn⟩]
      exact (H.node hinsert n start hc).bind fun child _ => H.chord hinsert rest start _ hc

end

end

/-- To any depth: where it is reached, playing fails. -/
theorem play (H : P.Invariant I C) (sections : Array Section) (depth : Nat) (i : Int) (t : τ)
    (hc : C c) : Keeps I (P.play sections depth i c t) fun _ => True := by
  induction depth generalizing i t c with
  | zero =>
    rw [Performer.play]
    split
    · exact keeps_throw
    · exact keeps_throw
  | succ depth ih =>
    rw [Performer.play]
    split
    · exact keeps_throw
    · next s hs =>
      refine (H.contextFor i.toNat hc).bind fun d hd => ?_
      exact H.node (fun j _ u he => ih j u he) s.node t hd

theorem perform (H : P.Invariant I C) {tree : Tree} {depth : Nat} {t stop : τ} {s u : σ}
    (hs : I s) (hc : C c) (h : P.perform tree depth c t s = .ok (stop, u)) : I u :=
  (H.node (fun i _ r hd => H.play tree.sections depth i r hd) tree.main t hc hs h).1

end Invariant

end Performer

/-- A performance ends at a stage with what the player keeps, and lists its events. -/
theorem Performer.Invariant.perform_tree {I : Stage → Prop} {C : Context → Prop}
    (H : player.Invariant I C) {tree : Tree} {p : Performance}
    (hempty : I (.empty tree.sections.size)) (hinitial : C .initial)
    (h : tree.perform = .ok p) : ∃ u : Stage, I u ∧ p.events.Perm u.events.toList := by
  rw [Tree.perform] at h
  split at h
  · obtain rfl := Except.ok.inj h
    exact ⟨_, hempty, .refl _⟩
  · dsimp only at h
    split at h
    · cases h
    · next stop u hrun =>
      obtain rfl := Except.ok.inj h
      rw [← player_node, ← player_play] at hrun
      exact ⟨u, H.perform hempty hinitial hrun, Sorting.sort_perm _ _⟩

end DegreeScore
