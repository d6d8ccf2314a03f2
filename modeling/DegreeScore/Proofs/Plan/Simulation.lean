import DegreeScore.Proofs.Plan.Performer

/-!
# Performers that play alike

A `Correspondence` between two performers says which of their states, contexts and times belong
together. The contexts may depend on the states, and what corresponds has to go on corresponding as
the states change (`Extends`): a context that was handed down is used again after a child has been
played. If every step at the leaves keeps a correspondence (`Simulates`), so does the walk of every
sound score, to any depth that exceeds the index of the section played.
-/

namespace DegreeScore

/-- Which states, contexts and times of two performers belong together, and the errors with which
the first may end. -/
structure Correspondence (σ γ τ σ' γ' τ' : Type) where
  state : σ → σ' → Prop
  context : σ → σ' → γ → γ' → Prop
  time : τ → τ' → Prop
  /-- The errors with which the first may end whatever the second does. -/
  error : PlanError → Prop
  /-- The errors with which the first may end where the second ends with the same. -/
  shared : PlanError → Prop := fun _ => False

namespace Correspondence

variable {σ γ τ σ' γ' τ' α β α' β' : Type} (R : Correspondence σ γ τ σ' γ' τ')

/-- The contexts that corresponded at the states `s` and `s'` correspond at `u` and `u'`. -/
def Extends (s : σ) (s' : σ') (u : σ) (u' : σ') : Prop :=
  ∀ c c', R.context s s' c c' → R.context u u' c c'

/-- Where `x` succeeds from the state `s`, so does `y` from `s'`, in corresponding states and with
results for which `post` holds. -/
def Follows (s : σ) (s' : σ') (x : Playing σ α) (y : Playing σ' α')
    (post : σ → σ' → α → α' → Prop) : Prop :=
  match x.run s with
  | .error e => R.error e ∨ R.shared e ∧ y.run s' = .error e
  | .ok (a, u) => ∃ b u', y.run s' = .ok (b, u') ∧
      R.state u u' ∧ R.Extends s s' u u' ∧ post u u' a b

/-- Both ways of playing, started alike, end alike. -/
def Alike (f : γ → τ → Playing σ τ) (g : γ' → τ' → Playing σ' τ') : Prop :=
  ∀ ⦃s s' c c' t t'⦄, R.state s s' → R.context s s' c c' → R.time t t' →
    R.Follows s s' (f c t) (g c' t') fun _ _ => R.time

variable {R} {s : σ} {s' : σ'}

theorem follows_pure {a : α} {b : α'} {post : σ → σ' → α → α' → Prop} (hs : R.state s s')
    (hpost : post s s' a b) : R.Follows s s' (pure a) (pure b) post :=
  ⟨b, s', rfl, hs, fun _ _ h => h, hpost⟩

theorem Follows.bind {x : Playing σ α} {y : Playing σ' α'} {f : α → Playing σ β}
    {g : α' → Playing σ' β'} {mid : σ → σ' → α → α' → Prop} {post : σ → σ' → β → β' → Prop}
    (hx : R.Follows s s' x y mid)
    (hf : ∀ u u' a b, R.state u u' → R.Extends s s' u u' → mid u u' a b →
      R.Follows u u' (f a) (g b) post) :
    R.Follows s s' (x >>= f) (y >>= g) post := by
  rw [Follows, StateT.run_bind, StateT.run_bind]
  rw [Follows] at hx
  cases hrun : x.run s with
  | error e =>
    rw [hrun] at hx
    refine hx.imp_right fun ⟨hshared, hy⟩ => ⟨hshared, ?_⟩
    rw [hy]
    rfl
  | ok r =>
    obtain ⟨a, u⟩ := r
    rw [hrun] at hx
    obtain ⟨b, u', hy, hu, hext, hmid⟩ := hx
    have hnext := hf u u' a b hu hext hmid
    rw [Follows] at hnext
    rw [hy]
    show (match (f a).run u with
      | .error e => R.error e ∨ R.shared e ∧ (g b).run u' = .error e
      | .ok (c, w) => ∃ d w', (g b).run u' = .ok (d, w') ∧
          R.state w w' ∧ R.Extends s s' w w' ∧ post w w' c d)
    split at hnext
    · exact hnext
    · obtain ⟨d, w', hd, hw', hext', hpost⟩ := hnext
      exact ⟨d, w', hd, hw', fun x y h => hext' x y (hext x y h), hpost⟩

/-- The second performer may go on to work out its result. -/
theorem Follows.map_right {x : Playing σ α} {y : Playing σ' α'} {f : α' → β'}
    {mid : σ → σ' → α → α' → Prop} {post : σ → σ' → α → β' → Prop} (hx : R.Follows s s' x y mid)
    (hf : ∀ u u' a b, mid u u' a b → post u u' a (f b)) :
    R.Follows s s' x (y >>= fun b => pure (f b)) post := by
  rw [Follows] at hx ⊢
  split
  · next e he =>
    rw [he] at hx
    refine hx.imp_right fun ⟨hshared, hy⟩ => ⟨hshared, ?_⟩
    rw [StateT.run_bind, hy]
    rfl
  · next a u ha =>
    rw [ha] at hx
    obtain ⟨b, u', hy, hu, hext, hmid⟩ := hx
    refine ⟨f b, u', ?_, hu, hext, hf u u' a b hmid⟩
    rw [StateT.run_bind, hy]
    rfl

end Correspondence

/-- The steps of two performers at the leaves of a score keep a correspondence, for labels of at most
`size` bytes. -/
structure Simulates {σ γ τ σ' γ' τ' : Type} (size : Nat) (P : Performer σ γ τ)
    (Q : Performer σ' γ' τ') (R : Correspondence σ γ τ σ' γ' τ') : Prop where
  override : ∀ {s s' c c' o}, R.context s s' c c' → Options.Sound size o →
    R.context s s' (P.override c o) (Q.override c' o)
  label : ∀ {s s' c c' t t'} {l : Bytes}, R.state s s' → R.context s s' c c' → R.time t t' →
    l.length ≤ size → R.Follows s s' (P.label c l t) (Q.label c' l t') R.context
  note : ∀ degree accidental, R.Alike (P.note degree accidental) (Q.note degree accidental)
  rest : R.Alike P.rest Q.rest
  contextFor : ∀ {s s' c c'} (i : Nat), R.state s s' → R.context s s' c c' →
    R.Follows s s' (P.contextFor i c) (Q.contextFor i c') R.context
  latest : ∀ {t t' u u'}, R.time t t' → R.time u u' → R.time (P.latest t u) (Q.latest t' u')

namespace Simulates

variable {σ γ τ σ' γ' τ' : Type} {size : Nat} {P : Performer σ γ τ} {Q : Performer σ' γ' τ'}
  {R : Correspondence σ γ τ σ' γ' τ'} {s : σ} {s' : σ'} {c : γ} {c' : γ'} {t : τ} {t' : τ'}

theorem labels (H : Simulates size P Q R) {ls : List Bytes} (hs : R.state s s')
    (hc : R.context s s' c c') (ht : R.time t t') (hls : ∀ l ∈ ls, l.length ≤ size) :
    R.Follows s s' (P.labels c t ls) (Q.labels c' t' ls) R.context := by
  induction ls generalizing s s' c c' with
  | nil => exact Correspondence.follows_pure hs hc
  | cons l rest ih =>
    have hl := hls l List.mem_cons_self
    have hrest := fun m hm => hls m (List.mem_cons_of_mem l hm)
    rw [Performer.labels, Performer.labels]
    split
    · exact ih hs hc hrest
    · exact (H.label hs hc ht hl).bind fun u u' d d' hu _ hd => ih hu hd hrest

theorem enter (H : Simulates size P Q R) {o : Option Options} (hs : R.state s s')
    (hc : R.context s s' c c') (ht : R.time t t') (ho : ∀ x ∈ o, x.Sound size) :
    R.Follows s s' (P.enter c o t) (Q.enter c' o t') R.context := by
  cases o with
  | none => exact Correspondence.follows_pure hs hc
  | some o => exact H.labels hs (H.override hc (ho o rfl)) ht (ho o rfl).labels

theorem event (H : Simulates size P Q R) {l : Bytes} {o : Option Options} (hs : R.state s s')
    (hc : R.context s s' c c') (ht : R.time t t') (ho : ∀ x ∈ o, x.Sound size)
    (hl : l.length ≤ size) :
    R.Follows s s' (P.event l o c t) (Q.event l o c' t') R.context :=
  (H.enter hs hc ht ho).bind fun _ _ _ _ hu _ hd => H.label hu hd ht hl

section

variable {sections : Nat} {insert : Int → γ → τ → Playing σ τ}
  {insert' : Int → γ' → τ' → Playing σ' τ'} {children : List Node}

theorem sequence (H : Simulates size P Q R)
    (hnodes : ∀ n ∈ children, n.Sound sections size ∧
      R.Alike (P.node insert n) (Q.node insert' n)) :
    R.Alike (P.sequence insert children) (Q.sequence insert' children) := by
  intro s s' c c' t t' hs hc ht
  induction children generalizing s s' c c' t t' with
  | nil =>
    rw [Performer.sequence, Performer.sequence]
    exact Correspondence.follows_pure hs ht
  | cons n rest ih =>
    obtain ⟨hn, halike⟩ := hnodes n List.mem_cons_self
    have hrest := fun m hm => hnodes m (List.mem_cons_of_mem n hm)
    by_cases hevent : ∃ l o, n = .event l o
    · obtain ⟨l, o, rfl⟩ := hevent
      cases hn with
      | event hl =>
        rw [Performer.sequence, Performer.sequence]
        exact (H.event hs hc ht (by simp) hl).bind fun u u' d d' hu _ hd => ih hrest hu hd ht
    · have hne : ∀ l o, n ≠ .event l o := fun l o h => hevent ⟨l, o, h⟩
      rw [Performer.sequence_cons P hne, Performer.sequence_cons Q hne]
      exact (halike hs hc ht).bind fun u u' stop stop' hu hext hstop =>
        ih hrest hu (hext c c' hc) hstop

theorem chord (H : Simulates size P Q R)
    (hnodes : ∀ n ∈ children, n.Sound sections size ∧ R.Alike (P.node insert n) (Q.node insert' n))
    {stop : τ} {stop' : τ'} (hs : R.state s s') (hc : R.context s s' c c') (ht : R.time t t')
    (hstop : R.time stop stop') :
    R.Follows s s' (P.chord insert children c t stop) (Q.chord insert' children c' t' stop')
      fun _ _ => R.time := by
  induction children generalizing s s' c c' stop stop' with
  | nil =>
    rw [Performer.chord, Performer.chord]
    exact Correspondence.follows_pure hs hstop
  | cons n rest ih =>
    obtain ⟨hn, halike⟩ := hnodes n List.mem_cons_self
    have hrest := fun m hm => hnodes m (List.mem_cons_of_mem n hm)
    by_cases hevent : ∃ l o, n = .event l o
    · obtain ⟨l, o, rfl⟩ := hevent
      cases hn with
      | event hl =>
        rw [Performer.chord, Performer.chord]
        exact (H.event hs hc ht (by simp) hl).bind fun u u' d d' hu _ hd => ih hrest hu hd hstop
    · have hne : ∀ l o, n ≠ .event l o := fun l o h => hevent ⟨l, o, h⟩
      rw [Performer.chord_cons P hne, Performer.chord_cons Q hne]
      exact (halike hs hc ht).bind fun u u' child child' hu hext hchild =>
        ih hrest hu (hext c c' hc) (H.latest hstop hchild)

/-- One case per kind of node; the inserts of a sound node point below `sections`. -/
theorem node (H : Simulates size P Q R) {n : Node}
    (hinsert : ∀ i < sections, R.Alike (insert (i : Nat)) (insert' (i : Nat)))
    (hn : n.Sound sections size) : R.Alike (P.node insert n) (Q.node insert' n) := by
  induction hn with
  | note hdegree haccidental ho =>
    intro s s' c c' t t' hs hc ht
    rw [Performer.node, Performer.node]
    exact (H.enter hs hc ht ho).bind fun u u' d d' hu _ hd => H.note _ _ hu hd ht
  | rest ho =>
    intro s s' c c' t t' hs hc ht
    rw [Performer.node, Performer.node]
    exact (H.enter hs hc ht ho).bind fun u u' d d' hu _ hd => H.rest hu hd ht
  | @group g children o hchildren ho ih =>
    have hnodes := fun n hn => And.intro (hchildren n hn) (ih n hn)
    intro s s' c c' t t' hs hc ht
    cases g with
    | sequence =>
      rw [Performer.node, Performer.node]
      exact (H.enter hs hc ht ho).bind fun u u' d d' hu _ hd => H.sequence hnodes hu hd ht
    | chord =>
      rw [Performer.node, Performer.node]
      exact (H.enter hs hc ht ho).bind fun u u' d d' hu _ hd => H.chord hnodes hu hd ht ht
  | insert hi =>
    intro s s' c c' t t' hs hc ht
    rw [Performer.node, Performer.node]
    exact hinsert _ hi hs hc ht
  | event hl =>
    intro s s' c c' t t' hs hc ht
    rw [Performer.node, Performer.node]
    exact (H.event hs hc ht (by simp) hl).bind fun u u' d d' hu _ hd =>
      Correspondence.follows_pure hu ht
  | error =>
    intro s s' c c' t t' hs hc ht
    rw [Performer.node, Performer.node]
    exact Correspondence.follows_pure hs ht

end

/-- A section plays earlier ones only, so a depth above its index is enough. -/
theorem play (H : Simulates size P Q R) {sections : Array Section}
    (hsections : SoundSections size sections) {depth i : Nat} (hi : i < sections.size)
    (hdepth : i < depth) : R.Alike (P.play sections depth i) (Q.play sections depth i) := by
  induction depth generalizing i with
  | zero => exact absurd hdepth (Nat.not_lt_zero i)
  | succ depth ih =>
    intro s s' c c' t t' hs hc ht
    have hsection : Player.section? sections i = some sections[i] := by
      rw [Player.section?, if_neg (by omega), Int.toNat_natCast, Array.getElem?_eq_getElem hi]
    have hnode := hsections i sections[i] (Array.getElem?_eq_getElem hi)
    simp only [Performer.play, hsection]
    refine (H.contextFor _ hs hc).bind fun u u' d d' hu _ hd => ?_
    exact H.node (fun j hj => ih (by omega) (by omega)) hnode hu hd ht

end Simulates

end DegreeScore
