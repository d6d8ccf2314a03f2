import DegreeScore.Plan.Performance
import DegreeScore.Proofs.Score.Sound

/-!
# Performers

How a score is walked does not depend on what is done at its labels, notes and rests. A `Performer`
says what is done there, and `Performer.node` walks a score with it. The performer of this library
is `player`; others keep more or less than it does about the same walk.

Statements about all walks are made by relating two performers. A `Correspondence` says which
states, contexts and times of the two belong together. If the steps at the leaves keep it
(`Simulates`), so does the walk of every sound score (`Simulates.play`).
-/

namespace DegreeScore

/-- A step of playing that keeps a state in `σ`. -/
abbrev Playing (σ : Type) := StateT σ (Except PlanError)

/-- What is done at the leaves of a score, with states in `σ`, contexts in `γ` and times in `τ`. -/
structure Performer (σ γ τ : Type) where
  /-- The context inside options, their program labels and texts apart. -/
  override : γ → Options → γ
  label : γ → Bytes → τ → Playing σ γ
  /-- Plays a degree with its accidental and returns its end. -/
  note : Int64 → Int64 → γ → τ → Playing σ τ
  /-- The end of a rest. -/
  rest : γ → τ → Playing σ τ
  /-- The context in which to play a section. -/
  contextFor : Nat → γ → Playing σ γ
  latest : τ → τ → τ

namespace Performer

variable {σ γ τ : Type} (P : Performer σ γ τ)

/-- Applies the labels that are no dynamics, in order. -/
def labels (c : γ) (t : τ) : List Bytes → Playing σ γ
  | [] => return c
  | l :: rest => do
    let c ← if (dynamic? l).isSome then pure c else P.label c l t
    labels c t rest

/-- The context inside a node with these options. -/
def enter (c : γ) (o : Option Options) (t : τ) : Playing σ γ :=
  match o with
  | none => return c
  | some o => P.labels (P.override c o) t o.labels

/-- The context after a label that stands on its own. -/
def event (l : Bytes) (o : Option Options) (c : γ) (t : τ) : Playing σ γ := do
  P.label (← P.enter c o t) l t

mutual

/-- Plays a node at a time and returns its end. `insert` plays a section. -/
def node (insert : Int → γ → τ → Playing σ τ) : Node → γ → τ → Playing σ τ
  | .note degree accidental o, c, t => do
    let c ← P.enter c o t
    P.note degree accidental c t
  | .rest o, c, t => do
    let c ← P.enter c o t
    P.rest c t
  | .group .sequence children o, c, t => do
    let c ← P.enter c o t
    sequence insert children c t
  | .group .chord children o, c, t => do
    let c ← P.enter c o t
    chord insert children c t t
  | .insert index, c, t => insert index c t
  | .event l o, c, t => do
    let _ ← P.event l o c t
    return t
  | .error .., _, t => return t
  | .hole, _, _ => throw .missingNode

/-- Plays nodes in turn. -/
def sequence (insert : Int → γ → τ → Playing σ τ) : List Node → γ → τ → Playing σ τ
  | [], _, t => return t
  | .event l o :: rest, c, t => do
    let c ← P.event l o c t
    sequence insert rest c t
  | n :: rest, c, t => do
    let t ← node insert n c t
    sequence insert rest c t

/-- Plays nodes together from `start` on. -/
def chord (insert : Int → γ → τ → Playing σ τ) : List Node → γ → τ → τ → Playing σ τ
  | [], _, _, stop => return stop
  | .event l o :: rest, c, start, stop => do
    let c ← P.event l o c start
    chord insert rest c start stop
  | n :: rest, c, start, stop => do
    let childStop ← node insert n c start
    chord insert rest c start (P.latest stop childStop)

end

/-- Plays the section with an index, and from it sections at most `depth` levels deep. -/
def play (sections : Array Section) : Nat → Int → γ → τ → Playing σ τ
  | 0, index, _, _ =>
    match Player.section? sections index with
    | none => throw (.missingSection index)
    | some _ => throw (.circular index)
  | depth + 1, index, c, t => do
    match Player.section? sections index with
    | none => throw (.missingSection index)
    | some s =>
      let c ← P.contextFor index.toNat c
      P.node (play sections depth) s.node c t

theorem sequence_cons {insert : Int → γ → τ → Playing σ τ} {n : Node}
    (hn : ∀ l o, n ≠ .event l o) (rest : List Node) (c : γ) (t : τ) :
    P.sequence insert (n :: rest) c t =
      (P.node insert n c t >>= fun t => P.sequence insert rest c t) := by
  rw [sequence]
  exact hn

theorem chord_cons {insert : Int → γ → τ → Playing σ τ} {n : Node}
    (hn : ∀ l o, n ≠ .event l o) (rest : List Node) (c : γ) (start stop : τ) :
    P.chord insert (n :: rest) c start stop =
      (P.node insert n c start >>= fun childStop =>
        P.chord insert rest c start (P.latest stop childStop)) := by
  rw [chord]
  exact hn

-- ════════════════════════════════════════════════════════════════════════
-- The sections that a node plays
-- ════════════════════════════════════════════════════════════════════════

section

variable {insert insert' : Int → γ → τ → Playing σ τ} {ns : List Node}

theorem sequence_congr (h : ∀ n ∈ ns, P.node insert n = P.node insert' n) :
    P.sequence insert ns = P.sequence insert' ns := by
  induction ns with
  | nil =>
    funext c t
    rw [sequence, sequence]
  | cons n rest ih =>
    have hrest := ih fun m hm => h m (List.mem_cons_of_mem n hm)
    funext c t
    by_cases hevent : ∃ l o, n = .event l o
    · obtain ⟨l, o, rfl⟩ := hevent
      rw [sequence, sequence, hrest]
    · have hne : ∀ l o, n ≠ .event l o := fun l o hn => hevent ⟨l, o, hn⟩
      rw [P.sequence_cons hne, P.sequence_cons hne, hrest, h n List.mem_cons_self]

theorem chord_congr (h : ∀ n ∈ ns, P.node insert n = P.node insert' n) :
    P.chord insert ns = P.chord insert' ns := by
  induction ns with
  | nil =>
    funext c start stop
    rw [chord, chord]
  | cons n rest ih =>
    have hrest := ih fun m hm => h m (List.mem_cons_of_mem n hm)
    funext c start stop
    by_cases hevent : ∃ l o, n = .event l o
    · obtain ⟨l, o, rfl⟩ := hevent
      rw [chord, chord, hrest]
    · have hne : ∀ l o, n ≠ .event l o := fun l o hn => hevent ⟨l, o, hn⟩
      rw [P.chord_cons hne, P.chord_cons hne, hrest, h n List.mem_cons_self]

/-- How sections are played matters only for those that a node inserts. -/
theorem node_congr {sections size : Nat} {n : Node} (hn : n.Sound sections size)
    (h : ∀ i < sections, insert (i : Nat) = insert' (i : Nat)) :
    P.node insert n = P.node insert' n := by
  induction hn with
  | note | rest | event | error =>
    funext c t
    rw [node, node]
  | insert hi =>
    funext c t
    rw [node, node, h _ hi]
  | @group g children o _ _ ih =>
    funext c t
    cases g with
    | sequence => rw [node, node, P.sequence_congr ih]
    | chord => rw [node, node, P.chord_congr ih]

/-- A section plays earlier ones only, so all depths above its index are alike. -/
theorem play_congr {size : Nat} {sections : Array Section} (hsections : SoundSections size sections)
    {i depth depth' : Nat} (hi : i < sections.size) (hd : i < depth) (hd' : i < depth') :
    P.play sections depth i = P.play sections depth' i := by
  induction i using Nat.strong_induction_on generalizing depth depth' with
  | _ i ih =>
    obtain ⟨d, rfl⟩ := Nat.exists_eq_succ_of_ne_zero (Nat.ne_zero_of_lt hd)
    obtain ⟨d', rfl⟩ := Nat.exists_eq_succ_of_ne_zero (Nat.ne_zero_of_lt hd')
    have hsection : Player.section? sections i = some sections[i] := by
      rw [Player.section?, if_neg (by omega), Int.toNat_natCast, Array.getElem?_eq_getElem hi]
    have hnode := hsections i sections[i] (Array.getElem?_eq_getElem hi)
    have hcongr : P.node (P.play sections d) sections[i].node =
        P.node (P.play sections d') sections[i].node :=
      P.node_congr hnode fun j hj => ih j hj (by omega) (by omega) (by omega)
    funext c t
    simp only [play, hsection, hcongr]

end

end Performer

-- ════════════════════════════════════════════════════════════════════════
-- The performer of the library
-- ════════════════════════════════════════════════════════════════════════

/-- What `Player` does at the leaves of a score. -/
def player : Performer Stage Context Ratio where
  override c o := c.override (some o)
  label := Player.label
  note degree accidental c t := Player.note (pitch degree accidental c.key) c t
  rest c t := Player.later t c.duration
  contextFor := Player.contextFor
  latest := Ratio.max

theorem player_labels (c : Context) (t : Ratio) (ls : List Bytes) :
    player.labels c t ls = Player.labels c t ls := by
  induction ls generalizing c with
  | nil => rfl
  | cons l rest ih =>
    rw [Performer.labels, Player.labels]
    simp only [ih]
    rfl

theorem player_enter (c : Context) (o : Option Options) (t : Ratio) :
    player.enter c o t = Player.enter c o t := by
  cases o with
  | none => rfl
  | some o => exact player_labels _ t o.labels

theorem player_event (l : Bytes) (o : Option Options) (c : Context) (t : Ratio) :
    player.event l o c t = Player.event l o c t := by
  rw [Performer.event, Player.event, player_enter]
  rfl

section

variable (insert : Int → Context → Ratio → Player Ratio)

mutual

theorem player_node (n : Node) (c : Context) (t : Ratio) :
    player.node insert n c t = Player.node insert n c t := by
  cases n with
  | note degree accidental o => rw [Performer.node, Player.node, player_enter]; rfl
  | rest o => rw [Performer.node, Player.node, player_enter]; rfl
  | group g children o =>
    cases g with
    | sequence =>
      rw [Performer.node, Player.node, player_enter]
      simp only [player_sequence children]
    | chord =>
      rw [Performer.node, Player.node, player_enter]
      simp only [player_chord children]
  | insert index => rw [Performer.node, Player.node]
  | event l o => rw [Performer.node, Player.node, player_event]
  | error offset message => rw [Performer.node, Player.node]
  | hole => rw [Performer.node, Player.node]

theorem player_sequence (ns : List Node) (c : Context) (t : Ratio) :
    player.sequence insert ns c t = Player.sequence insert ns c t := by
  cases ns with
  | nil => rw [Performer.sequence, Player.sequence]
  | cons n rest =>
    cases n with
    | event l o =>
      rw [Performer.sequence, Player.sequence, player_event]
      simp only [player_sequence rest]
    | _ =>
      rw [Performer.sequence, Player.sequence, player_node]
      · simp only [player_sequence rest]
      · simp
      · simp

theorem player_chord (ns : List Node) (c : Context) (start stop : Ratio) :
    player.chord insert ns c start stop = Player.chord insert ns c start stop := by
  cases ns with
  | nil => rw [Performer.chord, Player.chord]
  | cons n rest =>
    cases n with
    | event l o =>
      rw [Performer.chord, Player.chord, player_event]
      simp only [player_chord rest]
    | _ =>
      rw [Performer.chord, Player.chord, player_node]
      · simp only [player_chord rest]
        rfl
      · simp
      · simp

end

end

theorem player_play (sections : Array Section) (depth : Nat) :
    player.play sections depth = Player.play sections depth := by
  induction depth with
  | zero => rfl
  | succ depth ih =>
    funext index c t
    rw [Performer.play, Player.play, ih]
    simp only [player_node]
    rfl

end DegreeScore
