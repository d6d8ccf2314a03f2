import DegreeScore.Proofs.Plan.Replay
import DegreeScore.Proofs.Score.Language

/-!
# Sections are first played where they are declared

`Rendition` plays what is written, phrase by phrase: a declaration plays its body where it stands, for
the first time, and a reference plays the section of its mark in the context of the declaration. A
score that is read without a diagnostic is performed this way (`Derives.rendered`), because marks are
in scope only after their declaration is complete.
-/

namespace DegreeScore

/-- Where a mark has been declared: its section, and the context in force there. -/
structure Site where
  index : Nat
  context : Context

/-- What is played of a manuscript. -/
inductive Scene
  | phrase (p : Phrase)
  | sequence (ps : List Phrase)
  | chord (ps : List Phrase) (stop : Ratio)

/-- `Rendition sections scene marks c t g stop g' marks'`: what is written is played in the context `c`
from the time `t` to `stop`, while the stage and the visits go from `g` to `g'` and the marks in scope
from `marks` to `marks'`. -/
inductive Rendition (sections : Array Section) :
    Scene → List (Bytes × Site) → Context → Ratio → Recorded → Ratio → Recorded →
      List (Bytes × Site) → Prop
  /-- A phrase that neither declares nor refers to anything. -/
  | plain {p n marks c t stop s u visits} (hp : ∀ o, p.denote o = some (n, o))
      (hwalk : Walk sections 0 (.node n) c t s [] stop u) :
      Rendition sections (.phrase p) marks c t ⟨s, visits⟩ stop ⟨u, visits⟩ marks
  /-- The section of the mark, in the context of its declaration and not in `c`. -/
  | reference {mark site passage marks c t stop s u vs visits}
      (hmark : marks.lookup mark = some site) (hsection : sections[site.index]? = some passage)
      (hwalk : Walk sections site.index (.node passage.node) site.context t s vs stop u) :
      Rendition sections (.phrase (.reference mark)) marks c t ⟨s, visits⟩ stop
        ⟨u, visits ++ (vs ++ [⟨site.index, c, t, stop, u.events.toList.drop s.events.size⟩])⟩ marks
  /-- The section of what stands after the mark. No visit before this one is of the same section. -/
  | declaration {mark body n marks marks' c t stop s u visits visits'} {k : Nat} {o o' : Outline}
      (hn : body.denote o = some (n, o')) (hsection : sections[k]? = some ⟨mark, n⟩)
      (hbody : Rendition sections (.phrase body) marks c t
        ⟨{ s with bound := s.bound.setIfInBounds k (some c) }, visits⟩ stop ⟨u, visits'⟩ marks')
      (hfirst : ∀ v ∈ visits', v.index ≠ k) :
      Rendition sections (.phrase (.declaration mark body)) marks c t ⟨s, visits⟩ stop
        ⟨u, visits' ++ [⟨k, c, t, stop, u.events.toList.drop s.events.size⟩]⟩
        ((mark, ⟨k, c⟩) :: marks')
  | sequence {ps o marks marks' c d t stop s u visits g}
      (henter : (Player.enter c o t).run s = .ok (d, u))
      (hchildren : Rendition sections (.sequence ps) marks d t ⟨u, visits⟩ stop g marks') :
      Rendition sections (.phrase (.group .sequence ps o)) marks c t ⟨s, visits⟩ stop g marks
  | chord {ps o marks marks' c d t stop s u visits g}
      (henter : (Player.enter c o t).run s = .ok (d, u))
      (hchildren : Rendition sections (.chord ps t) marks d t ⟨u, visits⟩ stop g marks') :
      Rendition sections (.phrase (.group .chord ps o)) marks c t ⟨s, visits⟩ stop g marks
  | sequenceNil {marks c t g} : Rendition sections (.sequence []) marks c t g t g marks
  | sequenceLabel {l ps marks marks' c d t stop s u visits g}
      (hlabel : (Player.label c l t).run s = .ok (d, u))
      (hrest : Rendition sections (.sequence ps) marks d t ⟨u, visits⟩ stop g marks') :
      Rendition sections (.sequence (.label l :: ps)) marks c t ⟨s, visits⟩ stop g marks'
  | sequenceCons {p ps marks marks' marks'' c t mid stop g g' g''} (hp : ∀ l, p ≠ .label l)
      (hphrase : Rendition sections (.phrase p) marks c t g mid g' marks')
      (hrest : Rendition sections (.sequence ps) marks' c mid g' stop g'' marks'') :
      Rendition sections (.sequence (p :: ps)) marks c t g stop g'' marks''
  | chordNil {marks c t stop g} : Rendition sections (.chord [] stop) marks c t g stop g marks
  | chordLabel {l ps marks marks' c d t before stop s u visits g}
      (hlabel : (Player.label c l t).run s = .ok (d, u))
      (hrest : Rendition sections (.chord ps before) marks d t ⟨u, visits⟩ stop g marks') :
      Rendition sections (.chord (.label l :: ps) before) marks c t ⟨s, visits⟩ stop g marks'
  | chordCons {p ps marks marks' marks'' c t before child stop g g' g''} (hp : ∀ l, p ≠ .label l)
      (hphrase : Rendition sections (.phrase p) marks c t g child g' marks')
      (hrest : Rendition sections (.chord ps (before.max child)) marks' c t g' stop g'' marks'') :
      Rendition sections (.chord (p :: ps) before) marks c t g stop g'' marks''

namespace Manuscript

/-- A lone phrase is played as it is; otherwise all are played in turn. -/
def scene (m : Manuscript) : Scene :=
  match m.phrases with
  | [p] => .phrase p
  | ps => .sequence ps

/-- The manuscript is played from beginning to end, with this performance and these visits. -/
def Rendered (m : Manuscript) (sections : Array Section) (p : Performance) (visits : List Visit) :
    Prop :=
  ∃ stop u marks, Rendition sections m.scene [] .initial .zero ⟨.empty sections.size, []⟩ stop
    ⟨u, visits⟩ marks ∧ p = Stage.performance (stop, u)

end Manuscript

-- ════════════════════════════════════════════════════════════════════════
-- Which contexts are remembered
-- ════════════════════════════════════════════════════════════════════════

theorem Player.bound_contextFor {i j : Nat} {c d : Context} {s u : Stage} (hij : i ≠ j)
    (h : (contextFor i c).run s = .ok (d, u)) : u.bound[j]? = s.bound[j]? := by
  rcases contextFor_eq_ok h with ⟨-, rfl⟩ | ⟨-, -, rfl⟩
  · rfl
  · exact Array.getElem?_setIfInBounds_ne hij

/-- A walk remembers contexts only of sections to which its inserts lead. -/
theorem Walk.bound {sections : Array Section} {m : Nat} {task : Task} {c : Context} {t stop : Ratio}
    {s u : Stage} {vs : List Visit} (h : Walk sections m task c t s vs stop u) {k : Nat}
    (hk : m ≤ k) : u.bound[k]? = s.bound[k]? := by
  induction h with
  | note _ henter hnote => rw [(Player.keeps_note hnote).2, (Player.keeps_enter henter).2]
  | rest _ henter hrest => rw [(Player.later_eq_ok hrest).2, (Player.keeps_enter henter).2]
  | sequence _ henter _ ih | chord _ henter _ ih => rw [ih hk, (Player.keeps_enter henter).2]
  | insert hi _ hcontext _ ih =>
    have hlt := Nat.lt_of_lt_of_le hi hk
    rw [ih hlt.le, Player.bound_contextFor hlt.ne hcontext]
  | event hlabel => rw [(Player.keeps_label hlabel).2]
  | error | sequenceNil | chordNil => rfl
  | sequenceLabel hlabel _ ih | chordLabel hlabel _ ih => rw [ih hk, (Player.keeps_label hlabel).2]
  | sequenceCons _ _ _ ihnode ihrest | chordCons _ _ _ ihnode ihrest => rw [ihrest hk, ihnode hk]

-- ════════════════════════════════════════════════════════════════════════
-- What has been declared
-- ════════════════════════════════════════════════════════════════════════

/-- Sections are only added. -/
def Form.Grows : Form → Prop
  | .phrase p => ∀ ⦃o o' n⦄, p.denote o = some (n, o') → o.sections.toList <+: o'.sections.toList
  | .phrases ps => ∀ ⦃o o' ns⦄, Phrase.denoteAll ps o = some (ns, o') →
      o.sections.toList <+: o'.sections.toList

theorem Derives.grows {f : Form} {ts : List Token} (h : Derives f ts) : f.Grows := by
  induction h with
  | reference =>
    intro o o' n hn
    obtain ⟨i, -, -, rfl⟩ := Phrase.denote_reference_eq_some_iff.1 hn
    exact List.prefix_refl _
  | declaration _ _ _ ih =>
    intro o o' n hn
    obtain ⟨body, inner, hbody, -, rfl⟩ := Phrase.denote_declaration_eq_some_iff.1 hn
    rw [Outline.declare, Array.toList_push]
    exact (ih hbody).trans (List.prefix_append ..)
  | label | note | rest =>
    intro o o' n hn
    obtain ⟨-, rfl⟩ := Prod.mk.inj (Option.some.inj hn)
    exact List.prefix_refl _
  | group _ _ _ _ ih =>
    intro o o' n hn
    obtain ⟨ns, inner, hchildren, -, rfl⟩ := Phrase.denote_group_eq_some_iff.1 hn
    show o.sections.toList <+: inner.sections.toList
    exact ih hchildren
  | nil =>
    intro o o' ns hns
    obtain ⟨-, rfl⟩ := Prod.mk.inj (Option.some.inj hns)
    exact List.prefix_refl _
  | cons _ _ ihp ihps =>
    intro o o' ns hns
    obtain ⟨n, rest, inner, hn, hrest, -⟩ := Phrase.denoteAll_cons_eq_some_iff.1 hns
    exact (ihp hn).trans (ihps hrest)

/-- The marks in scope and where they have been declared, once the sections of the outline `o` have
been played. -/
structure Outline.Settled (o : Outline) (marks : List (Bytes × Site)) (s : Stage)
    (visits : List Visit) : Prop where
  names : o.marks = marks.map fun e => (e.1, e.2.index)
  index_lt : ∀ e ∈ marks, e.2.index < o.sections.size
  bound : ∀ e ∈ marks, s.bound[e.2.index]? = some (some e.2.context)
  visits_lt : ∀ v ∈ visits, v.index < o.sections.size

theorem Outline.Settled.mono {o : Outline} {marks : List (Bytes × Site)} {s u : Stage}
    {visits : List Visit} (h : o.Settled marks s visits) (hsu : s.Precedes u) :
    o.Settled marks u visits :=
  ⟨h.names, h.index_lt, fun e he => hsu.bound _ _ (h.bound e he), h.visits_lt⟩

/-- A declaration that has been played is settled. -/
theorem Outline.Settled.declare {o : Outline} {marks : List (Bytes × Site)} {s : Stage}
    {visits : List Visit} {v : Visit} {c : Context} (h : o.Settled marks s visits)
    (hbound : s.bound[o.sections.size]? = some (some c)) (hv : v.index = o.sections.size)
    (mark : Bytes) (n : Node) :
    (o.declare mark n).Settled ((mark, ⟨o.sections.size, c⟩) :: marks) s (visits ++ [v]) := by
  have hsize : (o.declare mark n).sections.size = o.sections.size + 1 := Array.size_push ..
  refine ⟨?_, ?_, List.forall_mem_cons.2 ⟨hbound, h.bound⟩, ?_⟩
  · rw [Outline.declare, h.names]
    rfl
  · rw [hsize]
    refine List.forall_mem_cons.2 ⟨Nat.lt_succ_self _, fun e he => ?_⟩
    exact (h.index_lt e he).trans (Nat.lt_succ_self _)
  · rw [hsize]
    refine List.forall_mem_append.2 ⟨fun v hv => ?_, by simp [hv]⟩
    exact (h.visits_lt v hv).trans (Nat.lt_succ_self _)

/-- None of the sections from one index up to another has been played. -/
def Stage.Unplayed (s : Stage) (first last : Nat) : Prop :=
  ∀ k, first ≤ k → k < last → s.bound[k]? = some none

/-- What is written is rendered whenever what it stands for is walked, the sections that it declares
not having been played before. -/
def Renders (sections : Array Section) (scene : Scene) (task : Task) (o o' : Outline) : Prop :=
  ∀ ⦃m c t s vs stop u marks visits⦄, Walk sections m task c t s vs stop u →
    o.Settled marks s visits → s.Unplayed o.sections.size o'.sections.size →
    ∃ marks', Rendition sections scene marks c t ⟨s, visits⟩ stop ⟨u, visits ++ vs⟩ marks' ∧
      o'.Settled marks' u (visits ++ vs) ∧
      ∀ k, o'.sections.size ≤ k → u.bound[k]? = s.bound[k]?

theorem lookup_map_index (marks : List (Bytes × Site)) (mark : Bytes) :
    (marks.map fun e => (e.1, e.2.index)).lookup mark = (marks.lookup mark).map (·.index) := by
  induction marks with
  | nil => rfl
  | cons e marks ih =>
    obtain ⟨name, site⟩ := e
    rw [List.map_cons, lookup_cons_eq, lookup_cons_eq, ih]
    split <;> rfl

theorem Phrase.eq_label_of_denote {p : Phrase} {o o' : Outline} {l : Bytes} {x : Option Options}
    (h : p.denote o = some (.event l x, o')) : p = .label l ∧ o' = o := by
  cases p with
  | label l' =>
    cases h
    exact ⟨rfl, rfl⟩
  | reference mark =>
    obtain ⟨i, -, hn, -⟩ := denote_reference_eq_some_iff.1 h
    cases hn
  | declaration mark body =>
    obtain ⟨b, inner, -, hn, -⟩ := denote_declaration_eq_some_iff.1 h
    cases hn
  | group g ps opts =>
    obtain ⟨ns, inner, -, hn, -⟩ := denote_group_eq_some_iff.1 h
    cases hn
  | note | rest => cases h

namespace Renders

variable {sections : Array Section} {o o' inner : Outline} {mark : Bytes} {n : Node}

/-- A phrase without marks. -/
theorem plain {p : Phrase} (hp : ∀ o, p.denote o = some (n, o))
    (hn : ∀ ⦃m c t s vs stop u⦄, Walk sections m (.node n) c t s vs stop u →
      vs = [] ∧ Walk sections 0 (.node n) c t s [] stop u) :
    Renders sections (.phrase p) (.node n) o o := by
  intro m c t s vs stop u marks visits hwalk hsettled _
  obtain ⟨rfl, hplain⟩ := hn hwalk
  rw [List.append_nil]
  exact ⟨marks, .plain hp hplain, hsettled.mono hplain.precedes, fun k _ => hplain.bound k.zero_le⟩

theorem reference {i : Nat} (hi : o.marks.lookup mark = some i) :
    Renders sections (.phrase (.reference mark)) (.node (.insert i)) o o := by
  intro m c t s vs stop u marks visits hwalk hsettled _
  rw [hsettled.names, lookup_map_index] at hi
  obtain ⟨site, hsite, rfl⟩ := Option.map_eq_some_iff.1 hi
  obtain ⟨before, after, rfl, -⟩ := List.lookup_eq_some_iff.1 hsite
  have hmem : (mark, site) ∈ before ++ (mark, site) :: after := by simp
  have hlt := hsettled.index_lt _ hmem
  obtain ⟨passage, d, w, ws, hsection, hcontext, hnode, rfl⟩ := hwalk.exists_of_insert
  rw [Player.run_contextFor, hsettled.bound _ hmem] at hcontext
  obtain ⟨rfl, rfl⟩ := Prod.mk.inj (Except.ok.inj hcontext)
  refine ⟨_, .reference hsite hsection hnode, ?_, fun k hk => hnode.bound (hlt.le.trans hk)⟩
  obtain ⟨hnames, hindex, hbound, hvisits⟩ := hsettled.mono hnode.precedes
  refine ⟨hnames, hindex, hbound, List.forall_mem_append.2 ⟨hvisits, List.forall_mem_append.2 ⟨?_, ?_⟩⟩⟩
  · exact fun v hv => (hnode.index_lt v hv).trans hlt
  · simpa using hlt

/-- The section of a declaration is the next one after those of its body, so nothing can have played
it before. -/
theorem declaration {body : Phrase} (hn : body.denote o = some (n, inner))
    (hbody : Renders sections (.phrase body) (.node n) o inner)
    (hgrows : o.sections.toList <+: inner.sections.toList)
    (hsections : (inner.declare mark n).sections.toList <+: sections.toList) :
    Renders sections (.phrase (.declaration mark body)) (.node (.insert inner.sections.size)) o
      (inner.declare mark n) := by
  intro m c t s vs stop u marks visits hwalk hsettled hunplayed
  have hsize : (inner.declare mark n).sections.size = inner.sections.size + 1 := Array.size_push ..
  have hle : o.sections.size ≤ inner.sections.size := hgrows.length_le
  have hunbound := hunplayed inner.sections.size hle (by omega)
  obtain ⟨passage, d, w, ws, hsection, hcontext, hnode, rfl⟩ := hwalk.exists_of_insert
  obtain rfl : passage = ⟨mark, n⟩ := by
    obtain ⟨rest, hrest⟩ := hsections
    rw [← Array.getElem?_toList, ← hrest, Outline.declare, Array.toList_push] at hsection
    simpa using hsection.symm
  obtain ⟨hprecedes, hbound⟩ := Player.precedes_contextFor hcontext
  have hremembered := hbound (Array.getElem?_eq_some_iff.1 hunbound).1
  rw [Player.run_contextFor, hunbound] at hcontext
  obtain ⟨rfl, rfl⟩ := Prod.mk.inj (Except.ok.inj hcontext)
  obtain ⟨marks', hrendition, hinner, hframe⟩ := hbody hnode (hsettled.mono hprecedes) <| by
    intro k hk hlt
    rw [Array.getElem?_setIfInBounds_ne hlt.ne']
    exact hunplayed k hk (by omega)
  rw [← List.append_assoc]
  refine ⟨_, .declaration hn hsection hrendition fun v hv => (hinner.visits_lt v hv).ne, ?_, ?_⟩
  · exact hinner.declare ((hframe _ le_rfl).trans hremembered) rfl mark n
  · intro k hk
    rw [hframe k (by omega)]
    exact Array.getElem?_setIfInBounds_ne (by omega)

theorem group {ps : List Phrase} {ns : List Node} {g : Grouping} {opts : Option Options}
    (hgrows : o.sections.toList <+: inner.sections.toList)
    (hsequence : Renders sections (.sequence ps) (.sequence ns) o inner)
    (hchord : ∀ stop, Renders sections (.chord ps stop) (.chord ns stop) o inner) :
    Renders sections (.phrase (.group g ps opts)) (.node (.group g ns opts)) o
      ⟨inner.sections, o.marks⟩ := by
  intro m c t s vs stop u marks visits hwalk hsettled hunplayed
  have hprecedes := hwalk.precedes
  have hle : o.sections.size ≤ inner.sections.size := hgrows.length_le
  -- After the group the marks from before it count.
  have hrestored : ∀ {marks'}, inner.Settled marks' u (visits ++ vs) →
      Outline.Settled ⟨inner.sections, o.marks⟩ marks u (visits ++ vs) := by
    intro marks' hinner
    exact ⟨hsettled.names, fun e he => (hsettled.index_lt e he).trans_le hle,
      (hsettled.mono hprecedes).bound, hinner.visits_lt⟩
  cases hwalk with
  | sequence _ henter hchildren =>
    obtain ⟨hentered, hbound⟩ := Player.keeps_enter henter
    obtain ⟨marks', hrendition, hinner, hframe⟩ := hsequence hchildren (hsettled.mono hentered)
      (by rwa [Stage.Unplayed, hbound])
    rw [hbound] at hframe
    exact ⟨marks, .sequence henter hrendition, hrestored hinner, hframe⟩
  | chord _ henter hchildren =>
    obtain ⟨hentered, hbound⟩ := Player.keeps_enter henter
    obtain ⟨marks', hrendition, hinner, hframe⟩ := hchord _ hchildren (hsettled.mono hentered)
      (by rwa [Stage.Unplayed, hbound])
    rw [hbound] at hframe
    exact ⟨marks, .chord henter hrendition, hrestored hinner, hframe⟩

/-- A phrase before others leaves their sections unplayed. -/
theorem first {p : Phrase} (hp : Renders sections (.phrase p) (.node n) o inner)
    (hgrows : o.sections.toList <+: inner.sections.toList)
    (hgrows' : inner.sections.toList <+: o'.sections.toList) {m : Nat} {c : Context} {t stop : Ratio}
    {s u : Stage} {vs visits : List Visit} {marks : List (Bytes × Site)}
    (hwalk : Walk sections m (.node n) c t s vs stop u) (hsettled : o.Settled marks s visits)
    (hunplayed : s.Unplayed o.sections.size o'.sections.size) :
    ∃ mid, Rendition sections (.phrase p) marks c t ⟨s, visits⟩ stop ⟨u, visits ++ vs⟩ mid ∧
      inner.Settled mid u (visits ++ vs) ∧ u.Unplayed inner.sections.size o'.sections.size ∧
      ∀ k, o'.sections.size ≤ k → u.bound[k]? = s.bound[k]? := by
  have hle : o.sections.size ≤ inner.sections.size := hgrows.length_le
  have hle' : inner.sections.size ≤ o'.sections.size := hgrows'.length_le
  obtain ⟨mid, hrendition, hinner, hframe⟩ := hp hwalk hsettled fun k hk hlt =>
    hunplayed k hk (hlt.trans_le hle')
  refine ⟨mid, hrendition, hinner, fun k hk hlt => ?_, fun k hk => hframe k (hle'.trans hk)⟩
  rw [hframe k hk]
  exact hunplayed k (hle.trans hk) hlt

theorem sequenceCons {p : Phrase} {ps : List Phrase} {ns : List Node}
    (hn : p.denote o = some (n, inner)) (hp : Renders sections (.phrase p) (.node n) o inner)
    (hps : Renders sections (.sequence ps) (.sequence ns) inner o')
    (hgrows : o.sections.toList <+: inner.sections.toList)
    (hgrows' : inner.sections.toList <+: o'.sections.toList) :
    Renders sections (.sequence (p :: ps)) (.sequence (n :: ns)) o o' := by
  intro m c t s vs stop u marks visits hwalk hsettled hunplayed
  cases hwalk with
  | sequenceLabel hlabel hrest =>
    obtain ⟨rfl, rfl⟩ := Phrase.eq_label_of_denote hn
    obtain ⟨hlabelled, hbound⟩ := Player.keeps_label hlabel
    obtain ⟨marks', hrendition, hafter, hframe⟩ := hps hrest (hsettled.mono hlabelled)
      (by rwa [Stage.Unplayed, hbound])
    rw [hbound] at hframe
    exact ⟨marks', .sequenceLabel hlabel hrendition, hafter, hframe⟩
  | sequenceCons hne hnode hrest =>
    have hp' : ∀ l, p ≠ .label l := by
      rintro l rfl
      exact hne l none (congrArg Prod.fst (Option.some.inj hn)).symm
    obtain ⟨mid, hrendition, hinner, hunplayed', hframe⟩ :=
      hp.first hgrows hgrows' hnode hsettled hunplayed
    obtain ⟨marks', hrest', hafter, hframe'⟩ := hps hrest hinner hunplayed'
    rw [List.append_assoc] at hrest' hafter
    exact ⟨marks', .sequenceCons hp' hrendition hrest', hafter,
      fun k hk => (hframe' k hk).trans (hframe k hk)⟩

theorem chordCons {p : Phrase} {ps : List Phrase} {ns : List Node} {before : Ratio}
    (hn : p.denote o = some (n, inner)) (hp : Renders sections (.phrase p) (.node n) o inner)
    (hps : ∀ stop, Renders sections (.chord ps stop) (.chord ns stop) inner o')
    (hgrows : o.sections.toList <+: inner.sections.toList)
    (hgrows' : inner.sections.toList <+: o'.sections.toList) :
    Renders sections (.chord (p :: ps) before) (.chord (n :: ns) before) o o' := by
  intro m c t s vs stop u marks visits hwalk hsettled hunplayed
  cases hwalk with
  | chordLabel hlabel hrest =>
    obtain ⟨rfl, rfl⟩ := Phrase.eq_label_of_denote hn
    obtain ⟨hlabelled, hbound⟩ := Player.keeps_label hlabel
    obtain ⟨marks', hrendition, hafter, hframe⟩ := hps _ hrest (hsettled.mono hlabelled)
      (by rwa [Stage.Unplayed, hbound])
    rw [hbound] at hframe
    exact ⟨marks', .chordLabel hlabel hrendition, hafter, hframe⟩
  | chordCons hne hnode hrest =>
    have hp' : ∀ l, p ≠ .label l := by
      rintro l rfl
      exact hne l none (congrArg Prod.fst (Option.some.inj hn)).symm
    obtain ⟨mid, hrendition, hinner, hunplayed', hframe⟩ :=
      hp.first hgrows hgrows' hnode hsettled hunplayed
    obtain ⟨marks', hrest', hafter, hframe'⟩ := hps _ hrest hinner hunplayed'
    rw [List.append_assoc] at hrest' hafter
    exact ⟨marks', .chordCons hp' hrendition hrest', hafter,
      fun k hk => (hframe' k hk).trans (hframe k hk)⟩

end Renders

/-- Whatever is derived is rendered, if its sections are among those of the score. -/
def Form.Rendered (sections : Array Section) : Form → Prop
  | .phrase p => ∀ ⦃o o' n⦄, p.denote o = some (n, o') →
      o'.sections.toList <+: sections.toList → Renders sections (.phrase p) (.node n) o o'
  | .phrases ps => ∀ ⦃o o' ns⦄, Phrase.denoteAll ps o = some (ns, o') →
      o'.sections.toList <+: sections.toList →
      Renders sections (.sequence ps) (.sequence ns) o o' ∧
        ∀ stop, Renders sections (.chord ps stop) (.chord ns stop) o o'

theorem Derives.rendered {sections : Array Section} {f : Form} {ts : List Token}
    (h : Derives f ts) : f.Rendered sections := by
  induction h with
  | reference =>
    intro o o' n hn _
    obtain ⟨i, hi, rfl, rfl⟩ := Phrase.denote_reference_eq_some_iff.1 hn
    exact .reference hi
  | declaration _ _ hbody ih =>
    intro o o' n hn hsections
    obtain ⟨body, inner, hdenote, rfl, rfl⟩ := Phrase.denote_declaration_eq_some_iff.1 hn
    have hinner : inner.sections.toList <+: sections.toList := by
      rw [Outline.declare, Array.toList_push] at hsections
      exact (List.prefix_append ..).trans hsections
    exact .declaration hdenote (ih hdenote hinner) (hbody.grows hdenote) hsections
  | label =>
    intro o o' n hn _
    obtain ⟨rfl, rfl⟩ := Prod.mk.inj (Option.some.inj hn)
    refine .plain (fun _ => rfl) fun m c t s vs stop u hwalk => ?_
    cases hwalk with
    | event hlabel => exact ⟨rfl, .event hlabel⟩
  | note =>
    intro o o' n hn _
    obtain ⟨rfl, rfl⟩ := Prod.mk.inj (Option.some.inj hn)
    refine .plain (fun _ => rfl) fun m c t s vs stop u hwalk => ?_
    cases hwalk with
    | note ho henter hnote => exact ⟨rfl, .note ho henter hnote⟩
  | rest =>
    intro o o' n hn _
    obtain ⟨rfl, rfl⟩ := Prod.mk.inj (Option.some.inj hn)
    refine .plain (fun _ => rfl) fun m c t s vs stop u hwalk => ?_
    cases hwalk with
    | rest ho henter hrest => exact ⟨rfl, .rest ho henter hrest⟩
  | group _ _ hchildren _ ih =>
    intro o o' n hn hsections
    obtain ⟨ns, inner, hdenote, rfl, rfl⟩ := Phrase.denote_group_eq_some_iff.1 hn
    obtain ⟨hsequence, hchord⟩ := ih hdenote hsections
    exact .group (hchildren.grows hdenote) hsequence hchord
  | nil =>
    intro o o' ns hns _
    obtain ⟨rfl, rfl⟩ := Prod.mk.inj (Option.some.inj hns)
    refine ⟨fun m c t s vs stop u marks visits hwalk hsettled _ => ?_,
      fun before m c t s vs stop u marks visits hwalk hsettled _ => ?_⟩
    · cases hwalk
      rw [List.append_nil]
      exact ⟨marks, .sequenceNil, hsettled, fun _ _ => rfl⟩
    · cases hwalk
      rw [List.append_nil]
      exact ⟨marks, .chordNil, hsettled, fun _ _ => rfl⟩
  | cons hp hps ihp ihps =>
    intro o o' ns hns hsections
    obtain ⟨n, rest, inner, hn, hrest, rfl⟩ := Phrase.denoteAll_cons_eq_some_iff.1 hns
    have hgrows := hp.grows hn
    have hgrows' := hps.grows hrest
    obtain ⟨hsequence, hchord⟩ := ihps hrest hsections
    have hphrase := ihp hn (hgrows'.trans hsections)
    exact ⟨.sequenceCons hn hphrase hsequence hgrows hgrows',
      fun _ => .chordCons hn hphrase hchord hgrows hgrows'⟩

-- ════════════════════════════════════════════════════════════════════════
-- Scores
-- ════════════════════════════════════════════════════════════════════════

theorem Manuscript.Written.derives {m : Manuscript} {tokens : List Token} (h : m.Written tokens) :
    ∃ ts, Derives (.phrases m.phrases) ts := by
  cases h with
  | plain hps | withMetadata hps => exact ⟨_, hps⟩

theorem Stage.unplayed_empty (sections : Nat) : (Stage.empty sections).Unplayed 0 sections := by
  intro k _ hk
  exact (Array.getElem?_replicate ..).trans (if_pos hk)

/-- A manuscript is rendered by the walk of its tree. -/
theorem Manuscript.Written.rendered {m : Manuscript} {tokens : List Token} {tree : Tree}
    (hm : m.Written tokens) (htree : m.tree? = some tree) {vs : List Visit} {stop : Ratio} {u : Stage}
    (hwalk : Walk tree.sections tree.sections.size (.node tree.main) .initial .zero
      (.empty tree.sections.size) vs stop u) :
    m.Rendered tree.sections (Stage.performance (stop, u)) vs := by
  obtain ⟨ts, hderives⟩ := hm.derives
  obtain ⟨⟨ns, o⟩, hns, rfl⟩ := Option.map_eq_some_iff.1 htree
  have hsettled : Outline.Settled {} [] (.empty o.sections.size) [] :=
    ⟨rfl, by simp, by simp, by simp⟩
  have hunplayed := Stage.unplayed_empty o.sections.size
  suffices ∃ marks, Rendition o.sections m.scene [] .initial .zero ⟨.empty o.sections.size, []⟩ stop
      ⟨u, [] ++ vs⟩ marks by
    obtain ⟨marks, hrendition⟩ := this
    exact ⟨stop, u, marks, hrendition, rfl⟩
  have hsequence : Walk o.sections o.sections.size (.node (.group .sequence ns none)) .initial .zero
      (.empty o.sections.size) vs stop u →
      ∃ marks, Rendition o.sections (.sequence m.phrases) [] .initial .zero
        ⟨.empty o.sections.size, []⟩ stop ⟨u, [] ++ vs⟩ marks := by
    intro hgroup
    cases hgroup with
    | sequence _ henter hchildren =>
      obtain ⟨rfl, rfl⟩ := Prod.mk.inj (Except.ok.inj henter)
      obtain ⟨marks, hrendition, -⟩ :=
        (hderives.rendered hns (List.prefix_refl _)).1 hchildren hsettled hunplayed
      exact ⟨marks, hrendition⟩
  obtain ⟨phrases, metadata⟩ := m
  match phrases with
  | [p] =>
    cases hderives with
    | cons hp _ =>
      obtain ⟨n, rest, inner, hn, hrest, rfl⟩ := Phrase.denoteAll_cons_eq_some_iff.1 hns
      obtain ⟨rfl, rfl⟩ := Prod.mk.inj (Option.some.inj hrest)
      obtain ⟨marks, hrendition, -⟩ := hp.rendered hn (List.prefix_refl _) hwalk hsettled hunplayed
      exact ⟨marks, hrendition⟩
  | [] =>
    obtain ⟨rfl, rfl⟩ := Prod.mk.inj (Option.some.inj hns)
    exact hsequence hwalk
  | p :: q :: ps =>
    obtain ⟨n, rest, inner, -, hrest, rfl⟩ := Phrase.denoteAll_cons_eq_some_iff.1 hns
    obtain ⟨n', rest', inner', -, -, rfl⟩ := Phrase.denoteAll_cons_eq_some_iff.1 hrest
    exact hsequence hwalk

/-- Replays are faithful. Every visit of a section after the first one repeats it: it brings about the
same events without the program changes, all of them as much later as it starts later, and lasts as
long. If there is no diagnostic, the first visit is the one at the declaration, and every reference
plays the section in the context in force there. -/
theorem Tree.parse_replays {src : Bytes} {p : Performance} (h : (Tree.parse src).1.perform = .ok p) :
    ∃ visits, (Tree.parse src).1.record = .ok (p, visits) ∧
      (∀ k first later, visits.filter (·.index = k) = first :: later →
        ∀ v ∈ later, v.Repeats first) ∧
      ((Tree.parse src).2 = [] → ∃ m : Manuscript, m.Written (Token.scan src) ∧
        m.tree? = some (Tree.parse src).1 ∧ m.Rendered (Tree.parse src).1.sections p visits) := by
  have hsound := (Tree.parse_sound src).1
  obtain ⟨visits, stop, u, hrecord, hwalk, rfl⟩ := hsound.exists_record h
  refine ⟨visits, hrecord, fun k first later hvisits => hwalk.repeats hvisits, ?_⟩
  intro hclean
  obtain ⟨m, hm, htree⟩ := Tree.written_of_parse hclean
  exact ⟨m, hm, htree, hm.rendered htree hwalk⟩

/-- A section with a program and a section inside it, which is played again in another key and
louder. -/
def nestedSections : Bytes := Bytes.ofString "$a = ['program_5' 0 $b = _/8 1] key 3 ['ff' _1 r $a]"

theorem Tree.parse_replays_nestedSections :
    (Tree.parse nestedSections).2 = [] ∧
      ∃ p visits first later, (Tree.parse nestedSections).1.perform = .ok p ∧
        (Tree.parse nestedSections).1.record = .ok (p, visits) ∧
        visits.filter (·.index = 1) = [first, later] ∧ first.context.key = 0 ∧
        later.context.key = 3 ∧ later.Repeats first ∧
        ∃ m : Manuscript, m.Rendered (Tree.parse nestedSections).1.sections p visits := by
  have hclean : (Tree.parse nestedSections).2 = [] := by decide +kernel
  have hok : (Tree.parse nestedSections).1.perform.isOk := by decide +kernel
  have hkeys : (Tree.parse nestedSections).1.record.map
      (fun r => (r.2.filter (·.index = 1)).map (·.context.key)) = .ok [0, 3] := by decide +kernel
  cases hp : (Tree.parse nestedSections).1.perform with
  | error e =>
    rw [hp] at hok
    cases hok
  | ok p =>
    obtain ⟨visits, hrecord, hrepeats, hrendered⟩ := Tree.parse_replays hp
    rw [hrecord] at hkeys
    obtain ⟨first, rest, hfirst, hkey, hrest⟩ := List.map_eq_cons_iff.1 (Except.ok.inj hkeys)
    obtain ⟨later, rest', rfl, hkey', hnil⟩ := List.map_eq_cons_iff.1 hrest
    obtain rfl := List.map_eq_nil_iff.1 hnil
    obtain ⟨m, -, -, hm⟩ := hrendered hclean
    exact ⟨hclean, p, visits, first, later, rfl, hrecord, hfirst, hkey, hkey',
      hrepeats 1 first [later] hfirst later (List.mem_singleton_self later), m, hm⟩

end DegreeScore
