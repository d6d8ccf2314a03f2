import DegreeScore.Proofs.Score.Words

/-!
# The grammar of scores

What may be written, by rules on words, and what it stands for.

    manuscript ::= phrase* (',' table)? end
    phrase     ::= mark | mark '=' phrase | text
                 | options? ('[' phrase* ']' | '{' phrase* '}' | number | rest)
    table      ::= '{' (entry (',' entry)* ','?)? '}'
    entry      ::= (text | mark) '=' value
    value      ::= number | text | mark | table | '[' (value (',' value)* ','?)? ']'

`Derives` and `Spells` are the derivations of this grammar. A `Phrase` is what a derivation says; which
node it is depends on what has been declared before it, so `Phrase.denote` takes an `Outline` and may
find a mark that stands for nothing.
-/

namespace DegreeScore

-- ════════════════════════════════════════════════════════════════════════
-- Options
-- ════════════════════════════════════════════════════════════════════════

/-- One of the options before a node. -/
inductive OptionWord
  | key (k : Int64)
  | duration (d : Ratio)
  | label (l : Bytes)

namespace OptionWord

def key? : OptionWord → Option Int64
  | .key k => some k
  | .duration _ | .label _ => none

def duration? : OptionWord → Option Ratio
  | .duration d => some d
  | .key _ | .label _ => none

def label? : OptionWord → Option Bytes
  | .label l => some l
  | .key _ | .duration _ => none

/-- A key is a number from -7 to 7 after the word for it, and a duration has terms of 31 bits. -/
inductive Written : OptionWord → List Token → Prop
  | key {w n : Token} {k : Int64} (hw : w.kind = .key) (hn : n.kind = .integer)
      (htext : WritesInt n.text k.toInt) (hk : -7 ≤ k.toInt ∧ k.toInt ≤ 7) :
      Written (.key k) [w, n]
  | duration {w : Token} {n d : Nat} {r : Ratio} (hw : w.kind = .duration)
      (htext : WritesFraction w.text n d) (hn : 1 ≤ n ∧ n ≤ 2 ^ 31 - 1)
      (hd : 1 ≤ d ∧ d ≤ 2 ^ 31 - 1) (hr : r.IsTime) (hvalue : r.value = n / d) :
      Written (.duration r) [w]
  | label {w : Token} {l : Bytes} (hw : w.kind = .text l) : Written (.label l) [w]

end OptionWord

/-- At most one key and at most one duration, and a text is not the first. -/
structure OptionWord.Run (ws : List OptionWord) : Prop where
  first : ∀ w ∈ ws.head?, w.label? = none
  key : (ws.filterMap key?).length ≤ 1
  duration : (ws.filterMap duration?).length ≤ 1

namespace Options

/-- What a run of options says. -/
def ofWords (ws : List OptionWord) : Options where
  duration := (ws.filterMap OptionWord.duration?).head?
  key := (ws.filterMap OptionWord.key?).head?
  labels := ws.filterMap OptionWord.label?

/-- The options before a node, of which there may be none. -/
inductive Written : Option Options → List Token → Prop
  | none : Written none []
  | some {ws : List OptionWord} {tokens : List (List Token)} (hne : ws ≠ [])
      (hrun : OptionWord.Run ws) (htokens : List.Forall₂ OptionWord.Written ws tokens) :
      Written (some (ofWords ws)) tokens.flatten

end Options

-- ════════════════════════════════════════════════════════════════════════
-- Phrases
-- ════════════════════════════════════════════════════════════════════════

/-- What is written in a score, with marks by their names. -/
inductive Phrase
  | reference (mark : Bytes)
  | declaration (mark : Bytes) (body : Phrase)
  | label (l : Bytes)
  | note (degree accidental : Int64) (options : Option Options)
  | rest (options : Option Options)
  | group (grouping : Grouping) (children : List Phrase) (options : Option Options)

/-- What a derivation is of. -/
inductive Form
  | phrase (p : Phrase)
  | phrases (ps : List Phrase)

/-- The tokens of a phrase, and of phrases one after the other. -/
inductive Derives : Form → List Token → Prop
  | reference {m : Token} (hm : m.kind = .mark) : Derives (.phrase (.reference m.text)) [m]
  | declaration {m e : Token} {p : Phrase} {ts : List Token} (hm : m.kind = .mark)
      (he : e.kind = .equals) (hbody : Derives (.phrase p) ts) :
      Derives (.phrase (.declaration m.text p)) (m :: e :: ts)
  | label {t : Token} {l : Bytes} (ht : t.kind = .text l) : Derives (.phrase (.label l)) [t]
  | note {t : Token} {d a : Int64} {o : Option Options} {os : List Token} (ho : Options.Written o os)
      (ht : t.kind = .integer ∨ t.kind = .note) (htext : WritesDegree t.text d.toInt a.toInt)
      (hd : -100 ≤ d.toInt ∧ d.toInt ≤ 100) : Derives (.phrase (.note d a o)) (os ++ [t])
  | rest {t : Token} {o : Option Options} {os : List Token} (ho : Options.Written o os)
      (ht : t.kind = .rest) : Derives (.phrase (.rest o)) (os ++ [t])
  | group {g : Grouping} {x y : Token} {ps : List Phrase} {o : Option Options} {os ts : List Token}
      (ho : Options.Written o os) (hx : x.kind = .opening g)
      (hchildren : Derives (.phrases ps) ts) (hy : y.kind = .closing g) :
      Derives (.phrase (.group g ps o)) (os ++ x :: (ts ++ [y]))
  | nil : Derives (.phrases []) []
  | cons {p : Phrase} {ps : List Phrase} {ts us : List Token} (hp : Derives (.phrase p) ts)
      (hps : Derives (.phrases ps) us) : Derives (.phrases (p :: ps)) (ts ++ us)

/-- What has been declared: the sections so far, and the marks in scope with the sections they stand
for, of which the first one of a name counts. -/
structure Outline where
  sections : Array Section := #[]
  marks : List (Bytes × Nat) := []

/-- Declares a node under a mark. -/
def Outline.declare (o : Outline) (mark : Bytes) (n : Node) : Outline :=
  ⟨o.sections.push ⟨mark, n⟩, (mark, o.sections.size) :: o.marks⟩

mutual

/-- The node that a phrase stands for after what has been declared, and what has been declared after
it. Marks that are declared in a group are in scope up to its end. -/
def Phrase.denote : Phrase → Outline → Option (Node × Outline)
  | .reference mark, o => (o.marks.lookup mark).map fun (i : Nat) => (.insert i, o)
  | .declaration mark body, o =>
    (body.denote o).map fun (n, o) => (.insert o.sections.size, o.declare mark n)
  | .label l, o => some (.event l none, o)
  | .note degree accidental options, o => some (.note degree accidental options, o)
  | .rest options, o => some (.rest options, o)
  | .group grouping children options, o =>
    (Phrase.denoteAll children o).map fun (ns, inner) =>
      (.group grouping ns options, ⟨inner.sections, o.marks⟩)

/-- The nodes that phrases stand for. -/
def Phrase.denoteAll : List Phrase → Outline → Option (List Node × Outline)
  | [], o => some ([], o)
  | p :: ps, o =>
    (p.denote o).bind fun (n, o) => (Phrase.denoteAll ps o).map fun (ns, o) => (n :: ns, o)

end

theorem lookup_cons_eq {β : Type} (k name : Bytes) (v : β) (es : List (Bytes × β)) :
    ((k, v) :: es).lookup name = if k = name then some v else es.lookup name := by
  rw [List.lookup_cons]
  by_cases h : k = name
  · rw [if_pos h, h, beq_self_eq_true]
  · rw [if_neg h, beq_false_of_ne (Ne.symm h)]

namespace Phrase

variable {p : Phrase} {ps : List Phrase} {mark : Bytes} {g : Grouping} {opts : Option Options}
  {o o' : Outline} {n : Node} {ns : List Node}

theorem denote_reference_eq_some_iff :
    (reference mark).denote o = some (n, o') ↔
      ∃ i, o.marks.lookup mark = some i ∧ n = .insert (i : Nat) ∧ o' = o := by
  rw [denote, Option.map_eq_some_iff]
  simp only [Prod.mk.injEq, eq_comm]

theorem denote_declaration_eq_some_iff :
    (declaration mark p).denote o = some (n, o') ↔ ∃ body inner, p.denote o = some (body, inner) ∧
      n = .insert inner.sections.size ∧ o' = inner.declare mark body := by
  rw [denote, Option.map_eq_some_iff]
  simp only [Prod.exists, Prod.mk.injEq, eq_comm]

theorem denote_group_eq_some_iff :
    (group g ps opts).denote o = some (n, o') ↔ ∃ children inner,
      denoteAll ps o = some (children, inner) ∧ n = .group g children opts ∧
        o' = ⟨inner.sections, o.marks⟩ := by
  rw [denote, Option.map_eq_some_iff]
  simp only [Prod.exists, Prod.mk.injEq, eq_comm]

theorem denoteAll_cons_eq_some_iff :
    denoteAll (p :: ps) o = some (ns, o') ↔ ∃ first rest inner, p.denote o = some (first, inner) ∧
      denoteAll ps inner = some (rest, o') ∧ ns = first :: rest := by
  rw [denoteAll, Option.bind_eq_some_iff]
  simp only [Prod.exists, Option.map_eq_some_iff, Prod.mk.injEq]
  constructor
  · rintro ⟨first, inner, hp, rest, _, hps, rfl, rfl⟩
    exact ⟨first, rest, inner, hp, hps, rfl⟩
  · rintro ⟨first, rest, inner, hp, hps, rfl⟩
    exact ⟨first, inner, hp, rest, o', hps, rfl, rfl⟩

end Phrase

-- ════════════════════════════════════════════════════════════════════════
-- Metadata
-- ════════════════════════════════════════════════════════════════════════

/-- A table in the order of its keys with the last of the entries under each key. -/
structure Table.Collects (es : List (Bytes × Metadata)) (t : Table) : Prop where
  ordered : t.Pairwise fun a b => compare a.1 b.1 = .lt
  get? : ∀ key, t.get? key = es.reverse.lookup key

/-- What a derivation of metadata is of. -/
inductive Spelling
  | value (v : Metadata)
  | items (vs : List Metadata)
  | entries (es : List (Bytes × Metadata))

/-- The tokens of a value, and of the items of a list and the entries of a table with a comma between
each and the next and perhaps after the last. -/
inductive Spells : Spelling → List Token → Prop
  | number {t : Token} {n : Int64} (ht : t.kind = .integer) (htext : WritesInt t.text n.toInt) :
      Spells (.value (.number n)) [t]
  | text {t : Token} {v : Bytes} (ht : t.kind = .text v) : Spells (.value (.text v)) [t]
  | mark {t : Token} (ht : t.kind = .mark) : Spells (.value (.text t.text)) [t]
  | list {x y : Token} {vs : List Metadata} {ts : List Token} (hx : x.kind = .opening .sequence)
      (hitems : Spells (.items vs) ts) (hy : y.kind = .closing .sequence) :
      Spells (.value (.list vs)) (x :: (ts ++ [y]))
  | table {x y : Token} {es : List (Bytes × Metadata)} {table : Table} {ts : List Token}
      (hx : x.kind = .opening .chord) (hentries : Spells (.entries es) ts)
      (hy : y.kind = .closing .chord) (htable : Table.Collects es table) :
      Spells (.value (.table table)) (x :: (ts ++ [y]))
  | noItems : Spells (.items []) []
  | lastItem {v : Metadata} {ts : List Token} (hv : Spells (.value v) ts) : Spells (.items [v]) ts
  | item {v : Metadata} {vs : List Metadata} {c : Token} {ts us : List Token}
      (hv : Spells (.value v) ts) (hc : c.kind = .comma) (hvs : Spells (.items vs) us) :
      Spells (.items (v :: vs)) (ts ++ c :: us)
  | noEntries : Spells (.entries []) []
  | lastEntry {k e : Token} {key : Bytes} {v : Metadata} {ts : List Token}
      (hk : k.kind = .text key ∨ k.kind = .mark ∧ key = k.text) (he : e.kind = .equals)
      (hv : Spells (.value v) ts) : Spells (.entries [(key, v)]) (k :: e :: ts)
  | entry {k e c : Token} {key : Bytes} {v : Metadata} {es : List (Bytes × Metadata)}
      {ts us : List Token} (hk : k.kind = .text key ∨ k.kind = .mark ∧ key = k.text)
      (he : e.kind = .equals) (hv : Spells (.value v) ts) (hc : c.kind = .comma)
      (hes : Spells (.entries es) us) :
      Spells (.entries ((key, v) :: es)) (k :: e :: (ts ++ c :: us))

-- ════════════════════════════════════════════════════════════════════════
-- Manuscripts
-- ════════════════════════════════════════════════════════════════════════

/-- Phrases and, after them, at most one table of metadata. -/
structure Manuscript where
  phrases : List Phrase
  metadata : Option Table

namespace Manuscript

/-- The tokens of a manuscript up to the end of input. -/
inductive Written : Manuscript → List Token → Prop
  | plain {ps : List Phrase} {ts : List Token} {stop : Token} (hps : Derives (.phrases ps) ts)
      (hstop : stop.kind = .endOfInput) : Written ⟨ps, none⟩ (ts ++ [stop])
  | withMetadata {ps : List Phrase} {table : Table} {ts us : List Token} {c stop : Token}
      (hps : Derives (.phrases ps) ts) (hc : c.kind = .comma)
      (htable : Spells (.value (.table table)) us) (hstop : stop.kind = .endOfInput) :
      Written ⟨ps, some table⟩ (ts ++ c :: (us ++ [stop]))

/-- A lone node is the main passage; otherwise it is the sequence of all. -/
def mainOf : List Node → Node
  | [n] => n
  | ns => .group .sequence ns none

/-- The tree that a manuscript stands for, if all its marks stand for something. -/
def tree? (m : Manuscript) : Option Tree :=
  (Phrase.denoteAll m.phrases {}).map fun (ns, o) => ⟨mainOf ns, o.sections, m.metadata⟩

end Manuscript

end DegreeScore
