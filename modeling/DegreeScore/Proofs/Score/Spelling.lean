import DegreeScore.Proofs.Score.Grammar
import DegreeScore.Score.MetadataBlock
import Mathlib.Data.List.Induction

/-!
# Metadata is read as it is spelled

Both directions for the metadata block. The tokens of a value are read into the container that waits
for it (`Spells.reads`). Conversely what has been read of a block is, between any two tokens, the
beginning of a derivation (`Block.Spelt`): each open table or list has its members so far, and each
token that is not a fault goes on with it.
-/

namespace DegreeScore

-- ════════════════════════════════════════════════════════════════════════
-- Tables
-- ════════════════════════════════════════════════════════════════════════

/-- Puts entries in one after the other. -/
def Entries.collect (es : List (Bytes × Metadata)) : Entries :=
  es.foldl (fun t e => t.insert e.1 e.2) ∅

theorem Entries.collect_append (es : List (Bytes × Metadata)) (key : Bytes) (v : Metadata) :
    collect (es ++ [(key, v)]) = (collect es).insert key v := by
  rw [collect, List.foldl_append]
  rfl

theorem Entries.getElem?_collect (es : List (Bytes × Metadata)) (key : Bytes) :
    (collect es)[key]? = es.reverse.lookup key := by
  induction es using List.reverseRecOn with
  | nil => exact Std.TreeMap.getElem?_emptyc
  | append_singleton es e ih =>
    obtain ⟨k, v⟩ := e
    rw [collect_append, Std.TreeMap.getElem?_insert, List.reverse_append, List.reverse_singleton,
      List.singleton_append, lookup_cons_eq, ih]
    by_cases h : k = key
    · rw [if_pos (Std.compare_eq_iff_eq.2 h), if_pos h]
    · rw [if_neg (mt Std.compare_eq_iff_eq.1 h), if_neg h]

theorem Table.mem_iff_get? {t : Table} (h : t.Pairwise fun a b => compare a.1 b.1 = .lt)
    {key : Bytes} {v : Metadata} : (key, v) ∈ t ↔ t.get? key = some v := by
  constructor
  · intro hmem
    obtain ⟨before, after, rfl⟩ := List.append_of_mem hmem
    refine List.lookup_eq_some_iff.2 ⟨before, after, rfl, fun p hp => ?_⟩
    have hlt := (List.pairwise_append.1 h).2.2 p hp (key, v) List.mem_cons_self
    rw [bne_iff_ne]
    rintro rfl
    rw [Std.compare_self] at hlt
    cases hlt
  · intro hget
    obtain ⟨before, after, rfl, -⟩ := List.lookup_eq_some_iff.1 hget
    simp

theorem Entries.collects_toList (es : List (Bytes × Metadata)) :
    Table.Collects es (collect es).toList := by
  refine ⟨Std.TreeMap.ordered_keys_toList, fun key => ?_⟩
  rw [← getElem?_collect]
  ext v
  rw [← Table.mem_iff_get? Std.TreeMap.ordered_keys_toList,
    Std.TreeMap.mem_toList_iff_getElem?_eq_some]

/-- There is one table with the entries in the order of their keys. -/
theorem Table.Collects.eq {es : List (Bytes × Metadata)} {t u : Table} (ht : Collects es t)
    (hu : Collects es u) : t = u := by
  have hasymm : ∀ a b : Bytes × Metadata, compare a.1 b.1 = .lt → compare b.1 a.1 ≠ .lt := by
    intro a b hab hba
    have hswap : compare b.1 a.1 = (compare a.1 b.1).swap := Std.OrientedCmp.eq_swap
    rw [hswap, hab] at hba
    cases hba
  have hnodup : ∀ {t : Table}, (t.Pairwise fun a b => compare a.1 b.1 = .lt) → t.Nodup := by
    intro t h
    refine h.imp fun {a b} hab => ?_
    rintro rfl
    exact hasymm a a hab hab
  have hmem : ∀ e, e ∈ t ↔ e ∈ u := by
    rintro ⟨key, v⟩
    rw [mem_iff_get? ht.ordered, mem_iff_get? hu.ordered, ht.get?, hu.get?]
  have hperm := (List.perm_ext_iff_of_nodup (hnodup ht.ordered) (hnodup hu.ordered)).2 hmem
  exact hperm.eq_of_pairwise (fun a b _ _ hab hba => absurd hba (hasymm a b hab)) ht.ordered
    hu.ordered

-- ════════════════════════════════════════════════════════════════════════
-- What is spelled is read
-- ════════════════════════════════════════════════════════════════════════

namespace Block

/-- Reads tokens none of which ends the block. -/
inductive Reads : Block → List Token → Block → Prop
  | nil {b : Block} : Reads b [] b
  | cons {b b' c : Block} {t : Token} {ts : List Token} (ht : b.step t = .more b')
      (hts : Reads b' ts c) : Reads b (t :: ts) c

theorem Reads.append {b b' c : Block} {ts us : List Token} (hts : Reads b ts b')
    (hus : Reads b' us c) : Reads b (ts ++ us) c := by
  induction hts with
  | nil => exact hus
  | cons ht _ ih => exact .cons ht (ih hus)

/-- The block while a container waits for its next value. -/
def waiting (around : List Container) : Container → Block
  | .table entries key => ⟨around, .value entries key⟩
  | .list items => ⟨around, .item items⟩

theorem step_waiting {around : List Container} {c : Container} {t : Token}
    (ht : t.kind ≠ .closing .sequence) : (waiting around c).step t = value around c t := by
  cases c with
  | table entries key => rfl
  | list items =>
    rw [step.eq_def]
    simp only [waiting]

end Block

/-- Reading what is spelled: a value goes into the container that waits for it, and after items or
entries the list or the table can be closed with them. -/
def Spelling.Reads : Spelling → List Token → Prop
  | .value v, ts => ∀ around c, (Block.waiting around c).Reads ts (Block.put around v c)
  | .items vs, ts => ∀ around items, ∃ b, Block.Reads ⟨around, .item items⟩ ts b ∧
      ∀ y : Token, y.kind = .closing .sequence →
        b.step y = Block.closeList around (vs.reverse ++ items)
  | .entries es, ts => ∀ around before, ∃ b,
      Block.Reads ⟨around, .entry (.collect before)⟩ ts b ∧
        ∀ y : Token, y.kind = .closing .chord →
          b.step y = Block.closeTable around (.collect (before ++ es))

namespace Block

variable {around : List Container} {entries : Entries} {key : Bytes} {k e : Token}

theorem step_key (hk : k.kind = .text key ∨ k.kind = .mark ∧ key = k.text) :
    step ⟨around, .entry entries⟩ k = .more ⟨around, .equals entries key⟩ := by
  rw [step.eq_def]
  rcases hk with hk | ⟨hk, rfl⟩ <;> simp only [hk]

theorem step_equals (he : e.kind = .equals) :
    step ⟨around, .equals entries key⟩ e = .more ⟨around, .value entries key⟩ := by
  rw [step.eq_def]
  simp only [he]

/-- The key of an entry and its `=`. -/
theorem reads_key (hk : k.kind = .text key ∨ k.kind = .mark ∧ key = k.text)
    (he : e.kind = .equals) :
    Reads ⟨around, .entry entries⟩ [k, e] (waiting around (.table entries key)) :=
  .cons (step_key hk) (.cons (step_equals he) .nil)

theorem step_entryEnd {c : Token} (hc : c.kind = .comma) :
    step ⟨around, .entryEnd entries⟩ c = .more ⟨around, .entry entries⟩ := by
  rw [step.eq_def]
  simp only [hc]

theorem step_itemEnd {items : List Metadata} {c : Token} (hc : c.kind = .comma) :
    step ⟨around, .itemEnd items⟩ c = .more ⟨around, .item items⟩ := by
  rw [step.eq_def]
  simp only [hc]

end Block

/-- One case for each rule. -/
theorem Spells.reads {f : Spelling} {ts : List Token} (h : Spells f ts) : f.Reads ts := by
  induction h with
  | number ht htext =>
    intro around c
    refine .cons ?_ .nil
    rw [Block.step_waiting (by simp [ht]), Block.value]
    simp only [ht, (Literal.integer_eq_ok_iff htext).2 rfl]
  | text ht =>
    intro around c
    refine .cons ?_ .nil
    rw [Block.step_waiting (by simp [ht]), Block.value]
    simp only [ht]
  | mark ht =>
    intro around c
    refine .cons ?_ .nil
    rw [Block.step_waiting (by simp [ht]), Block.value]
    simp only [ht]
  | @list x y vs ts hx _ hy ih =>
    intro around c
    have hopen : (Block.waiting around c).step x = .more ⟨c :: around, .item []⟩ := by
      rw [Block.step_waiting (by simp [hx]), Block.value]
      simp only [hx]
    obtain ⟨b, hreads, hclose⟩ := ih (c :: around) []
    refine .cons hopen (hreads.append (.cons ?_ .nil))
    rw [hclose y hy, Block.closeList, List.append_nil, List.reverse_reverse]
  | @table x y es table ts hx _ hy htable ih =>
    intro around c
    have hopen : (Block.waiting around c).step x = .more ⟨c :: around, .entry (.collect [])⟩ := by
      rw [Block.step_waiting (by simp [hx]), Block.value]
      simp only [hx]
      rfl
    obtain ⟨b, hreads, hclose⟩ := ih (c :: around) []
    refine .cons hopen (hreads.append (.cons ?_ .nil))
    rw [hclose y hy, Block.closeTable, List.nil_append, htable.eq (Entries.collects_toList es)]
  | noItems =>
    intro around items
    refine ⟨_, .nil, fun y hy => ?_⟩
    rw [Block.step.eq_def]
    simp only [hy]
    rfl
  | lastItem _ ih =>
    intro around items
    refine ⟨_, ih around (.list items), fun y hy => ?_⟩
    rw [Block.step.eq_def]
    simp only [Block.put, hy]
    rfl
  | @item v vs c ts us _ hc _ ihv ihvs =>
    intro around items
    obtain ⟨b, hreads, hclose⟩ := ihvs around (v :: items)
    refine ⟨b, (ihv around (.list items)).append (.cons (Block.step_itemEnd hc) hreads), ?_⟩
    intro y hy
    rw [hclose y hy, List.reverse_cons, List.append_assoc]
    rfl
  | noEntries =>
    intro around before
    refine ⟨_, .nil, fun y hy => ?_⟩
    rw [Block.step.eq_def, List.append_nil]
    simp only [hy]
  | @lastEntry k e key v ts hk he _ ih =>
    intro around before
    refine ⟨_, (Block.reads_key hk he).append (ih around (.table (.collect before) key)), ?_⟩
    intro y hy
    rw [Block.step.eq_def, Entries.collect_append]
    simp only [Block.put, hy]
  | @entry k e c key v es ts us hk he _ hc _ ihv ihes =>
    intro around before
    obtain ⟨b, hreads, hclose⟩ := ihes around (before ++ [(key, v)])
    rw [Entries.collect_append] at hreads
    refine ⟨b, (Block.reads_key hk he).append
      ((ihv around (.table (.collect before) key)).append
        (.cons (Block.step_entryEnd hc) hreads)), fun y hy => ?_⟩
    rw [hclose y hy, ← List.append_cons]

-- ════════════════════════════════════════════════════════════════════════
-- What is read is spelled
-- ════════════════════════════════════════════════════════════════════════

/-- Items that each have a comma after them. -/
inductive ItemsBefore : List Metadata → List Token → Prop
  | nil : ItemsBefore [] []
  | snoc {vs : List Metadata} {v : Metadata} {ts us : List Token} {c : Token}
      (hvs : ItemsBefore vs ts) (hv : Spells (.value v) us) (hc : c.kind = .comma) :
      ItemsBefore (vs ++ [v]) (ts ++ (us ++ [c]))

/-- Entries that each have a comma after them. -/
inductive EntriesBefore : List (Bytes × Metadata) → List Token → Prop
  | nil : EntriesBefore [] []
  | snoc {es : List (Bytes × Metadata)} {k e c : Token} {key : Bytes} {v : Metadata}
      {ts us : List Token} (hes : EntriesBefore es ts)
      (hk : k.kind = .text key ∨ k.kind = .mark ∧ key = k.text) (he : e.kind = .equals)
      (hv : Spells (.value v) us) (hc : c.kind = .comma) :
      EntriesBefore (es ++ [(key, v)]) (ts ++ k :: e :: (us ++ [c]))

theorem ItemsBefore.spells {vs ws : List Metadata} {ts us : List Token} (h : ItemsBefore vs ts)
    (hws : Spells (.items ws) us) : Spells (.items (vs ++ ws)) (ts ++ us) := by
  induction h generalizing ws us with
  | nil => exact hws
  | snoc _ hv hc ih =>
    have := ih (.item hv hc hws)
    simpa using this

theorem EntriesBefore.spells {es fs : List (Bytes × Metadata)} {ts us : List Token}
    (h : EntriesBefore es ts) (hfs : Spells (.entries fs) us) :
    Spells (.entries (es ++ fs)) (ts ++ us) := by
  induction h generalizing fs us with
  | nil => exact hfs
  | snoc _ hk he hv hc ih =>
    have := ih (.entry hk he hv hc hfs)
    simpa using this

/-- What has been read of a container that waits for its next value, since its bracket of the given
kind. -/
inductive Container.Spelt : Container → Grouping → List Token → Prop
  | table {es : List (Bytes × Metadata)} {k e : Token} {key : Bytes} {ts : List Token}
      (hes : EntriesBefore es ts) (hk : k.kind = .text key ∨ k.kind = .mark ∧ key = k.text)
      (he : e.kind = .equals) : Spelt (.table (.collect es) key) .chord (ts ++ [k, e])
  | list {vs : List Metadata} {ts : List Token} (hvs : ItemsBefore vs ts) :
      Spelt (.list vs.reverse) .sequence ts

/-- What has been read of a table or list since its bracket of the given kind. -/
inductive BlockPhase.Spelt : BlockPhase → Grouping → List Token → Prop
  | entry {es : List (Bytes × Metadata)} {ts : List Token} (hes : EntriesBefore es ts) :
      Spelt (.entry (.collect es)) .chord ts
  | equals {es : List (Bytes × Metadata)} {k : Token} {key : Bytes} {ts : List Token}
      (hes : EntriesBefore es ts) (hk : k.kind = .text key ∨ k.kind = .mark ∧ key = k.text) :
      Spelt (.equals (.collect es) key) .chord (ts ++ [k])
  | value {es : List (Bytes × Metadata)} {k e : Token} {key : Bytes} {ts : List Token}
      (hes : EntriesBefore es ts) (hk : k.kind = .text key ∨ k.kind = .mark ∧ key = k.text)
      (he : e.kind = .equals) : Spelt (.value (.collect es) key) .chord (ts ++ [k, e])
  | entryEnd {es : List (Bytes × Metadata)} {k e : Token} {key : Bytes} {v : Metadata}
      {ts us : List Token} (hes : EntriesBefore es ts)
      (hk : k.kind = .text key ∨ k.kind = .mark ∧ key = k.text) (he : e.kind = .equals)
      (hv : Spells (.value v) us) :
      Spelt (.entryEnd (.collect (es ++ [(key, v)]))) .chord (ts ++ k :: e :: us)
  | item {vs : List Metadata} {ts : List Token} (hvs : ItemsBefore vs ts) :
      Spelt (.item vs.reverse) .sequence ts
  | itemEnd {vs : List Metadata} {v : Metadata} {ts us : List Token} (hvs : ItemsBefore vs ts)
      (hv : Spells (.value v) us) : Spelt (.itemEnd (v :: vs.reverse)) .sequence (ts ++ us)

/-- What has been read up to the bracket of the innermost table or list, which is of the given
kind. -/
inductive Container.AllSpelt : List Container → Grouping → List Token → Prop
  | block {x : Token} (hx : x.kind = .opening .chord) : AllSpelt [] .chord [x]
  | nested {around : List Container} {c : Container} {g g' : Grouping} {x : Token}
      {ts us : List Token} (haround : AllSpelt around g ts) (hc : c.Spelt g us)
      (hx : x.kind = .opening g') : AllSpelt (c :: around) g' (ts ++ (us ++ [x]))

/-- What has been read of a block. -/
def Block.Spelt (b : Block) (ts : List Token) : Prop :=
  (b = {} ∧ ts = []) ∨ ∃ g us vs, ts = us ++ vs ∧ Container.AllSpelt b.around g us ∧
    b.phase.Spelt g vs

namespace Block

variable {around : List Container} {g : Grouping} {c : Container} {v : Metadata} {t : Token}
  {ts us vs : List Token}

theorem put_spelt (haround : Container.AllSpelt around g ts) (hc : c.Spelt g us)
    (hv : Spells (.value v) vs) : (put around v c).Spelt (ts ++ (us ++ vs)) := by
  refine .inr ⟨g, ts, us ++ vs, rfl, ?_⟩
  cases hc with
  | table hes hk he =>
    refine ⟨haround, ?_⟩
    rw [put, ← Entries.collect_append, List.append_assoc]
    exact .entryEnd hes hk he hv
  | list hvs => exact ⟨haround, .itemEnd hvs hv⟩

/-- What a token that is not a fault leaves of a block. -/
def Goes (s : BlockStep) (ts : List Token) : Prop :=
  match s with
  | .more b => b.Spelt ts
  | .done table => Spells (.value (.table table)) ts
  | .fault _ => True

theorem value_goes (haround : Container.AllSpelt around g ts) (hc : c.Spelt g us)
    (ht : t.kind.WrittenAs t.text) : Goes (value around c t) (ts ++ us ++ [t]) := by
  rw [List.append_assoc, value]
  split
  · next hk =>
    rw [hk] at ht
    obtain ⟨n, hn⟩ := ht
    split
    · next k hk' => exact put_spelt haround hc (.number hk ((Literal.integer_eq_ok_iff hn).1 hk' ▸ hn))
    · trivial
  · next hk => exact put_spelt haround hc (.text hk)
  · next hk => exact put_spelt haround hc (.mark hk)
  · next hk =>
    exact .inr ⟨.chord, _, [], (List.append_nil _).symm, .nested haround hc hk, .entry .nil⟩
  · next hk =>
    exact .inr ⟨.sequence, _, [], (List.append_nil _).symm, .nested haround hc hk, .item .nil⟩
  · trivial

/-- A bracket closes the table being read. -/
theorem closeTable_goes {es : List (Bytes × Metadata)} (haround : Container.AllSpelt around .chord ts)
    (hes : Spells (.entries es) us) (ht : t.kind = .closing .chord) :
    Goes (closeTable around (.collect es)) (ts ++ us ++ [t]) := by
  have hcollects := Entries.collects_toList es
  cases haround with
  | block hx => exact .table hx hes ht hcollects
  | @nested around c g _ x ts vs haround hc hx =>
    have htable := put_spelt haround hc (.table hx hes ht hcollects)
    simpa [Goes, closeTable] using htable

theorem closeList_goes {items : List Metadata} (haround : Container.AllSpelt around .sequence ts)
    (hitems : Spells (.items items) us) (ht : t.kind = .closing .sequence) :
    Goes (closeList around items.reverse) (ts ++ us ++ [t]) := by
  cases haround with
  | @nested around c g _ x ts vs haround hc hx =>
    have hlist := put_spelt haround hc (.list hx hitems ht)
    simpa [Goes, closeList] using hlist

theorem Spelt.step {b : Block} (h : b.Spelt ts) (ht : t.kind.WrittenAs t.text) :
    Goes (b.step t) (ts ++ [t]) := by
  rcases h with ⟨rfl, rfl⟩ | ⟨g, us, vs, rfl, haround, hphase⟩
  · by_cases hk : t.kind = .opening .chord
    · have hopen : step {} t = .more ⟨[], .entry ∅⟩ := by
        rw [Block.step.eq_def]
        simp only [hk]
      rw [hopen]
      exact .inr ⟨.chord, [t], [], rfl, .block hk, .entry .nil⟩
    · have hfault : step {} t = .fault .expectedMetadata := by
        rw [Block.step.eq_def]
        simp only
      rw [hfault]
      trivial
  obtain ⟨around, phase⟩ := b
  dsimp only at haround hphase
  rw [Block.step.eq_def]
  dsimp only
  split
  -- The brace that opens the block.
  · cases hphase
  · trivial
  -- An entry or the end of a table.
  · next hk =>
    cases hphase with
    | entry hes =>
      have hspells := hes.spells .noEntries
      rw [List.append_nil, List.append_nil] at hspells
      exact closeTable_goes haround hspells hk
  · next hk =>
    cases hphase with
    | entry hes => exact .inr ⟨.chord, us, _, List.append_assoc .., haround, .equals hes (.inl hk)⟩
  · next hk =>
    cases hphase with
    | entry hes =>
      exact .inr ⟨.chord, us, _, List.append_assoc .., haround, .equals hes (.inr ⟨hk, rfl⟩)⟩
  · trivial
  -- The sign after a key.
  · next he =>
    cases hphase with
    | equals hes hk =>
      refine .inr ⟨.chord, us, _, ?_, haround, .value hes hk he⟩
      simp
  · trivial
  -- The value under a key, and what follows it.
  · cases hphase with
    | value hes hk he => exact value_goes haround (.table hes hk he) ht
  · next hc =>
    cases hphase with
    | entryEnd hes hk he hv =>
      refine .inr ⟨.chord, us, _, ?_, haround, .entry (.snoc hes hk he hv hc)⟩
      simp
  · next hc =>
    cases hphase with
    | entryEnd hes hk he hv => exact closeTable_goes haround (hes.spells (.lastEntry hk he hv)) hc
  · trivial
  -- The items of a list.
  · next hk =>
    cases hphase with
    | item hvs =>
      have hspells := hvs.spells .noItems
      rw [List.append_nil, List.append_nil] at hspells
      exact closeList_goes haround hspells hk
  · cases hphase with
    | item hvs => exact value_goes haround (.list hvs) ht
  · next hc =>
    cases hphase with
    | itemEnd hvs hv =>
      have hitem := BlockPhase.Spelt.item (hvs.snoc hv hc)
      rw [List.reverse_append] at hitem
      refine .inr ⟨.sequence, us, _, ?_, haround, hitem⟩
      simp
  · next hc =>
    cases hphase with
    | itemEnd hvs hv =>
      have hclose := closeList_goes haround (hvs.spells (.lastItem hv)) hc
      rwa [List.reverse_append] at hclose
  · trivial

end Block

end DegreeScore
