import DegreeScore.Proofs.Score.Reading

/-!
# What every source is read as

`Tree.parse_sound`: whatever the bytes of a source are, its tree is sound, and the texts of its
metadata are no longer than the source.
-/

namespace DegreeScore

/-- Whether a value is no text of more than `size` bytes; lists and tables are not looked into. -/
def Metadata.Within (size : Nat) : Metadata → Prop
  | .text t => t.length ≤ size
  | _ => True

/-- Entries of which no text has more than `size` bytes. -/
def Entries.Within (size : Nat) (entries : Entries) : Prop :=
  ∀ (key : Bytes) (v : Metadata), entries[key]? = some v → v.Within size

/-- A table of which no text has more than `size` bytes. -/
def Table.Within (size : Nat) (t : Table) : Prop :=
  ∀ (key : Bytes) (v : Metadata), t.get? key = some v → v.Within size

section

variable {size : Nat}

theorem Entries.within_empty : Entries.Within size ∅ := by
  intro key v hv
  rw [Std.TreeMap.getElem?_emptyc] at hv
  cases hv

theorem Entries.Within.insert {entries : Entries} {v : Metadata} (h : entries.Within size)
    (hv : v.Within size) (key : Bytes) : Entries.Within size (entries.insert key v) := by
  intro key' v' hv'
  rw [Std.TreeMap.getElem?_insert] at hv'
  split at hv'
  · obtain rfl := Option.some.inj hv'
    exact hv
  · exact h key' v' hv'

theorem Entries.Within.toList {entries : Entries} (h : entries.Within size) :
    Table.Within size entries.toList := by
  intro key v hv
  obtain ⟨before, after, hsplit, -⟩ := List.lookup_eq_some_iff.1 hv
  have hmem : (key, v) ∈ entries.toList := by
    rw [hsplit]
    simp
  exact h key v (Std.TreeMap.mem_toList_iff_getElem?_eq_some.1 hmem)

end

/-- The entries of a container that waits for its next value. -/
def Container.Within (size : Nat) : Container → Prop
  | .table entries _ => entries.Within size
  | .list _ => True

/-- The entries of the table being read. -/
def BlockPhase.Within (size : Nat) : BlockPhase → Prop
  | .entry entries | .equals entries _ | .value entries _ | .entryEnd entries => entries.Within size
  | .start | .item _ | .itemEnd _ => True

/-- What holds of a metadata block between two tokens. -/
structure Block.Within (size : Nat) (b : Block) : Prop where
  around : ∀ c ∈ b.around, c.Within size
  phase : b.phase.Within size

/-- What holds after a token of a metadata block. -/
def BlockStep.Within (size : Nat) : BlockStep → Prop
  | .more b => b.Within size
  | .done t => t.Within size
  | .fault _ => True

namespace Block.Within

variable {size : Nat} {around : List Container} {v : Metadata} {c : Container} {t : Token}

theorem put (h : ∀ c ∈ around, c.Within size) (hv : v.Within size) (hc : c.Within size) :
    (Block.put around v c).Within size := by
  cases c with
  | table entries key => exact ⟨h, Entries.Within.insert hc hv key⟩
  | list items => exact ⟨h, trivial⟩

theorem closeList (h : ∀ c ∈ around, c.Within size) (items : List Metadata) :
    (Block.closeList around items).Within size := by
  cases around with
  | nil => trivial
  | cons c rest => exact put (fun d hd => h d (List.mem_cons_of_mem c hd)) trivial (h c (by simp))

theorem closeTable {entries : Entries} (h : ∀ c ∈ around, c.Within size)
    (he : entries.Within size) : (Block.closeTable around entries).Within size := by
  cases around with
  | nil => exact he.toList
  | cons c rest => exact put (fun d hd => h d (List.mem_cons_of_mem c hd)) trivial (h c (by simp))

theorem nested {phase : BlockPhase} (h : ∀ c ∈ around, c.Within size) (hc : c.Within size)
    (hphase : phase.Within size) : Block.Within size ⟨c :: around, phase⟩ := by
  refine ⟨fun d hd => ?_, hphase⟩
  rcases List.mem_cons.1 hd with rfl | hd
  · exact hc
  · exact h d hd

theorem value (h : ∀ c ∈ around, c.Within size) (hc : c.Within size) (ht : t.Sound size) :
    (Block.value around c t).Within size := by
  rw [Block.value]
  split
  · split
    · exact put h trivial hc
    · trivial
  · next v hk => exact put h (ht.length_value v hk) hc
  · exact put h ht.length_text hc
  · exact nested h hc Entries.within_empty
  · exact nested h hc trivial
  · trivial

theorem step {b : Block} (h : b.Within size) (ht : t.Sound size) : (b.step t).Within size := by
  have hphase := h.phase
  rw [Block.step]
  split
  -- The brace that opens the block.
  · exact ⟨h.around, Entries.within_empty⟩
  · trivial
  -- An entry or the end of a table.
  · next hp _ => exact closeTable h.around (hp ▸ hphase :)
  · next hp _ => exact ⟨h.around, (hp ▸ hphase :)⟩
  · next hp _ => exact ⟨h.around, (hp ▸ hphase :)⟩
  · trivial
  -- The sign after a key.
  · next hp _ => exact ⟨h.around, (hp ▸ hphase :)⟩
  · trivial
  -- The value under a key, and what follows it.
  · next hp => exact value h.around (hp ▸ hphase :) ht
  · next hp _ => exact ⟨h.around, (hp ▸ hphase :)⟩
  · next hp _ => exact closeTable h.around (hp ▸ hphase :)
  · trivial
  -- The items of a list.
  · exact closeList h.around _
  · exact value h.around trivial ht
  · exact ⟨h.around, trivial⟩
  · exact closeList h.around _
  · trivial

end Block.Within

-- ════════════════════════════════════════════════════════════════════════
-- Documents
-- ════════════════════════════════════════════════════════════════════════

/-- What a finished body leaves behind is sound. -/
structure Draft.Sound (size : Nat) (d : Draft) : Prop where
  main : d.main.Sound d.sections.size size
  sections : SoundSections size d.sections

/-- What holds of a document between two tokens. -/
def Document.Sound (size : Nat) : Document → Prop
  | .body b => b.Sound size
  | .metadata d b => d.Sound size ∧ b.Within size
  | .trailing d t => d.Sound size ∧ t.Within size
  | .finished d table => d.Sound size ∧ ∀ t ∈ table, t.Within size

theorem Body.Sound.ofBody {size : Nat} {b : Body} (h : b.Sound size) :
    (Draft.ofBody b).Sound size :=
  ⟨h.main, h.sections⟩

namespace Document.Sound

variable {size : Nat} {t : Token}

theorem bodyStep {b : Body} (h : b.Sound size) (ht : t.Sound size) :
    (Document.bodyStep b t).Sound size := by
  rw [Document.bodyStep]
  split
  · exact ⟨(h.finish t).ofBody, by simp⟩
  · split
    · exact ⟨h.ofBody, ⟨by simp, trivial⟩⟩
    · exact h.take ht
  · exact h.take ht

theorem step {s : Document} (h : s.Sound size) (ht : t.Sound size) : (s.step t).Sound size := by
  cases s with
  | body b => exact bodyStep (Body.Sound.resolve h t) ht
  | metadata d b =>
    have hb := h.2.step ht
    rw [Document.step]
    split
    · next hmore =>
      rw [hmore] at hb
      exact ⟨h.1, hb⟩
    · next hdone =>
      rw [hdone] at hb
      exact ⟨h.1, hb⟩
    · exact ⟨⟨h.1.main, h.1.sections⟩, by simp⟩
  | trailing d table =>
    have htable : ∀ u ∈ some table, Table.Within size u := by
      rintro u ⟨⟩
      exact h.2
    rw [Document.step]
    split
    · exact ⟨h.1, htable⟩
    · exact ⟨⟨h.1.main, h.1.sections⟩, htable⟩
  | finished d table => exact h

theorem foldl {s : Document} {tokens : List Token} (h : s.Sound size)
    (htokens : ∀ t ∈ tokens, t.Sound size) : (tokens.foldl Document.step s).Sound size := by
  induction tokens generalizing s with
  | nil => exact h
  | cons t rest ih =>
    exact ih (h.step (htokens t (by simp))) fun u hu => htokens u (List.mem_cons_of_mem t hu)

theorem result {s : Document} (h : s.Sound size) :
    s.result.1.Sound size ∧ ∀ t ∈ s.result.1.metadata, t.Within size := by
  cases s with
  | body b => exact ⟨⟨Body.Sound.main h, h.sections⟩, by simp [Document.result]⟩
  | metadata d b => exact ⟨⟨h.1.main, h.1.sections⟩, by simp [Document.result]⟩
  | trailing d t =>
    refine ⟨⟨h.1.main, h.1.sections⟩, ?_⟩
    rintro u ⟨⟩
    exact h.2
  | finished d t => exact ⟨⟨h.1.main, h.1.sections⟩, h.2⟩

end Document.Sound

theorem Document.sound_empty (size : Nat) : Document.empty.Sound size :=
  ⟨fun i s hs => by simp at hs, Level.sound_empty, by simp, trivial⟩

/-- The tree of every source is sound, and so are the texts of its metadata. -/
theorem Tree.parse_sound (src : Bytes) :
    (Tree.parse src).1.Sound src.length ∧
      ∀ t ∈ (Tree.parse src).1.metadata, t.Within src.length :=
  ((Document.sound_empty src.length).foldl (Token.scan_sound src)).result

end DegreeScore
