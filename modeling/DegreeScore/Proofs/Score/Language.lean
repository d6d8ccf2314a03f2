import DegreeScore.Proofs.Score.Deriving
import DegreeScore.Proofs.Score.Spelling

/-!
# The language that is read

A source is read without a diagnostic exactly when its tokens are those of a manuscript whose marks
all stand for something, and its tree is then the one that the manuscript stands for.
-/

namespace DegreeScore

-- ════════════════════════════════════════════════════════════════════════
-- What is written is read
-- ════════════════════════════════════════════════════════════════════════

namespace Body

theorem main_eq_mainOf {b : Body} {ns : List Node} (h : b.level.nodes = ns.reverse) :
    b.main = Manuscript.mainOf ns := by
  rw [← List.reverse_reverse ns, ← h, main]
  split
  · next hn =>
    rw [hn]
    rfl
  · next hn =>
    rw [Manuscript.mainOf.eq_def]
    split
    · next n hone => exact absurd (List.reverse_eq_iff.1 hone) (hn n)
    · rfl

/-- Between items nothing is unfinished. -/
theorem finish_of_between {b : Body} (h : b.isBetweenItems) (t : Token) : b.finish t = b := by
  obtain ⟨henclosing, hmode⟩ := Bool.and_eq_true_iff.1 h
  have hsettle : b.settle t = b := by
    rw [settle]
    split at hmode
    · next hm => simp only [hm, hmode, ↓reduceIte]
    · cases hmode
  rw [finish, hsettle, List.isEmpty_iff.1 henclosing]
  rfl

theorem matches_empty : Matches {} {} := ⟨rfl, fun name => by simp [lookup]⟩

/-- Phrases that are read from the start end between two items. -/
theorem reads_phrases {ps : List Phrase} {ts : List Token} {ns : List Node} {o : Outline}
    (hps : Derives (.phrases ps) ts) (hns : Phrase.denoteAll ps {} = some (ns, o)) :
    ∃ b : Body, (ts.foldl read {}).Settles b ∧ b.isBetweenItems ∧
      Draft.ofBody b = ⟨Manuscript.mainOf ns, o.sections, #[]⟩ := by
  obtain ⟨b, hmode, hmatches, hsettles, hfollows⟩ := hps.reads (b := {}) rfl rfl matches_empty hns
  refine ⟨b, hsettles, ?_, ?_⟩
  · rw [isBetweenItems, hmode, hfollows.enclosing, hfollows.declaring]
    rfl
  · rw [Draft.ofBody, main_eq_mainOf (hfollows.nodes.trans (List.append_nil _)), hmatches.sections,
      hfollows.diagnostics]

end Body

namespace Document

theorem foldl_step_body {ts : List Token} (h : ∀ t ∈ ts, t.Inner) (b : Body) :
    ts.foldl step (.body b) = .body (ts.foldl Body.read b) := by
  induction ts generalizing b with
  | nil => rfl
  | cons t ts ih =>
    obtain ⟨ht, hts⟩ := List.forall_mem_cons.1 h
    have hstep : step (.body b) t = .body (b.read t) := by
      rw [step, bodyStep.eq_def]
      split
      · next heq => exact absurd heq ht.endOfInput
      · next heq => exact absurd heq ht.comma
      · rfl
    rw [List.foldl_cons, hstep, ih hts, List.foldl_cons]

theorem foldl_step_block {ts : List Token} {b c : Block} (h : b.Reads ts c) (d : Draft) :
    ts.foldl step (.metadata d b) = .metadata d c := by
  induction h with
  | nil => rfl
  | cons ht _ ih => rw [List.foldl_cons, step, ht, ih]

/-- The table of a document is read to its closing brace. -/
theorem foldl_step_table {ts : List Token} {table : Table} (h : Spells (.value (.table table)) ts)
    (d : Draft) : ts.foldl step (.metadata d {}) = .trailing d table := by
  cases h with
  | @table x y es _ ts hx hentries hy htable =>
    have hopen : Block.step {} x = .more ⟨[], .entry (.collect [])⟩ := by
      rw [Block.step.eq_def]
      simp only [hx]
      rfl
    obtain ⟨b, hreads, hclose⟩ := hentries.reads [] []
    have hdone : b.step y = .done table := by
      rw [hclose y hy, Block.closeTable, List.nil_append, htable.eq (Entries.collects_toList es)]
    rw [List.foldl_cons, step, hopen, List.foldl_append, foldl_step_block hreads, List.foldl_cons,
      List.foldl_nil, step, hdone]

/-- What is written is read, and gives the tree that it stands for. -/
theorem result_of_written {m : Manuscript} {tokens : List Token} {tree : Tree}
    (hm : m.Written tokens) (htree : m.tree? = some tree) :
    (tokens.foldl step .empty).result = (tree, []) := by
  obtain ⟨⟨ns, o⟩, hns, rfl⟩ := Option.map_eq_some_iff.1 htree
  cases hm with
  | @plain ps ts stop hps hstop =>
    obtain ⟨b, hsettles, hbetween, hdraft⟩ := Body.reads_phrases hps hns
    rw [List.foldl_append, empty, foldl_step_body hps.inner, List.foldl_cons, List.foldl_nil, step,
      hsettles stop (by simp [hstop]), bodyStep]
    simp only [hstop]
    rw [Body.finish_of_between hbetween, hdraft]
    rfl
  | @withMetadata ps table ts us c stop hps hc htable hstop =>
    obtain ⟨b, hsettles, hbetween, hdraft⟩ := Body.reads_phrases hps hns
    have hcomma : step (.body (ts.foldl Body.read {})) c = .metadata (.ofBody b) {} := by
      rw [step, hsettles c (by simp [hc]), bodyStep]
      simp only [hc, hbetween, ↓reduceIte]
    rw [List.foldl_append, empty, foldl_step_body hps.inner, List.foldl_cons, hcomma,
      List.foldl_append, foldl_step_table htable, hdraft, List.foldl_cons, List.foldl_nil, step]
    simp only [hstop]
    rfl

end Document

-- ════════════════════════════════════════════════════════════════════════
-- What is read is written
-- ════════════════════════════════════════════════════════════════════════

/-- The draft of the phrases that have been read. -/
def Draft.Written (d : Draft) (ts : List Token) : Prop :=
  ∃ ps ns o, Derives (.phrases ps) ts ∧ Phrase.denoteAll ps {} = some (ns, o) ∧
    d.main = Manuscript.mainOf ns ∧ d.sections = o.sections

/-- What has been read of a document before the end of input. -/
def Document.Derived : Document → List Token → Prop
  | .body b, ts => b.Derived ts
  | .metadata d b, ts => ∃ us c vs, ts = us ++ c :: vs ∧ c.kind = .comma ∧ d.Written us ∧ b.Spelt vs
  | .trailing d table, ts => ∃ us c vs, ts = us ++ c :: vs ∧ c.kind = .comma ∧ d.Written us ∧
      Spells (.value (.table table)) vs
  | .finished _ _, _ => False

namespace Body

variable {b : Body} {t : Token} {ts : List Token}

theorem Derived.written (h : b.Derived ts) (hbetween : b.isBetweenItems) :
    (Draft.ofBody b).Written ts := by
  obtain ⟨o, o', us, vs, ws, p, rfl, hstands, hmode, hp⟩ := h
  obtain ⟨henclosing, hitem⟩ := Bool.and_eq_true_iff.1 hbetween
  rw [hmode] at hitem
  have houter := hstands.outer
  rw [List.isEmpty_iff.1 henclosing] at houter
  cases houter
  cases hp with
  | mark | key => cases hitem
  | @options words tss hrun hwords =>
    cases words with
    | cons => cases hitem
    | nil =>
      cases hwords
      obtain ⟨ps, us, ds, rfl, hps, hns, hdeclares⟩ := hstands.level
      rw [List.isEmpty_iff.1 hitem] at hdeclares
      cases hdeclares
      refine ⟨ps, _, o', ?_, hns, main_eq_mainOf (List.reverse_reverse _).symm, ?_⟩
      · simpa using hps
      · exact hstands.declared.sections

/-- A body that ends without a fault is between two items. -/
theorem Derived.between (h : b.Derived ts) (hmark : ∀ m, b.mode ≠ .reading (.mark m))
    (hclean : (b.finish t).diagnostics = #[]) : b.isBetweenItems := by
  have hsettled := (keeps_closeAll _ t _).eq_empty hclean
  have hsettle : b.mode = .reading .nothing ∧ b.level.declaring.isEmpty := by
    obtain ⟨o, o', us, vs, ws, p, rfl, hstands, hmode, hp⟩ := h
    rw [settle, hmode] at hsettled
    cases p with
    | nothing =>
      dsimp only at hsettled
      split at hsettled
      · next hempty => exact ⟨hmode, hempty⟩
      · simp at hsettled
    | mark m => exact absurd hmode (hmark m)
    | options | key => simp at hsettled
  obtain ⟨hmode, hdeclaring⟩ := hsettle
  have hself : b.settle t = b := by
    rw [settle, hmode]
    exact if_pos hdeclaring
  rw [finish, hself] at hclean
  cases henclosing : b.enclosing with
  | nil =>
    rw [isBetweenItems, henclosing, hmode, hdeclaring]
    rfl
  | cons e es =>
    -- A group that is still open is a fault.
    rw [henclosing, closeAll, hmode] at hclean
    have hopen := (keeps_closeAll _ t es).eq_empty hclean
    simp at hopen

end Body

/-- A block does not end with the input. -/
theorem Block.step_endOfInput (b : Block) {t : Token} (ht : t.kind = .endOfInput) :
    ∃ f, b.step t = .fault f := by
  have hvalue : ∀ around c, value around c t = .fault .expectedValue := by
    intro around c
    rw [value]
    simp only [ht]
  rw [step.eq_def]
  cases b.phase with
  | value entries key => exact ⟨_, hvalue ..⟩
  | item items =>
    simp only [ht]
    exact ⟨_, hvalue ..⟩
  | start | entry | equals | entryEnd | itemEnd =>
    simp only [ht]
    exact ⟨_, rfl⟩

namespace Document

variable {s : Document} {t : Token} {ts : List Token}

theorem derived_empty : empty.Derived [] :=
  ⟨{}, {}, [], [], [], .nothing, rfl,
    ⟨.document, ⟨[], [], [], rfl, .nil, rfl, .nil⟩, Body.matches_empty⟩, rfl,
    Body.derived_nothing⟩

/-- No diagnostic has been made. -/
def Clean (s : Document) : Prop := s.result.2 = []

theorem clean_body_iff {b : Body} : (body b).Clean ↔ b.diagnostics = #[] := by
  simp [Clean, result]

theorem Clean.of_step (h : (s.step t).Clean) : s.Clean := by
  cases s with
  | body b =>
    rw [clean_body_iff]
    rw [step, bodyStep] at h
    refine (b.keeps_resolve t).eq_empty ?_
    split at h
    · refine ((b.resolve t).keeps_finish t).eq_empty ?_
      simpa [Clean, result, Draft.ofBody] using h
    · split at h
      · simpa [Clean, result, Draft.ofBody] using h
      · exact (Body.keeps_take _ t).eq_empty (clean_body_iff.1 h)
    · exact (Body.keeps_take _ t).eq_empty (clean_body_iff.1 h)
  | metadata d b =>
    rw [step] at h
    split at h
    · exact h
    · exact h
    · simp [Clean, result, Draft.report] at h
  | trailing d table =>
    rw [step] at h
    split at h
    · exact h
    · simp [Clean, result, Draft.report] at h
  | finished d table => exact h

/-- A token that is not a fault and not the end of input goes on with the derivation. -/
theorem Derived.step (h : s.Derived ts) (ht : t.kind ≠ .endOfInput) (htext : t.kind.WrittenAs t.text)
    (hclean : (s.step t).Clean) : (s.step t).Derived (ts ++ [t]) := by
  cases s with
  | body b =>
    rw [Document.step, bodyStep] at hclean ⊢
    split at hclean
    · next heq => exact absurd heq ht
    · next hcomma =>
      split at hclean
      · next hbetween =>
        rw [if_pos hbetween]
        have hresolved : (b.resolve t).diagnostics = #[] := by
          simpa [Clean, result, Draft.ofBody] using hclean
        refine ⟨ts, t, [], rfl, hcomma, ?_, .inl ⟨rfl, rfl⟩⟩
        exact (Body.Derived.resolve h hresolved).1.written hbetween
      · next hbetween =>
        rw [if_neg hbetween]
        exact Body.Derived.read h htext (clean_body_iff.1 hclean)
    · exact Body.Derived.read h htext (clean_body_iff.1 hclean)
  | metadata d b =>
    obtain ⟨us, c, vs, rfl, hc, hd, hb⟩ := h
    have hgoes := hb.step htext
    rw [Document.step] at hclean ⊢
    split at hclean
    · next b' hstep =>
      rw [hstep] at hgoes
      exact ⟨us, c, vs ++ [t], by simp, hc, hd, hgoes⟩
    · next table hstep =>
      rw [hstep] at hgoes
      exact ⟨us, c, vs ++ [t], by simp, hc, hd, hgoes⟩
    · simp [Clean, result, Draft.report] at hclean
  | trailing d table =>
    rw [Document.step] at hclean
    split at hclean
    · next heq => exact absurd heq ht
    · simp [Clean, result, Draft.report] at hclean
  | finished d table => exact h.elim

theorem Derived.foldl {us : List Token} (h : s.Derived ts)
    (hus : ∀ u ∈ us, u.kind ≠ .endOfInput ∧ u.kind.WrittenAs u.text)
    (hclean : (us.foldl Document.step s).Clean) : (us.foldl Document.step s).Derived (ts ++ us) := by
  induction us using List.reverseRecOn with
  | nil => simpa using h
  | append_singleton us u ih =>
    obtain ⟨hinit, hlast⟩ := List.forall_mem_append.1 hus
    obtain ⟨hu, hutext⟩ := List.forall_mem_singleton.1 hlast
    rw [List.foldl_append, List.foldl_cons, List.foldl_nil] at hclean ⊢
    rw [← List.append_assoc]
    exact (ih hinit hclean.of_step).step hu hutext hclean

/-- The end of input completes the derivation. -/
theorem Derived.written (h : s.Derived ts) (ht : t.kind = .endOfInput)
    (hclean : (s.step t).Clean) :
    ∃ m : Manuscript, m.Written (ts ++ [t]) ∧ m.tree? = some (s.step t).result.1 := by
  cases s with
  | body b =>
    rw [Document.step, bodyStep] at hclean ⊢
    simp only [ht] at hclean ⊢
    have hfinished : ((b.resolve t).finish t).diagnostics = #[] := by
      simpa [Clean, result, Draft.ofBody] using hclean
    obtain ⟨hresolved, hmark⟩ :=
      Body.Derived.resolve h ((Body.keeps_finish _ t).eq_empty hfinished)
    have hbetween := hresolved.between (fun m hm => by simpa [ht] using hmark m hm) hfinished
    obtain ⟨ps, ns, o, hps, hns, hmain, hsections⟩ := hresolved.written hbetween
    rw [Body.finish_of_between hbetween]
    refine ⟨⟨ps, none⟩, .plain hps ht, ?_⟩
    rw [Manuscript.tree?, hns, Option.map_some, result, hmain, hsections]
  | metadata d b =>
    obtain ⟨f, hfault⟩ := b.step_endOfInput ht
    rw [Document.step, hfault] at hclean
    simp [Clean, result, Draft.report] at hclean
  | trailing d table =>
    obtain ⟨us, c, vs, rfl, hc, ⟨ps, ns, o, hps, hns, hmain, hsections⟩, htable⟩ := h
    rw [Document.step]
    simp only [ht]
    refine ⟨⟨ps, some table⟩, ?_, ?_⟩
    · rw [List.append_assoc]
      exact .withMetadata hps hc htable ht
    · rw [Manuscript.tree?, hns, Option.map_some, result, hmain, hsections]
  | finished d table => exact h.elim

end Document

theorem Tree.written_of_parse {src : Bytes} (h : (Tree.parse src).2 = []) :
    ∃ m : Manuscript, m.Written (Token.scan src) ∧ m.tree? = some (Tree.parse src).1 := by
  obtain ⟨words, stop, hscan, hstop, hwords⟩ := Token.scan_eq src
  have hparse : Tree.parse src = ((words.foldl Document.step .empty).step stop).result := by
    rw [Tree.parse, Tree.ofTokens, hscan, List.foldl_append]
    rfl
  rw [hparse] at h ⊢
  have hclean : ((words.foldl Document.step .empty).step stop).Clean := h
  have hderived := Document.derived_empty.foldl hwords hclean.of_step
  rw [hscan]
  exact hderived.written hstop hclean

/-- A source is read without a diagnostic exactly when it is written by the rules and every mark
stands for something; the tree is then the one that it stands for. -/
theorem Tree.parse_iff_written (src : Bytes) :
    ((Tree.parse src).2 = [] ↔
        ∃ m : Manuscript, m.Written (Token.scan src) ∧ m.tree?.isSome) ∧
      ∀ tree, Tree.parse src = (tree, []) ↔
        ∃ m : Manuscript, m.Written (Token.scan src) ∧ m.tree? = some tree := by
  have hiff : ∀ tree, Tree.parse src = (tree, []) ↔
      ∃ m : Manuscript, m.Written (Token.scan src) ∧ m.tree? = some tree := by
    intro tree
    constructor
    · intro h
      obtain ⟨m, hm, htree⟩ := Tree.written_of_parse (congrArg Prod.snd h)
      rw [h] at htree
      exact ⟨m, hm, htree⟩
    · rintro ⟨m, hm, htree⟩
      exact Document.result_of_written hm htree
  refine ⟨?_, hiff⟩
  constructor
  · intro h
    obtain ⟨m, hm, htree⟩ := Tree.written_of_parse h
    exact ⟨m, hm, Option.isSome_of_eq_some htree⟩
  · rintro ⟨m, hm, htree⟩
    obtain ⟨tree, htree⟩ := Option.isSome_iff_exists.1 htree
    exact congrArg Prod.snd ((hiff tree).2 ⟨m, hm, htree⟩)

end DegreeScore
