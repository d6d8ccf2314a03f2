import DegreeScore.Proofs.Score.Steps
import DegreeScore.Proofs.Score.Words

/-!
# Leaving a group

A group costs exactly the tokens up to the one at which its brackets are balanced, brackets of all
kinds counting alike, whether it is read or given up (`Document.Recovers`). What carries this is the
number of brackets to close (`Body.Within`): a group that is being read has one, a group that is given
up as many as it counts, and each group around it one more.
-/

namespace DegreeScore

-- ════════════════════════════════════════════════════════════════════════
-- Brackets
-- ════════════════════════════════════════════════════════════════════════

namespace Body

variable {t : Token} {g : Grouping}

theorem depthAfter_opening (ht : t.kind = .opening g) (k : Nat) : depthAfter k t = k + 1 := by
  rw [depthAfter, ht]

theorem depthAfter_closing (ht : t.kind = .closing g) (k : Nat) : depthAfter k t = k - 1 := by
  rw [depthAfter, ht]

theorem depthAfter_plain (ht : t.Plain) (k : Nat) : depthAfter k t = k := by
  rw [depthAfter]
  split
  · next g hg => exact absurd ht.opening (by simp [hg, TokenKind.isOpening])
  · next g hg => exact absurd ht.closing (by simp [hg, TokenKind.isClosing])
  · rfl

end Body

/-- A token opens a group, closes one or is no bracket. -/
theorem Token.bracket_cases (t : Token) :
    (∃ g, t.kind = .opening g) ∨ (∃ g, t.kind = .closing g) ∨ t.Plain := by
  cases hkind : t.kind with
  | opening g => exact .inl ⟨g, rfl⟩
  | closing g => exact .inr (.inl ⟨g, rfl⟩)
  | _ => exact .inr (.inr ⟨by rw [hkind]; rfl, by rw [hkind]; rfl⟩)

namespace Token

/-- The number of opening brackets among these tokens. -/
def openings (ts : List Token) : Nat := ts.countP (·.kind.isOpening)

/-- The number of closing brackets among these tokens. -/
def closings (ts : List Token) : Nat := ts.countP (·.kind.isClosing)

/-- At none of these tokens are the brackets so far balanced. -/
def Unclosed (ts : List Token) : Prop :=
  ∀ us vs, ts = us ++ vs → us ≠ [] → openings us ≠ closings us

/-- The brackets of these tokens are balanced at the last of them and at no token before it. -/
structure Balanced (ts : List Token) : Prop where
  nonempty : ts ≠ []
  even : openings ts = closings ts
  first : ∀ us vs, ts = us ++ vs → us ≠ [] → vs ≠ [] → openings us ≠ closings us

/-- A token that opens no group, or a whole group. -/
inductive Item : List Token → Prop
  | token {t : Token} (ht : t.kind.isOpening = false) : Item [t]
  | group {t : Token} {ts : List Token} (ht : t.kind.isOpening = true) (h : Balanced (t :: ts)) :
      Item (t :: ts)

variable {ts us : List Token} {t : Token} {k : Nat}

theorem openings_append (ts us : List Token) : openings (ts ++ us) = openings ts + openings us :=
  List.countP_append

theorem closings_append (ts us : List Token) : closings (ts ++ us) = closings ts + closings us :=
  List.countP_append

theorem Unclosed.of_append (h : Unclosed (ts ++ us)) : Unclosed ts := by
  rintro vs ws rfl
  exact h vs (ws ++ us) (List.append_assoc ..)

theorem balanced_iff (ts : List Token) :
    Balanced ts ↔ ts ≠ [] ∧ openings ts = closings ts ∧
      ∀ n < ts.length, 0 < n → openings (ts.take n) ≠ closings (ts.take n) := by
  constructor
  · rintro ⟨hne, heven, hfirst⟩
    refine ⟨hne, heven, fun n hn hpos => ?_⟩
    refine hfirst _ _ (List.take_append_drop n ts).symm ?_ ?_
    · rw [← List.length_pos_iff, List.length_take]
      omega
    · rw [← List.length_pos_iff, List.length_drop]
      omega
  · rintro ⟨hne, heven, hfirst⟩
    refine ⟨hne, heven, ?_⟩
    rintro us vs rfl hus hvs
    have hpos := List.length_pos_iff.2 hus
    have hpos' := List.length_pos_iff.2 hvs
    have hproper := hfirst us.length (by rw [List.length_append]; omega) hpos
    rwa [List.take_left] at hproper

instance (ts : List Token) : Decidable (Balanced ts) := decidable_of_iff _ (balanced_iff ts).symm

/-- What stands before the last token of a balanced group is not balanced. -/
theorem Balanced.unclosed (h : Balanced (ts ++ [t])) : Unclosed ts := by
  rintro vs ws rfl hvs
  exact h.first vs (ws ++ [t]) (List.append_assoc ..) hvs (by simp)

theorem Plain.of_endOfInput (ht : t.kind = .endOfInput) : t.Plain :=
  ⟨by rw [ht]; rfl, by rw [ht]; rfl⟩

/-- A group does not end with the end of input. -/
theorem Balanced.not_endOfInput {stop : Token} (h : Balanced (t :: (ts ++ [stop]))) :
    stop.kind ≠ .endOfInput := by
  intro hstop
  have hplain := Plain.of_endOfInput hstop
  refine h.first (t :: ts) [stop] rfl (List.cons_ne_nil _ _) (List.cons_ne_nil _ _) ?_
  have heven := h.even
  rw [← List.cons_append, openings_append, closings_append] at heven
  simpa [openings, closings, hplain.opening, hplain.closing] using heven

theorem isClosing_of_isOpening (ht : t.kind.isOpening = true) : t.kind.isClosing = false := by
  rcases t.bracket_cases with ⟨g, hg⟩ | ⟨g, hg⟩ | hplain
  · rw [hg]
    rfl
  · rw [hg] at ht
    cases ht
  · exact hplain.closing

/-- A group has a last token after the one that opens it. -/
theorem Balanced.exists_last (h : Balanced (t :: us)) (ht : t.kind.isOpening = true) :
    ∃ init u, us = init ++ [u] := by
  refine (List.eq_nil_or_concat' us).resolve_left ?_
  rintro rfl
  have heven := h.even
  simp [openings, closings, ht, isClosing_of_isOpening ht] at heven

theorem Balanced.isPrefix {words vs : List Token} {stop : Token} (h : Balanced (t :: us))
    (hstop : stop.kind = .endOfInput) (huv : words ++ [stop] = us ++ vs) : us <+: words := by
  refine (List.prefix_concat_iff.1 ⟨vs, huv.symm⟩).resolve_left ?_
  rintro rfl
  exact h.not_endOfInput hstop

/-- In the tokens of a source a token is the end of input if it is the last one, and the end of input
comes after it otherwise. -/
theorem scan_cases {src : Bytes} {before rest : List Token} (h : scan src = before ++ t :: rest) :
    (t.kind = .endOfInput ∧ rest = []) ∨ (t.kind ≠ .endOfInput ∧ ∃ words stop,
      rest = words ++ [stop] ∧ stop.kind = .endOfInput ∧ ∀ u ∈ words, u.kind ≠ .endOfInput) := by
  obtain ⟨ws, stop, hscan, hstop, hws⟩ := scan_eq src
  have heq := h.symm.trans hscan
  rcases List.eq_nil_or_concat' rest with rfl | ⟨words, u, rfl⟩
  · obtain ⟨-, hlast⟩ := List.append_inj' heq rfl
    obtain rfl := List.singleton_inj.1 hlast
    exact .inl ⟨hstop, rfl⟩
  · rw [← List.cons_append, ← List.append_assoc] at heq
    obtain ⟨rfl, hlast⟩ := List.append_inj' heq rfl
    obtain rfl := List.singleton_inj.1 hlast
    exact .inr ⟨(hws t (by simp)).1, words, u, rfl, hstop, fun v hv => (hws v (by simp [hv])).1⟩

/-- The brackets to close are counted token by token. -/
theorem openings_concat (hk : 0 < k) (h : openings ts = closings ts + k) (t : Token) :
    openings (ts ++ [t]) = closings (ts ++ [t]) + Body.depthAfter k t := by
  have hopening : openings [t] = if t.kind.isOpening then 1 else 0 := List.countP_singleton
  have hclosing : closings [t] = if t.kind.isClosing then 1 else 0 := List.countP_singleton
  rw [openings_append, closings_append, hopening, hclosing]
  rcases t.bracket_cases with ⟨g, hg⟩ | ⟨g, hg⟩ | hplain
  · rw [Body.depthAfter_opening hg, hg]
    change _ + 1 = _ + 0 + _
    omega
  · rw [Body.depthAfter_closing hg, hg]
    change _ + 0 = _ + 1 + _
    omega
  · rw [Body.depthAfter_plain hplain, hplain.opening, hplain.closing]
    exact h

end Token

namespace Document

variable {before us : List Token} {t : Token} {P : Nat → Document → Prop}

/-- What holds for one bracket to close, and is kept while there are some, holds after every token of
a group for the brackets that are open then. -/
theorem unclosed_induction
    (hstep : ∀ k s t, 0 < k → t.kind ≠ .endOfInput → P k s → P (Body.depthAfter k t) (s.step t))
    (ht : t.kind.isOpening = true) (hus : ∀ u ∈ us, u.kind ≠ .endOfInput)
    (hfirst : P 1 (after (before ++ [t]))) (h : Token.Unclosed (t :: us)) :
    ∃ k, 0 < k ∧ Token.openings (t :: us) = Token.closings (t :: us) + k ∧
      P k (after (before ++ t :: us)) := by
  induction us using List.reverseRecOn with
  | nil =>
    refine ⟨1, Nat.one_pos, ?_, hfirst⟩
    simp [Token.openings, Token.closings, ht, Token.isClosing_of_isOpening ht]
  | append_singleton us u ih =>
    obtain ⟨hinit, hlast⟩ := List.forall_mem_append.1 hus
    rw [← List.cons_append] at h
    obtain ⟨k, hk, hcount, hP⟩ := ih hinit h.of_append
    have hcount' := Token.openings_concat hk hcount u
    have hne := h (t :: us ++ [u]) [] (by simp) (by simp)
    refine ⟨Body.depthAfter k u, by omega, by simpa using hcount', ?_⟩
    rw [append_cons_concat, after_concat]
    exact hstep k _ u hk (hlast u (by simp)) hP

/-- At the end of a group no bracket is left to close. -/
theorem balanced_induction
    (hstep : ∀ k s t, 0 < k → t.kind ≠ .endOfInput → P k s → P (Body.depthAfter k t) (s.step t))
    (ht : t.kind.isOpening = true) (hus : ∀ u ∈ us, u.kind ≠ .endOfInput)
    (hfirst : P 1 (after (before ++ [t]))) (h : Token.Balanced (t :: us)) :
    P 0 (after (before ++ t :: us)) := by
  obtain ⟨us, u, rfl⟩ := h.exists_last ht
  obtain ⟨hinit, hlast⟩ := List.forall_mem_append.1 hus
  have hunclosed : Token.Unclosed (t :: us) := Token.Balanced.unclosed (t := u) (by simpa using h)
  obtain ⟨k, hk, hcount, hP⟩ := unclosed_induction hstep ht hinit hfirst hunclosed
  have hcount' := Token.openings_concat hk hcount u
  have heven := h.even
  have hzero : Body.depthAfter k u = 0 := by
    rw [← List.cons_append] at heven
    omega
  rw [append_cons_concat, after_concat, ← hzero]
  exact hstep k _ u hk (hlast u (by simp)) hP

end Document

-- ════════════════════════════════════════════════════════════════════════
-- Inside a group
-- ════════════════════════════════════════════════════════════════════════

/-- The brackets that have to be closed for the current group to be left. -/
def Mode.unclosed : Mode → Nat
  | .abandoning depth _ => depth
  | _ => 1

/-- In a group no item of the document is given up; a group that is given up has brackets to close
and a diagnostic whose node replaces it. -/
def Mode.InGroup (diagnostics : Array Diagnostic) : Mode → Prop
  | .reading _ => True
  | .abandoning depth failure => 0 < depth ∧ ∃ x ∈ diagnostics, failure = x.node
  | .skipping _ => False

/-- The node is the group itself or stands for a fault in it. -/
def Enclosing.Becomes (e : Enclosing) (n : Node) (diagnostics : Array Diagnostic) : Prop :=
  (∃ children, n = .group e.grouping children e.options) ∨ ∃ x ∈ diagnostics, n = x.node

namespace Body

/-- `d` has completed `n` where `c` stood, after more sections and diagnostics. -/
def Leaves (c : Body) (n : Node) (d : Body) : Prop :=
  ∃ sections diagnostics, c.sections.toList <+: sections.toList ∧
    c.diagnostics.toList <+: diagnostics.toList ∧ d.diagnostics = diagnostics ∧
    d = complete { c with sections, diagnostics } n

/-- In `d` the group that was opened in `c`, with `e` around it, is open and `k` brackets have to be
closed for it to be left; `inner` are the levels inside the group that are around the current one. -/
structure Within (c : Body) (e : Enclosing) (inner : List Enclosing) (k : Nat) (d : Body) :
    Prop where
  level : e.level = c.level
  enclosing : d.enclosing = inner ++ e :: c.enclosing
  unclosed : inner.length + d.mode.unclosed = k
  mode : d.mode.InGroup d.diagnostics
  sections : c.sections.toList <+: d.sections.toList
  diagnostics : c.diagnostics.toList <+: d.diagnostics.toList

/-- Where a token of the group leads: out of it, when no bracket is left to close. -/
inductive Reaches (c : Body) (e : Enclosing) : Nat → Body → Prop
  | left {n : Node} {d : Body} (hn : e.Becomes n d.diagnostics) (h : c.Leaves n d) : Reaches c e 0 d
  | within {inner : List Enclosing} {k : Nat} {d : Body} (hk : 0 < k)
      (h : c.Within e inner k d) : Reaches c e k d

variable {b c d : Body} {e : Enclosing} {inner : List Enclosing} {k : Nat} {t : Token}

theorem within_enter (c : Body) (g : Grouping) (o : Option Options) :
    c.Within ⟨c.level, g, o⟩ [] 1 (c.enter g o) :=
  ⟨rfl, rfl, rfl, trivial, List.prefix_refl _, List.prefix_refl _⟩

namespace Within

/-- A node is completed in the group. -/
theorem complete {p : Progress} (h : c.Within e inner k d) (hmode : d.mode = .reading p) (n : Node) :
    c.Within e inner k (d.complete n) := by
  refine ⟨h.level, by rw [enclosing_complete, h.enclosing], ?_, trivial,
    h.sections.trans (d.sections_complete n), by simpa using h.diagnostics⟩
  have hunclosed := h.unclosed
  rw [hmode] at hunclosed
  exact hunclosed

/-- A fault gives up the current group. -/
theorem report {p : Progress} (h : c.Within e inner k d) (hmode : d.mode = .reading p)
    (x : Diagnostic) : c.Within e inner k (d.report x) ∧
      (d.report x).mode = .abandoning 1 x.node := by
  obtain ⟨e', es, hes⟩ : ∃ e' es, d.enclosing = e' :: es := by
    rw [h.enclosing]
    cases inner <;> exact ⟨_, _, rfl⟩
  have hunclosed := h.unclosed
  rw [hmode] at hunclosed
  refine ⟨⟨h.level, by rw [enclosing_report, h.enclosing], ?_, ?_, by simpa using h.sections, ?_⟩, ?_⟩
  · rw [report_of_group hes]
    exact hunclosed
  · rw [report_of_group hes]
    exact ⟨Nat.one_pos, x, by simp, rfl⟩
  · rw [diagnostics_report, Array.toList_push]
    exact h.diagnostics.trans (List.prefix_append ..)
  · rw [report_of_group hes]

/-- The group is left if nothing inside it is open. -/
theorem leave_nil (h : c.Within e [] k d) (make : Enclosing → Node) :
    c.Leaves (make e) (d.leave make) := by
  rw [leave_of_enclosing h.enclosing]
  refine ⟨d.sections, d.diagnostics, h.sections, h.diagnostics, by simp, ?_⟩
  rw [← complete_withMode { c with sections := d.sections, diagnostics := d.diagnostics } _ d.mode,
    h.level]

/-- A group inside the group is left. -/
theorem leave_cons {e' : Enclosing} (h : c.Within e (e' :: inner) k d) (make : Enclosing → Node) :
    c.Within e inner (inner.length + 1) (d.leave make) := by
  rw [leave_of_enclosing h.enclosing]
  refine ⟨h.level, by simp, rfl, trivial, h.sections.trans ?_, by simpa using h.diagnostics⟩
  exact sections_complete { d with level := e'.level, enclosing := inner ++ e :: c.enclosing } (make e')

theorem leave {make : Enclosing → Node} (h : c.Within e inner k d)
    (hmake : e.Becomes (make e) d.diagnostics) : c.Reaches e inner.length (d.leave make) := by
  cases inner with
  | nil => exact .left (by simpa using hmake) (h.leave_nil make)
  | cons e' es => exact .within (Nat.succ_pos _) (h.leave_cons make)

/-- A token of a group that is given up. -/
theorem abandon {depth : Nat} {failure : Node} (h : c.Within e inner k d)
    (hmode : d.mode = .abandoning depth failure) (t : Token) :
    c.Reaches e (depthAfter k t) (d.abandon depth failure t) := by
  have hin := h.mode
  have hunclosed := h.unclosed
  rw [hmode] at hin hunclosed
  obtain ⟨hpos, hfailure⟩ := hin
  have hk : depthAfter k t = inner.length + depthAfter depth t := by
    rw [← hunclosed, Mode.unclosed]
    rcases t.bracket_cases with ⟨g, hg⟩ | ⟨g, hg⟩ | hplain
    · rw [depthAfter_opening hg, depthAfter_opening hg, Nat.add_assoc]
    · rw [depthAfter_closing hg, depthAfter_closing hg, Nat.add_sub_assoc hpos]
    · rw [depthAfter_plain hplain, depthAfter_plain hplain]
  rw [Body.abandon, hk]
  split
  · next hzero =>
    rw [hzero]
    exact h.leave (.inr hfailure)
  · next hne =>
    have hpos' := Nat.pos_of_ne_zero hne
    exact .within (Nat.add_pos_right _ hpos')
      ⟨h.level, h.enclosing, rfl, ⟨hpos', hfailure⟩, h.sections, h.diagnostics⟩

theorem settling (h : c.Within e inner k b) (hd : b.Settling t d) : c.Within e inner k d := by
  cases hd with
  | none => exact h
  | insert hmode => exact h.complete hmode _
  | undefined hmode => exact (h.report hmode _).1

theorem taking (h : c.Within e inner k b) (hd : b.Taking t d) :
    c.Reaches e (depthAfter k t) d := by
  have hpos : ∀ {p : Progress}, b.mode = .reading p → k = inner.length + 1 := by
    intro p hmode
    have hunclosed := h.unclosed
    rw [hmode] at hunclosed
    exact hunclosed.symm
  cases hd with
  | wait hmode ht =>
    have hk := hpos hmode
    rw [depthAfter_plain ht]
    exact .within (by omega) ⟨h.level, h.enclosing, hk.symm, trivial, h.sections, h.diagnostics⟩
  | declare hmode ht =>
    have hk := hpos hmode
    rw [depthAfter_plain ⟨by rw [ht]; rfl, by rw [ht]; rfl⟩]
    exact .within (by omega) ⟨h.level, h.enclosing, hk.symm, trivial, h.sections, h.diagnostics⟩
  | complete hmode ht =>
    have hk := hpos hmode
    rw [depthAfter_plain ht]
    exact .within (by omega) (h.complete hmode _)
  | @enter p g o hmode ht =>
    have hk := hpos hmode
    rw [depthAfter_opening ht]
    have hwithin : c.Within e (⟨b.level, g, o⟩ :: inner) (k + 1) (b.enter g o) := by
      refine ⟨h.level, ?_, ?_, trivial, h.sections, h.diagnostics⟩
      · rw [Body.enter, h.enclosing, List.cons_append]
      · rw [List.length_cons, hk]
        rfl
    exact .within (Nat.succ_pos k) hwithin
  | @close e' es hmode ht henclosing =>
    rw [depthAfter_closing ht, hpos hmode, Nat.add_sub_cancel]
    exact h.leave (.inl ⟨_, rfl⟩)
  | @reject p fault hmode =>
    obtain ⟨hreport, hmode'⟩ := h.report hmode ⟨t, fault⟩
    have hreject : b.reject t fault =
        (b.report ⟨t, fault⟩).abandon 1 (Diagnostic.node ⟨t, fault⟩) t := by
      rw [Body.reject, hmode']
    rw [hreject]
    exact hreport.abandon hmode' t
  | abandon hmode => exact h.abandon hmode t
  | skip hmode =>
    have hin := h.mode
    rw [hmode] at hin
    exact hin.elim

/-- A token either leaves the group or is read inside it, as the brackets say. -/
theorem read (h : c.Within e inner k b) (t : Token) : c.Reaches e (depthAfter k t) (b.read t) :=
  (h.settling (b.settling_resolve t)).taking (b.taking_read t)

/-- At the end of input the current group is given up, for a fault in it or because it is open. -/
theorem closeAll_cons (h : c.Within e inner k b) (t : Token) (e' : Enclosing)
    (es : List Enclosing) :
    ∃ d, c.Within e inner k d ∧ ∃ x ∈ d.diagnostics,
      Body.closeAll t (e' :: es) b = Body.closeAll t es (d.leave fun _ => x.node) := by
  cases hmode : b.mode with
  | abandoning depth failure =>
    have hin := h.mode
    rw [hmode] at hin
    obtain ⟨-, x, hx, rfl⟩ := hin
    refine ⟨b, h, x, hx, ?_⟩
    rw [Body.closeAll, hmode]
  | reading p =>
    refine ⟨{ b with diagnostics := b.diagnostics.push ⟨t, .unclosed e'.grouping⟩ },
      ⟨h.level, h.enclosing, h.unclosed, ?_, h.sections, ?_⟩, ⟨t, .unclosed e'.grouping⟩, by simp, ?_⟩
    · rw [hmode]
      trivial
    · rw [Array.toList_push]
      exact h.diagnostics.trans (List.prefix_append ..)
    · rw [Body.closeAll, hmode]
  | skipping depth =>
    have hin := h.mode
    rw [hmode] at hin
    exact hin.elim

/-- At the end of input the group is given up after those inside it. -/
theorem closeAll (h : c.Within e inner k b) (t : Token) :
    ∃ d, ∃ x ∈ d.diagnostics, c.Leaves x.node d ∧
      Body.closeAll t b.enclosing b = Body.closeAll t c.enclosing d := by
  rw [h.enclosing]
  induction inner generalizing k b with
  | nil =>
    obtain ⟨d, hd, x, hx, hclose⟩ := h.closeAll_cons t e c.enclosing
    exact ⟨d.leave fun _ => x.node, x, by simpa using hx, hd.leave_nil _, hclose⟩
  | cons e' es ih =>
    obtain ⟨d, hd, x, -, hclose⟩ := h.closeAll_cons t e' (es ++ e :: c.enclosing)
    rw [List.cons_append, hclose]
    exact ih (hd.leave_cons _)

/-- What is unfinished in the group when no more tokens come. -/
theorem settle (h : c.Within e inner k b) (t : Token) : c.Within e inner k (b.settle t) := by
  rw [Body.settle.eq_def]
  split
  · next hmode =>
    split
    · exact h
    · exact (h.report hmode _).1
  · next hmode => exact (h.report hmode _).1
  · next hmode => exact (h.report hmode _).1
  · exact h

theorem finish (h : c.Within e inner k b) (t : Token) :
    ∃ d, ∃ x ∈ d.diagnostics, c.Leaves x.node d ∧ b.finish t = Body.closeAll t c.enclosing d :=
  (h.settle t).closeAll t

end Within

end Body

namespace Document

/-- How a group is read that `t` opens in `c`, with `e` around it, when the tokens `before` have been
read and `rest` comes after `t`. -/
structure Recovers (before : List Token) (t : Token) (rest : List Token) (c : Body) (e : Enclosing) :
    Prop where
  level : e.level = c.level
  opening : t.kind = .opening e.grouping
  /-- The group is open as long as its brackets are not balanced. -/
  within : ∀ us vs, rest = us ++ vs → vs ≠ [] → Token.Unclosed (t :: us) →
    ∃ d, after (before ++ t :: us) = .body d ∧ e :: c.enclosing <:+ d.enclosing
  /-- The group is left with the token at which its brackets are balanced. -/
  balanced : ∀ us vs, rest = us ++ vs → Token.Balanced (t :: us) →
    ∃ d n, after (before ++ t :: us) = .body d ∧ e.Becomes n d.diagnostics ∧ c.Leaves n d
  /-- A group whose brackets are never balanced is given up at the end of input. -/
  unclosed : Token.Unclosed (t :: rest) →
    ∃ stop ∈ rest, stop.kind = .endOfInput ∧ ∃ d, ∃ x ∈ d.diagnostics, c.Leaves x.node d ∧
      after (before ++ t :: rest) = .finished (.ofBody (Body.closeAll stop c.enclosing d)) none

variable {before rest : List Token} {t : Token} {b c : Body} {e : Enclosing}

theorem step_within {inner : List Enclosing} {k : Nat} (h : c.Within e inner k b)
    (ht : t.kind ≠ .endOfInput) : step (.body b) t = .body (b.read t) := by
  refine step_body ht fun _ => ?_
  have henclosing := (h.settling (b.settling_resolve t)).enclosing
  rw [Body.isBetweenItems, henclosing]
  cases inner <;> rfl

/-- In a group that `k` brackets close, or out of it if there is none to close. -/
def Inside (c : Body) (e : Enclosing) (k : Nat) (s : Document) : Prop :=
  ∃ d, s = .body d ∧ c.Reaches e k d

theorem inside_step (k : Nat) (s : Document) (t : Token) (hk : 0 < k) (ht : t.kind ≠ .endOfInput)
    (h : Inside c e k s) : Inside c e (Body.depthAfter k t) (s.step t) := by
  obtain ⟨d, rfl, hd⟩ := h
  cases hd with
  | left => exact absurd hk (Nat.lt_irrefl 0)
  | within _ hd => exact ⟨d.read t, step_within hd ht, hd.read t⟩

theorem step_endOfInput (ht : t.kind = .endOfInput) :
    step (.body b) t = .finished (.ofBody ((b.resolve t).finish t)) none := by
  rw [step, bodyStep, ht]

/-- Every group that a token opens is read as it should be. -/
theorem recovers_of_enter {src : Bytes} (hscan : Token.scan src = before ++ t :: rest)
    (hb : after before = .body b) (hd : after (before ++ [t]) = .body d)
    (he : d.enclosing = e :: b.enclosing) : Recovers before t rest (b.resolve t) e := by
  obtain ⟨rfl, ht⟩ := read_of_after hb hd
  obtain ⟨-, words, stop, rfl, hstop, hwords⟩ :=
    (Token.scan_cases hscan).resolve_left fun h => ht h.1
  rw [← b.enclosing_resolve t] at he
  obtain ⟨hopening, hlevel, henter⟩ := (b.taking_read t).opening he
  have hkind : t.kind.isOpening = true := by
    rw [hopening]
    rfl
  have hfirst : Inside (b.resolve t) e 1 (after (before ++ [t])) := by
    have hself : e = ⟨(b.resolve t).level, e.grouping, e.options⟩ := by rw [← hlevel]
    have hwithin : (b.resolve t).Within e [] 1 (b.read t) := by
      rw [henter, hself]
      exact Body.within_enter ..
    exact ⟨_, hd, .within Nat.one_pos hwithin⟩
  refine ⟨hlevel, hopening, fun us vs huv hvs hunclosed => ?_, fun us vs huv hbalanced => ?_,
    fun hunclosed => ?_⟩
  · have hus : us <+: words := by
      refine (List.prefix_concat_iff.1 ⟨vs, huv.symm⟩).resolve_left ?_
      rintro rfl
      exact hvs (List.append_right_eq_self.1 huv.symm)
    obtain ⟨k, hk, -, d, hd, hreaches⟩ :=
      unclosed_induction inside_step hkind (fun u hu => hwords u (hus.subset hu)) hfirst hunclosed
    cases hreaches with
    | left => exact absurd hk (Nat.lt_irrefl 0)
    | within _ hwithin => exact ⟨d, hd, _, hwithin.enclosing.symm⟩
  · have hus := hbalanced.isPrefix hstop huv
    obtain ⟨d, hd, hreaches⟩ :=
      balanced_induction inside_step hkind (fun u hu => hwords u (hus.subset hu)) hfirst hbalanced
    cases hreaches with
    | left hn hleaves => exact ⟨d, _, hd, hn, hleaves⟩
    | within hk => exact absurd hk (Nat.lt_irrefl 0)
  · obtain ⟨k, hk, -, d, hd, hreaches⟩ :=
      unclosed_induction inside_step hkind hwords hfirst (Token.Unclosed.of_append hunclosed)
    cases hreaches with
    | left => exact absurd hk (Nat.lt_irrefl 0)
    | within _ hwithin =>
      obtain ⟨d', x, hx, hleaves, hfinish⟩ :=
        (hwithin.settling (d.settling_resolve stop)).finish stop
      refine ⟨stop, by simp, hstop, d', x, hx, hleaves, ?_⟩
      rw [append_cons_concat, after_concat, hd, step_endOfInput hstop, hfinish]

end Document

end DegreeScore
