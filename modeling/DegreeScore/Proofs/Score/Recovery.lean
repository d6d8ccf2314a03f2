import DegreeScore.Proofs.Score.Groups
import DegreeScore.Proofs.Score.Language

/-!
# Recovery from faults

A group in which there is a fault is left where a group without one is (`Document.Recovers`). An item
of the document that is given up costs one balanced item from the token at fault on, and nothing more
if the fault is a mark that is not defined (`Document.Resumes`). Every item takes a token, so there
are no more items than tokens.
-/

namespace DegreeScore

-- ════════════════════════════════════════════════════════════════════════
-- Items of the document
-- ════════════════════════════════════════════════════════════════════════

namespace Document

variable {before rest : List Token} {t stop : Token} {b r : Body}

/-- How reading goes on after a fault in the document, when the tokens `before` have been read with
`b` for the result and `rest` comes after `t`. -/
structure Resumes (before : List Token) (t : Token) (rest : List Token) (b : Body) : Prop where
  /-- A mark that is not defined costs nothing more, so that `t` comes between two items. -/
  mark : (b.resolve t).diagnostics ≠ b.diagnostics →
    ∃ m, b.mode = .reading (.mark m) ∧ b.resolve t = b.report ⟨m, .undefinedMark⟩ ∧
      (b.resolve t).isBetweenItems ∧ step (.body b) t = step (.body (b.resolve t)) t
  /-- A fault of `t` costs the item that begins with `t`. -/
  item : ∀ d, after (before ++ [t]) = .body d → d.diagnostics ≠ (b.resolve t).diagnostics →
    ∃ x, x.token = t ∧ ((b.resolve t).report x).isBetweenItems ∧
      (∀ us vs, rest = us ++ vs → Token.Item (t :: us) →
        after (before ++ t :: us) = .body ((b.resolve t).report x)) ∧
      (t.kind.isOpening = true → Token.Unclosed (t :: rest) →
        after (before ++ t :: rest) = .finished (.ofBody ((b.resolve t).report x)) none)
  /-- After the end of input there is nothing to give up. -/
  stop : t.kind = .endOfInput → ∃ d, after (before ++ [t]) = .finished (.ofBody d) none ∧
    (d = b.resolve t ∨ ∃ x, x.token = t ∧ d = (b.resolve t).report x)

/-- An item that is given up, with `k` brackets to close, or past it if there is none. -/
def SkippedTo (r : Body) (k : Nat) (s : Document) : Prop :=
  s = .body (if k = 0 then r else { r with mode := .skipping k })

theorem skip_eq (hr : r.mode = .reading .nothing) (mode : Mode) (k : Nat) (t : Token) :
    Body.skip { r with mode } k t = if Body.depthAfter k t = 0 then r
      else { r with mode := .skipping (Body.depthAfter k t) } := by
  rw [Body.skip]
  split
  · next hzero => rw [if_pos hzero, Body.ready, ← hr]
  · next hne => rw [if_neg hne]

theorem skippedTo_step (hr : r.mode = .reading .nothing) (k : Nat) (s : Document) (t : Token)
    (hk : 0 < k) (ht : t.kind ≠ .endOfInput) (h : SkippedTo r k s) :
    SkippedTo r (Body.depthAfter k t) (s.step t) := by
  rw [SkippedTo, if_neg (Nat.ne_of_gt hk)] at h
  have hself : Body.resolve { r with mode := .skipping k } t = { r with mode := .skipping k } :=
    Body.resolve_of_ne_mark (fun m hm => by cases hm) t
  rw [SkippedTo, h, step_body ht, Body.read, hself]
  · exact congrArg _ (skip_eq hr _ k t)
  · intro _
    rw [hself, Body.isBetweenItems, Bool.and_false]

theorem isBetweenItems_report (hb : b.enclosing = []) (x : Diagnostic) :
    (b.report x).isBetweenItems := by
  rw [Body.report_of_document hb, Body.isBetweenItems, hb]
  rfl

/-- A fault in the document costs the item that begins with the token at fault. -/
theorem resumes_of_reject {words : List Token} {fault : ScoreFault} (hb : b.enclosing = [])
    (hd : after (before ++ [t]) = .body (b.reject t fault)) (hstop : stop.kind = .endOfInput)
    (hwords : ∀ u ∈ words, u.kind ≠ .endOfInput) :
    (∀ us vs, words ++ [stop] = us ++ vs → Token.Item (t :: us) →
        after (before ++ t :: us) = .body (b.report ⟨t, fault⟩)) ∧
      (t.kind.isOpening = true → Token.Unclosed (t :: (words ++ [stop])) →
        after (before ++ t :: (words ++ [stop])) =
          .finished (.ofBody (b.report ⟨t, fault⟩)) none) := by
  rw [Body.reject_of_document hb] at hd
  have hmode : (b.report ⟨t, fault⟩).mode = .reading .nothing := by rw [Body.report_of_document hb]
  have henclosing : (b.report ⟨t, fault⟩).enclosing = [] := by rw [Body.enclosing_report, hb]
  generalize b.report ⟨t, fault⟩ = r at hd hmode henclosing ⊢
  have hskip := skip_eq hmode r.mode 0 t
  have hfirst : t.kind.isOpening = true → SkippedTo r 1 (after (before ++ [t])) := by
    intro ht
    rcases t.bracket_cases with ⟨g, hg⟩ | ⟨g, hg⟩ | hplain
    · rw [hd, hskip, Body.depthAfter_opening hg]
      rfl
    · rw [hg] at ht
      cases ht
    · rw [hplain.opening] at ht
      cases ht
  refine ⟨fun us vs huv hitem => ?_, fun ht hunclosed => ?_⟩
  · cases hitem with
    | token ht =>
      have hzero : Body.depthAfter 0 t = 0 := by
        rcases t.bracket_cases with ⟨g, hg⟩ | ⟨g, hg⟩ | hplain
        · rw [hg] at ht
          cases ht
        · exact Body.depthAfter_closing hg 0
        · exact Body.depthAfter_plain hplain 0
      rw [hd, hskip, if_pos hzero]
    | group ht hbalanced =>
      have hus := hbalanced.isPrefix hstop huv
      exact balanced_induction (skippedTo_step hmode) ht (fun u hu => hwords u (hus.subset hu))
        (hfirst ht) hbalanced
  · obtain ⟨k, hk, -, hreached⟩ := unclosed_induction (skippedTo_step hmode) ht hwords (hfirst ht)
      (Token.Unclosed.of_append hunclosed)
    rw [SkippedTo, if_neg (Nat.ne_of_gt hk)] at hreached
    have hself : Body.resolve { r with mode := .skipping k } stop = { r with mode := .skipping k } :=
      Body.resolve_of_ne_mark (fun m hm => by cases hm) stop
    rw [append_cons_concat, after_concat, hreached, step_endOfInput hstop, hself,
      Body.finish, Body.settle]
    change Document.finished (.ofBody (Body.closeAll stop r.enclosing _)) none = _
    rw [henclosing]
    rfl

/-- When the end of input comes in the document, at most the node that is begun is at fault. -/
theorem finish_of_document (hb : b.enclosing = []) (t : Token) :
    b.finish t = b ∨ ∃ x : Diagnostic, x.token = t ∧ b.finish t = b.report x := by
  have hsettle : b.settle t = b ∨ ∃ x : Diagnostic, x.token = t ∧ b.settle t = b.report x := by
    rw [Body.settle]
    split
    · split
      · exact .inl rfl
      · exact .inr ⟨_, rfl, rfl⟩
    · exact .inr ⟨_, rfl, rfl⟩
    · exact .inr ⟨_, rfl, rfl⟩
    · exact .inl rfl
  have hclose : b.finish t = b.settle t := by
    have henclosing : (b.settle t).enclosing = [] := by
      rcases hsettle with h | ⟨x, -, h⟩ <;> simp [h, hb]
    rw [Body.finish, henclosing]
    rfl
  rw [hclose]
  exact hsettle

/-- After every fault in the document reading goes on as it should. -/
theorem resumes_of_document {src : Bytes} (hscan : Token.scan src = before ++ t :: rest)
    (hb : after before = .body b) (hdocument : b.enclosing = []) : Resumes before t rest b := by
  have hresolved : (b.resolve t).enclosing = [] := by rw [Body.enclosing_resolve, hdocument]
  refine ⟨fun hne => ?_, fun d hd hne => ?_, fun ht => ?_⟩
  · have hsettling := b.settling_resolve t
    generalize hd : b.resolve t = d at hsettling hne ⊢
    cases hsettling with
    | none => exact absurd rfl hne
    | insert => exact absurd (by simp) hne
    | @undefined m hmode ht hnone =>
      refine ⟨m, hmode, rfl, isBetweenItems_report hdocument _, ?_⟩
      have hself := Body.resolve_of_ne_mark (b := b.report ⟨m, .undefinedMark⟩) (t := t)
        (by rw [Body.report_of_document hdocument]; simp)
      rw [step, step, hd, hself]
  · obtain ⟨rfl, ht⟩ := read_of_after hb hd
    obtain ⟨-, words, stop, rfl, hstop, hwords⟩ :=
      (Token.scan_cases hscan).resolve_left fun h => ht h.1
    obtain ⟨fault, hreject⟩ := (b.taking_read t).rejects hne
    rw [hreject] at hd
    exact ⟨⟨t, fault⟩, rfl, isBetweenItems_report hresolved _,
      resumes_of_reject hresolved hd hstop hwords⟩
  · refine ⟨(b.resolve t).finish t, ?_, finish_of_document hresolved t⟩
    rw [after_concat, hb, step_endOfInput ht]

end Document

-- ════════════════════════════════════════════════════════════════════════
-- Items and tokens
-- ════════════════════════════════════════════════════════════════════════

namespace Body

/-- The level of the document. -/
def document (b : Body) : Level := (b.enclosing.map (·.level)).getLastD b.level

/-- The number of items of the document that are finished. -/
def items (b : Body) : Nat := b.document.nodes.length

/-- Whether an item of the document is begun; one that is given up is finished already. -/
def isBegun (b : Body) : Bool :=
  match b.enclosing, b.mode with
  | [], .reading .nothing => !b.level.declaring.isEmpty
  | [], .skipping _ => false
  | _, _ => true

/-- The number of items of the document that are begun. -/
def begun (b : Body) : Nat := b.items + b.isBegun.toNat

variable {b d : Body} {t : Token}

theorem begun_le (b : Body) : b.begun ≤ b.items + 1 :=
  Nat.add_le_add_left (Bool.toNat_le _) _

theorem items_awaiting (b : Body) (mode : Mode) (marks : List Bytes) :
    (b.awaiting mode marks).items = b.items := by
  rw [items, document, awaiting, items, document]
  cases b.enclosing <;> rfl

theorem begun_of_mark {m : Token} (h : b.mode = .reading (.mark m)) : b.begun = b.items + 1 := by
  have hbegun : b.isBegun = true := by
    rw [isBegun, h]
    cases b.enclosing <;> rfl
  rw [begun, hbegun]
  rfl

/-- A node that is completed finishes the item that it is, or goes on with the one that it is in. -/
@[simp] theorem begun_complete (b : Body) (n : Node) : (b.complete n).begun = b.items + 1 := by
  rw [begun, items, document, enclosing_complete, isBegun, enclosing_complete, items, document]
  cases b.enclosing with
  | nil => exact congrArg (· + 1) (congrArg List.length (b.nodes_declare n b.level.declaring))
  | cons => rfl

@[simp] theorem begun_report (b : Body) (x : Diagnostic) : (b.report x).begun = b.items + 1 := by
  cases h : b.enclosing with
  | nil =>
    rw [report_of_document h, begun, items, document, isBegun, items, document, h]
    rfl
  | cons e es =>
    rw [report_of_group h, begun, items, document, isBegun, items, document, h]
    rfl

theorem begun_leave {e : Enclosing} {es : List Enclosing} (h : b.enclosing = e :: es)
    (make : Enclosing → Node) : (b.leave make).begun = b.items + 1 := by
  rw [leave_of_enclosing h, begun_complete, items, document, items, document, h, List.map_cons,
    List.getLastD_cons]

theorem begun_abandon (b : Body) (depth : Nat) (failure : Node) (t : Token) :
    (b.abandon depth failure t).begun ≤ b.items + 1 := by
  rw [abandon]
  split
  · cases h : b.enclosing with
    | nil =>
      rw [leave, h]
      exact b.begun_le
    | cons e es => exact (begun_leave h _).le
  · exact begun_le _

theorem begun_reject (b : Body) (t : Token) (fault : ScoreFault) :
    (b.reject t fault).begun ≤ b.items + 1 := by
  cases h : b.enclosing with
  | nil =>
    have hreport := b.begun_report ⟨t, fault⟩
    rw [reject_of_document h, skip]
    rw [report_of_document h] at hreport ⊢
    split
    · exact hreport.le
    · rw [begun, isBegun]
      dsimp only
      rw [h]
      exact Nat.le_of_eq (by rw [items, document, items, document]; dsimp only; rw [h]; rfl)
  | cons e es =>
    rw [reject_of_group h]
    refine (begun_abandon _ _ _ _).trans (Nat.le_of_eq ?_)
    rw [report_of_group h]
    rfl

theorem Settling.begun_le (h : b.Settling t d) : d.begun ≤ b.begun := by
  cases h with
  | none => exact Nat.le_refl _
  | insert hmode => rw [begun_complete, begun_of_mark hmode]
  | undefined hmode => rw [begun_report, begun_of_mark hmode]

/-- A token begins at most one item. -/
theorem Taking.begun_le (h : b.Taking t d) : d.begun ≤ b.items + 1 := by
  cases h with
  | wait | declare => exact (Body.begun_le _).trans_eq (congrArg (· + 1) (b.items_awaiting _ _))
  | complete => exact (begun_complete b _).le
  | enter =>
    refine (Body.begun_le _).trans (Nat.le_of_eq ?_)
    rw [items, document, items, document, Body.enter, List.map_cons, List.getLastD_cons]
  | close _ _ henclosing => exact (begun_leave henclosing _).le
  | reject => exact b.begun_reject t _
  | abandon => exact b.begun_abandon _ _ t
  | skip =>
    rw [Body.skip]
    split <;> exact Body.begun_le _

theorem items_le_begun (b : Body) : b.items ≤ b.begun := Nat.le_add_right ..

end Body

namespace Document

variable {ts us vs before rest : List Token} {t u : Token} {a b d : Body}

/-- As many items are begun as tokens are read, at most. -/
theorem begun_after (ha : after ts = .body a) (hb : after (ts ++ us) = .body b) :
    b.begun ≤ a.begun + us.length := by
  induction us using List.reverseRecOn generalizing b with
  | nil =>
    rw [List.append_nil] at hb
    obtain rfl := Document.body.inj (ha.symm.trans hb)
    exact Nat.le_refl _
  | append_singleton us u ih =>
    rw [← List.append_assoc, after_concat] at hb
    obtain ⟨c, hc, rfl, -⟩ := body_of_step hb
    have hstep : (c.read u).begun ≤ c.begun + 1 :=
      (c.taking_read u).begun_le.trans
        (Nat.add_le_add_right ((Body.items_le_begun _).trans (c.settling_resolve u).begun_le) 1)
    have hle := ih hc
    rw [List.length_append, List.length_singleton]
    omega

/-- Every further item of the document takes a token. -/
theorem items_after (ha : after ts = .body a)
    (hus : t :: rest = us ++ u :: vs) (hd : after (ts ++ us) = .body d) :
    (d.resolve u).items ≤ (a.resolve t).items + us.length := by
  cases us with
  | nil =>
    obtain ⟨rfl, -⟩ := List.cons.inj hus
    rw [List.append_nil] at hd
    obtain rfl := Document.body.inj (ha.symm.trans hd)
    exact Nat.le_refl _
  | cons w us =>
    obtain ⟨rfl, -⟩ := List.cons.inj hus
    rw [List.append_cons] at hd
    obtain ⟨c, hc⟩ := body_of_after_append hd
    obtain ⟨rfl, -⟩ := read_of_after ha hc
    have hfirst := (a.taking_read t).begun_le
    have hmore := begun_after hc hd
    have hlast := (d.settling_resolve u).begun_le
    have hitems := (d.resolve u).items_le_begun
    rw [List.length_cons]
    omega

/-- Reading ends with the end of input at the latest. -/
theorem finished_of_endOfInput (s : Document) (ht : t.kind = .endOfInput) :
    ∃ draft table, s.step t = .finished draft table := by
  cases s with
  | body b => exact ⟨_, _, step_endOfInput ht⟩
  | metadata draft b =>
    obtain ⟨fault, hfault⟩ := b.step_endOfInput ht
    exact ⟨_, _, by rw [step, hfault]⟩
  | trailing draft table => exact ⟨_, _, by rw [step, ht]⟩
  | finished draft table => exact ⟨draft, table, rfl⟩

theorem finished_of_scan (src : Bytes) :
    ∃ draft table, after (Token.scan src) = .finished draft table := by
  obtain ⟨words, stop, hscan, hstop, -⟩ := Token.scan_eq src
  rw [hscan, after_concat]
  exact finished_of_endOfInput _ hstop

/-- What a fault costs, wherever it is: every group that is entered is left with the token at which
its brackets are balanced, a fault in the document costs one item from the token at fault on, or
nothing more for a mark that is not defined, and every item takes a token, so that reading ends. -/
theorem after_recovers {src : Bytes} (hscan : Token.scan src = before ++ t :: rest)
    (hb : after before = .body b) :
    (∀ d e, after (before ++ [t]) = .body d → d.enclosing = e :: b.enclosing →
        Recovers before t rest (b.resolve t) e) ∧
      (b.enclosing = [] → Resumes before t rest b) ∧
      (∀ us u vs d, t :: rest = us ++ u :: vs → after (before ++ us) = .body d →
        (d.resolve u).items ≤ (b.resolve t).items + us.length) ∧
      ∃ draft table, after (Token.scan src) = .finished draft table :=
  ⟨fun _ _ hd he => recovers_of_enter hscan hb hd he, resumes_of_document hscan hb,
    fun _ _ _ _ hus hd => items_after hb hus hd, finished_of_scan src⟩

/-- `r [1 [2} key] 4`, in which the inner group is closed by the wrong bracket and no number comes
after `key`. -/
def brokenGroup : List Token :=
  [⟨.rest, 0, [114]⟩, ⟨.opening .sequence, 2, [91]⟩, ⟨.integer, 3, [49]⟩,
    ⟨.opening .sequence, 5, [91]⟩, ⟨.integer, 6, [50]⟩, ⟨.closing .chord, 7, [125]⟩,
    ⟨.key, 9, [107, 101, 121]⟩, ⟨.closing .sequence, 12, [93]⟩, ⟨.integer, 14, [52]⟩,
    ⟨.endOfInput, 15, []⟩]

theorem after_recovers_brokenGroup :
    Token.scan (Bytes.ofString "r [1 [2\x7d key] 4") = brokenGroup ∧
      ∃ b t, after (brokenGroup.take 1) = .body b ∧ brokenGroup[1]? = some t ∧
        ∃ d n, after (brokenGroup.take 8) = .body d ∧ (b.resolve t).Leaves n d := by
  have hscan : Token.scan (Bytes.ofString "r [1 [2\x7d key] 4") = brokenGroup := by decide +kernel
  have hsplit : brokenGroup =
      brokenGroup.take 1 ++ ⟨.opening .sequence, 2, [91]⟩ :: brokenGroup.drop 2 := rfl
  obtain ⟨hgroups, -⟩ := after_recovers (hscan.trans hsplit) rfl
  obtain ⟨d, n, hd, -, hleaves⟩ := (hgroups _ _ rfl rfl).balanced ((brokenGroup.drop 2).take 6)
    ((brokenGroup.drop 2).drop 6) rfl (by decide)
  exact ⟨hscan, _, _, rfl, rfl, d, n, hd, hleaves⟩

end Document

end DegreeScore
