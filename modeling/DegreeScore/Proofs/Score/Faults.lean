import DegreeScore.Proofs.Score.Steps
import DegreeScore.Proofs.Tiling

/-!
# What the diagnostics say

The diagnostics of a source stand in the order of its tokens, no token has two of them but the end of
input (`Document.Blames`), and every error node of the tree is that of a diagnostic
(`Document.Reported`). A mark is at fault only after the next token has come; that the order is kept
is because no other token can be at fault while a mark waits.
-/

namespace DegreeScore

theorem Token.Scans.standsIn {pos : Nat} {src : Bytes} {ts : List Token} (h : Scans pos src ts) :
    (∀ t ∈ ts, t.StandsIn pos src) ∧ ts.Pairwise (·.offset < ·.offset) :=
  ⟨h.tiles.standsIn.1, h.tiles.standsIn.2.imp And.right⟩

-- ════════════════════════════════════════════════════════════════════════
-- The order of diagnostics
-- ════════════════════════════════════════════════════════════════════════

/-- A mark that waits for the next token to come. -/
def Mode.waiting : Mode → List Token
  | .reading (.mark m) => [m]
  | _ => []

namespace Body

/-- The tokens that are at fault. -/
def faulty (b : Body) : List Token := b.diagnostics.toList.map (·.token)

variable {b d : Body} {t : Token} {ts : List Token}

theorem faulty_push (ds : Array Diagnostic) (x : Diagnostic) :
    (ds.push x).toList.map (·.token) = ds.toList.map (·.token) ++ [x.token] := by
  rw [Array.toList_push, List.map_append]
  rfl

theorem waiting_leave (make : Enclosing → Node) (h : b.mode.waiting = []) :
    (b.leave make).mode.waiting = [] := by
  rw [leave]
  split
  · exact h
  · rfl

theorem waiting_report (b : Body) (x : Diagnostic) : (b.report x).mode.waiting = [] := by
  rw [report]
  dsimp only
  split <;> rfl

theorem waiting_abandon (depth : Nat) (failure : Node) (t : Token) (h : b.mode.waiting = []) :
    (b.abandon depth failure t).mode.waiting = [] := by
  rw [abandon]
  split
  · exact waiting_leave _ h
  · rfl

theorem waiting_skip (b : Body) (depth : Nat) (t : Token) :
    (b.skip depth t).mode.waiting = [] := by
  rw [skip]
  split <;> rfl

theorem waiting_reject (b : Body) (t : Token) (fault : ScoreFault) :
    (b.reject t fault).mode.waiting = [] := by
  rw [reject]
  split
  · exact waiting_abandon _ _ t (b.waiting_report _)
  · exact waiting_skip _ _ t

/-- A mark that is settled is at fault or not. -/
theorem Settling.faulty (h : b.Settling t d) (hb : (b.faulty ++ b.mode.waiting).Sublist ts) :
    d.faulty.Sublist ts := by
  cases h with
  | none => exact (List.sublist_append_left ..).trans hb
  | insert =>
    rw [Body.faulty, diagnostics_complete]
    exact (List.sublist_append_left ..).trans hb
  | undefined hmode =>
    rw [Body.faulty, diagnostics_report, faulty_push]
    rw [hmode] at hb
    exact hb

/-- A token that is taken is at fault or not, or it is a mark that waits. -/
theorem Taking.faulty (h : b.Taking t d) (hb : b.faulty.Sublist ts) :
    (d.faulty ++ d.mode.waiting).Sublist (ts ++ [t]) := by
  have hsame : d.diagnostics = b.diagnostics → d.mode.waiting = [] →
      (d.faulty ++ d.mode.waiting).Sublist (ts ++ [t]) := by
    intro hdiagnostics hwaiting
    rw [hwaiting, List.append_nil, Body.faulty, hdiagnostics]
    exact hb.trans (List.sublist_append_left ..)
  cases h with
  | @wait p q hmode ht hq =>
    cases q with
    | mark m =>
      obtain ⟨rfl, -⟩ := hq m rfl
      exact hb.append (List.Sublist.refl _)
    | nothing | options | key => exact hsame rfl rfl
  | declare => exact hsame rfl rfl
  | complete => exact hsame (diagnostics_complete ..) rfl
  | enter => exact hsame rfl rfl
  | close hmode =>
    exact hsame (diagnostics_leave ..) (waiting_leave _ (by rw [hmode]; rfl))
  | reject =>
    rw [waiting_reject, List.append_nil, Body.faulty, diagnostics_reject, faulty_push]
    exact hb.append (List.Sublist.refl _)
  | abandon hmode =>
    exact hsame (diagnostics_abandon ..) (waiting_abandon _ _ t (by rw [hmode]; rfl))
  | skip => exact hsame (diagnostics_skip ..) (waiting_skip _ _ t)

/-- At the end of input only the end of input is at fault. -/
theorem faulty_settle (b : Body) (t : Token) :
    ∃ k, (b.settle t).faulty = b.faulty ++ List.replicate k t := by
  have hreport : ∀ fault, (b.report ⟨t, fault⟩).faulty = b.faulty ++ List.replicate 1 t := by
    intro fault
    rw [faulty, diagnostics_report, faulty_push]
    rfl
  rw [settle]
  split
  · split
    · exact ⟨0, (List.append_nil _).symm⟩
    · exact ⟨1, hreport _⟩
  · exact ⟨1, hreport _⟩
  · exact ⟨1, hreport _⟩
  · exact ⟨0, (List.append_nil _).symm⟩

theorem faulty_closeAll (b : Body) (t : Token) (es : List Enclosing) :
    ∃ k, (closeAll t es b).faulty = b.faulty ++ List.replicate k t := by
  induction es generalizing b with
  | nil => exact ⟨0, (List.append_nil _).symm⟩
  | cons e es ih =>
    rw [closeAll]
    split
    · obtain ⟨k, hk⟩ := ih (b.leave _)
      refine ⟨k, hk.trans ?_⟩
      rw [faulty, diagnostics_leave, faulty]
    · obtain ⟨k, hk⟩ := ih (leave _ _)
      refine ⟨1 + k, hk.trans ?_⟩
      rw [faulty, diagnostics_leave, faulty_push, List.replicate_add, ← List.append_assoc]
      rfl

theorem faulty_finish (b : Body) (t : Token) :
    ∃ k, (b.finish t).faulty = b.faulty ++ List.replicate k t := by
  obtain ⟨k, hk⟩ := b.faulty_settle t
  obtain ⟨m, hm⟩ := (b.settle t).faulty_closeAll t (b.settle t).enclosing
  exact ⟨k + m, by rw [finish, hm, hk, List.replicate_add, List.append_assoc]⟩

end Body

namespace Draft

/-- The tokens that are at fault. -/
def faulty (d : Draft) : List Token := d.diagnostics.toList.map (·.token)

theorem faulty_report (d : Draft) (t : Token) (fault : ScoreFault) :
    (d.report t fault).faulty = d.faulty ++ [t] :=
  Body.faulty_push d.diagnostics ⟨t, fault⟩

end Draft

namespace Document

/-- The tokens at fault are some of those that have been read, in their order; the end of input may
be at fault several times. -/
def Blames (ts : List Token) : Document → Prop
  | .body b => (b.faulty ++ b.mode.waiting).Sublist ts
  | .metadata d _ | .trailing d _ => d.faulty.Sublist ts
  | .finished d _ => ∃ us rest, d.faulty = us ++ rest ∧ us.Sublist ts ∧
      ∀ r ∈ rest, r ∈ ts ∧ r.kind = .endOfInput

variable {s : Document} {t : Token} {ts us : List Token} {d : Draft} {table : Option Table}

theorem blames_finished (h : d.faulty.Sublist ts) : Blames ts (.finished d table) :=
  ⟨d.faulty, [], (List.append_nil _).symm, h, by simp⟩

theorem blames_report (h : d.faulty.Sublist ts) (t : Token) (fault : ScoreFault) :
    Blames (ts ++ [t]) (.finished (d.report t fault) table) := by
  refine blames_finished ?_
  rw [Draft.faulty_report]
  exact h.append (List.Sublist.refl _)

/-- A token adds itself at most to those at fault, or a mark that waited for it. -/
theorem Blames.step (h : Blames ts s) (t : Token) : Blames (ts ++ [t]) (s.step t) := by
  have hle : ts.Sublist (ts ++ [t]) := List.sublist_append_left ..
  cases s with
  | body b =>
    have hsettled := (b.settling_resolve t).faulty h
    have htaken := (b.taking_read t).faulty hsettled
    rw [Document.step, bodyStep]
    split
    · next hstop =>
      obtain ⟨k, hk⟩ := (b.resolve t).faulty_finish t
      refine ⟨_, _, hk, hsettled.trans hle, fun r hr => ?_⟩
      obtain rfl := List.eq_of_mem_replicate hr
      exact ⟨by simp, hstop⟩
    · split
      · exact hsettled.trans hle
      · exact htaken
    · exact htaken
  | metadata d b =>
    rw [Document.step]
    split
    · exact h.trans hle
    · exact h.trans hle
    · exact blames_report h t _
  | trailing d table =>
    rw [Document.step]
    split
    · exact blames_finished (h.trans hle)
    · exact blames_report h t _
  | finished d table =>
    obtain ⟨us, rest, hfaulty, hus, hrest⟩ := h
    exact ⟨us, rest, hfaulty, hus.trans hle, fun r hr => (hrest r hr).imp_left (hle.subset ·)⟩

theorem blames_after (ts : List Token) : Blames ts (after ts) := by
  induction ts using List.reverseRecOn with
  | nil => exact List.Sublist.refl _
  | append_singleton ts t ih =>
    rw [after_concat]
    exact ih.step t

theorem Blames.result (h : Blames ts s) :
    ∃ us rest, s.result.2.map (·.token) = us ++ rest ∧ us.Sublist ts ∧
      ∀ r ∈ rest, r ∈ ts ∧ r.kind = .endOfInput := by
  cases s with
  | body b =>
    exact ⟨b.faulty, [], (List.append_nil _).symm, (List.sublist_append_left ..).trans h, by simp⟩
  | metadata d b => exact ⟨d.faulty, [], (List.append_nil _).symm, h, by simp⟩
  | trailing d table => exact ⟨d.faulty, [], (List.append_nil _).symm, h, by simp⟩
  | finished d table => exact h

end Document

-- ════════════════════════════════════════════════════════════════════════
-- Error nodes
-- ════════════════════════════════════════════════════════════════════════

/-- A node occurs in another one, at any depth. -/
inductive Node.Occurs (e : Node) : Node → Prop
  | self : Occurs e e
  | child {g : Grouping} {children : List Node} {o : Option Options} {n : Node}
      (hn : n ∈ children) (h : Occurs e n) : Occurs e (.group g children o)

/-- A node occurs in the main passage or in a section. -/
def Tree.Occurs (tree : Tree) (e : Node) : Prop :=
  e.Occurs tree.main ∨ ∃ s ∈ tree.sections, e.Occurs s.node

/-- Every error node in `n` is that of a diagnostic. -/
def Node.Reported (ds : Array Diagnostic) (n : Node) : Prop :=
  ∀ offset message, (Node.error offset message).Occurs n → ∃ x ∈ ds, x.node = .error offset message

namespace Node.Reported

variable {ds : Array Diagnostic} {n : Node}

theorem push (h : n.Reported ds) (x : Diagnostic) : n.Reported (ds.push x) := by
  intro offset message hn
  obtain ⟨y, hy, hnode⟩ := h offset message hn
  exact ⟨y, Array.mem_push_of_mem x hy, hnode⟩

theorem of_diagnostic {x : Diagnostic} (hx : x ∈ ds) : x.node.Reported ds := by
  intro offset message hn
  cases hn with
  | self => exact ⟨x, hx, rfl⟩

theorem of_leaf (hn : n.IsLeaf) : n.Reported ds := by
  intro offset message h
  cases hn <;> cases h

theorem group {g : Grouping} {children : List Node} {o : Option Options}
    (h : ∀ n ∈ children, n.Reported ds) : (Node.group g children o).Reported ds := by
  intro offset message hn
  cases hn with
  | child hmem hn => exact h _ hmem offset message hn

end Node.Reported

namespace Body

/-- Every error node of the body is that of a diagnostic. -/
structure Reported (b : Body) : Prop where
  level : ∀ n ∈ b.level.nodes, n.Reported b.diagnostics
  enclosing : ∀ e ∈ b.enclosing, ∀ n ∈ e.level.nodes, n.Reported b.diagnostics
  sections : ∀ s ∈ b.sections, s.node.Reported b.diagnostics
  failure : ∀ depth failure, b.mode = .abandoning depth failure → failure.Reported b.diagnostics

variable {b d : Body} {n : Node} {t : Token}

theorem reported_declare {ds : Array Diagnostic} (marks : List Bytes)
    (hsections : ∀ s ∈ b.sections, s.node.Reported ds) (hn : n.Reported ds) :
    (∀ s ∈ (b.declare n marks).1.sections, s.node.Reported ds) ∧
      (b.declare n marks).2.Reported ds := by
  induction marks generalizing b n with
  | nil => exact ⟨hsections, hn⟩
  | cons mark rest ih =>
    refine ih (b := b.bind mark n) (fun s hs => ?_) (.of_leaf .insert)
    rcases Array.mem_push.1 hs with hs | rfl
    · exact hsections s hs
    · exact hn

namespace Reported

theorem complete (h : b.Reported) (hn : n.Reported b.diagnostics) : (b.complete n).Reported := by
  obtain ⟨hsections, hn'⟩ := reported_declare b.level.declaring h.sections hn
  refine ⟨?_, ?_, ?_, fun depth failure hmode => by cases hmode⟩
  · rw [diagnostics_complete]
    refine List.forall_mem_cons.2 ⟨hn', ?_⟩
    rw [nodes_declare]
    exact h.level
  · rw [enclosing_complete, diagnostics_complete]
    exact h.enclosing
  · rw [diagnostics_complete]
    exact hsections

/-- The mode does not matter as long as nothing is given up. -/
theorem withMode (h : b.Reported) {mode : Mode}
    (hmode : ∀ depth failure, mode = .abandoning depth failure → failure.Reported b.diagnostics) :
    Reported { b with mode } :=
  ⟨h.level, h.enclosing, h.sections, hmode⟩

theorem push (h : b.Reported) (x : Diagnostic) :
    Reported { b with diagnostics := b.diagnostics.push x } where
  level n hn := (h.level n hn).push x
  enclosing e he n hn := (h.enclosing e he n hn).push x
  sections s hs := (h.sections s hs).push x
  failure depth failure hmode := (h.failure depth failure hmode).push x

theorem report (h : b.Reported) (x : Diagnostic) : (b.report x).Reported := by
  have hpush := h.push x
  have hx : x.node.Reported (b.diagnostics.push x) := .of_diagnostic Array.mem_push_self
  cases henclosing : b.enclosing with
  | nil =>
    rw [report_of_document henclosing]
    exact ⟨List.forall_mem_cons.2 ⟨hx, hpush.level⟩, hpush.enclosing, hpush.sections,
      fun depth failure hmode => by cases hmode⟩
  | cons e es =>
    rw [report_of_group henclosing]
    refine hpush.withMode fun depth failure hmode => ?_
    obtain ⟨-, rfl⟩ := Mode.abandoning.inj hmode
    exact hx

theorem leave {make : Enclosing → Node} (h : b.Reported)
    (hmake : ∀ e ∈ b.enclosing, (make e).Reported b.diagnostics) : (b.leave make).Reported := by
  cases henclosing : b.enclosing with
  | nil =>
    rw [Body.leave, henclosing]
    exact h
  | cons e es =>
    have hlevels := h.enclosing
    rw [henclosing] at hmake hlevels
    obtain ⟨hlevel, hlevels⟩ := List.forall_mem_cons.1 hlevels
    rw [leave_of_enclosing henclosing]
    exact Reported.complete (b := { b with level := e.level, enclosing := es })
      ⟨hlevel, hlevels, h.sections, h.failure⟩ (hmake e List.mem_cons_self)

theorem abandon {failure : Node} (h : b.Reported) (hfailure : failure.Reported b.diagnostics)
    (depth : Nat) (t : Token) : (b.abandon depth failure t).Reported := by
  rw [Body.abandon]
  split
  · exact h.leave fun _ _ => hfailure
  · refine h.withMode fun depth failure' hmode => ?_
    obtain ⟨-, rfl⟩ := Mode.abandoning.inj hmode
    exact hfailure

theorem skip (h : b.Reported) (depth : Nat) (t : Token) : (b.skip depth t).Reported := by
  rw [Body.skip]
  split <;> exact h.withMode fun depth failure hmode => by cases hmode

theorem reject (h : b.Reported) (t : Token) (fault : ScoreFault) : (b.reject t fault).Reported := by
  have hreport := h.report ⟨t, fault⟩
  rw [Body.reject]
  split
  · next hmode => exact hreport.abandon (hreport.failure _ _ hmode) _ t
  · exact hreport.skip _ t

theorem settling (h : b.Reported) (hd : b.Settling t d) : d.Reported := by
  cases hd with
  | none => exact h
  | insert => exact h.complete (.of_leaf .insert)
  | undefined => exact h.report _

theorem taking (h : b.Reported) (hd : b.Taking t d) : d.Reported := by
  cases hd with
  | wait | declare =>
    exact ⟨h.level, h.enclosing, h.sections, fun depth failure hmode => by cases hmode⟩
  | complete _ _ hn => exact h.complete (.of_leaf hn)
  | enter =>
    exact ⟨by simp [Body.enter], List.forall_mem_cons.2 ⟨h.level, h.enclosing⟩, h.sections,
      fun depth failure hmode => by cases hmode⟩
  | close =>
    exact h.leave fun _ _ => .group fun n hn => h.level n (List.mem_reverse.1 hn)
  | reject => exact h.reject t _
  | abandon hmode => exact h.abandon (h.failure _ _ hmode) _ t
  | skip => exact h.skip _ t

theorem read (h : b.Reported) (t : Token) : (b.read t).Reported :=
  (h.settling (b.settling_resolve t)).taking (b.taking_read t)

theorem settle (h : b.Reported) (t : Token) : (b.settle t).Reported := by
  rw [Body.settle]
  split
  · split
    · exact h
    · exact h.report _
  · exact h.report _
  · exact h.report _
  · exact h

theorem closeAll (h : b.Reported) (t : Token) (es : List Enclosing) :
    (Body.closeAll t es b).Reported := by
  induction es generalizing b with
  | nil => exact h
  | cons e es ih =>
    rw [Body.closeAll]
    refine ih ?_
    split
    · next hmode => exact h.leave fun _ _ => h.failure _ _ hmode
    · exact (h.push _).leave fun _ _ => .of_diagnostic Array.mem_push_self

theorem finish (h : b.Reported) (t : Token) : (b.finish t).Reported :=
  (h.settle t).closeAll t _

theorem main (h : b.Reported) : b.main.Reported b.diagnostics := by
  rw [Body.main]
  split
  · next hnodes => exact h.level _ (by rw [hnodes]; exact List.mem_singleton_self _)
  · exact .group fun n hn => h.level n (List.mem_reverse.1 hn)

end Reported

end Body

/-- Every error node of the draft is that of a diagnostic. -/
structure Draft.Reported (d : Draft) : Prop where
  main : d.main.Reported d.diagnostics
  sections : ∀ s ∈ d.sections, s.node.Reported d.diagnostics

theorem Body.Reported.ofBody {b : Body} (h : b.Reported) : (Draft.ofBody b).Reported :=
  ⟨h.main, h.sections⟩

theorem Draft.Reported.report {d : Draft} (h : d.Reported) (t : Token) (fault : ScoreFault) :
    (d.report t fault).Reported :=
  ⟨h.main.push _, fun s hs => (h.sections s hs).push _⟩

namespace Document

/-- Every error node read so far is that of a diagnostic. -/
def Reported : Document → Prop
  | .body b => b.Reported
  | .metadata d _ | .trailing d _ | .finished d _ => d.Reported

variable {s : Document} {t : Token}

theorem Reported.step (h : Reported s) (t : Token) : Reported (s.step t) := by
  cases s with
  | body b =>
    have hresolved := Body.Reported.settling h (b.settling_resolve t)
    rw [Document.step, bodyStep]
    split
    · exact (hresolved.finish t).ofBody
    · split
      · exact hresolved.ofBody
      · exact Body.Reported.read h t
    · exact Body.Reported.read h t
  | metadata d b =>
    rw [Document.step]
    split
    · exact h
    · exact h
    · exact Draft.Reported.report h t _
  | trailing d table =>
    rw [Document.step]
    split
    · exact h
    · exact Draft.Reported.report h t _
  | finished d table => exact h

theorem reported_after (ts : List Token) : Reported (after ts) := by
  induction ts using List.reverseRecOn with
  | nil => exact ⟨by simp, by simp, by simp, fun depth failure hmode => by cases hmode⟩
  | append_singleton ts t ih =>
    rw [after_concat]
    exact ih.step t

theorem Reported.result (h : Reported s) {offset : Int} {message : String}
    (hs : (s.result.1).Occurs (.error offset message)) :
    ∃ x ∈ s.result.2, x.node = .error offset message := by
  have hdraft : ∀ {d : Draft}, d.Reported →
      ((Node.error offset message).Occurs d.main ∨
        ∃ s ∈ d.sections, (Node.error offset message).Occurs s.node) →
      ∃ x ∈ d.diagnostics.toList, x.node = .error offset message := by
    rintro d hd (hmain | ⟨s, hs, hnode⟩)
    · simpa using hd.main offset message hmain
    · simpa using hd.sections s hs offset message hnode
  cases s with
  | body b => exact hdraft (Body.Reported.ofBody h) hs
  | metadata | trailing | finished => exact hdraft h hs

end Document

-- ════════════════════════════════════════════════════════════════════════
-- The diagnostics of a source
-- ════════════════════════════════════════════════════════════════════════

theorem Tree.mem_scan_of_mem_parse {src : Bytes} {d : Diagnostic} (hd : d ∈ (parse src).2) :
    d.token ∈ Token.scan src := by
  obtain ⟨us, rest, htokens, hus, hrest⟩ := (Document.blames_after (Token.scan src)).result
  have hmem : d.token ∈ us ++ rest := by
    rw [← htokens]
    exact List.mem_map_of_mem hd
  rcases List.mem_append.1 hmem with hmem | hmem
  · exact hus.subset hmem
  · exact (hrest _ hmem).1

theorem Tree.pairwise_parse (src : Bytes) :
    (parse src).2.Pairwise fun d e =>
      d.offset < e.offset ∨ d.offset = src.length ∧ e.offset = src.length := by
  obtain ⟨hstands, horder⟩ := (Token.scans_scan src).standsIn
  obtain ⟨us, rest, htokens, hus, hrest⟩ := (Document.blames_after (Token.scan src)).result
  have hend : ∀ r ∈ rest, r.offset = src.length := by
    intro r hr
    obtain ⟨hmem, hkind⟩ := hrest r hr
    exact ((hstands r hmem).stop hkind).trans (Nat.zero_add _)
  have hle : ∀ u ∈ us, u.offset ≤ src.length := by
    intro u hu
    exact (hstands u (hus.subset hu)).offset_le.trans_eq (Nat.zero_add _)
  have htokens' : (us ++ rest).Pairwise fun t u =>
      t.offset < u.offset ∨ t.offset = src.length ∧ u.offset = src.length := by
    refine List.pairwise_append.2 ⟨(horder.sublist hus).imp .inl, ?_, fun u hu r hr => ?_⟩
    · exact List.pairwise_of_forall_mem_list fun r hr r' hr' => .inr ⟨hend r hr, hend r' hr'⟩
    · rw [hend r hr]
      exact (hle u hu).lt_or_eq.imp_right fun heq => ⟨heq, rfl⟩
  rw [← htokens] at htokens'
  exact List.pairwise_map.1 htokens'

/-- The diagnostics of a source say what is wrong with it: they stand in the order of the source, one
at a token but for the end of input; each has a token of the source with the position where that
stands; and every error node of the tree is that of a diagnostic, so without diagnostics there is
none. -/
theorem Tree.parse_faithful (src : Bytes) :
    ((parse src).2.Pairwise fun d e =>
        d.offset < e.offset ∨ d.offset = src.length ∧ e.offset = src.length) ∧
      (∀ d ∈ (parse src).2, d.token ∈ Token.scan src ∧ d.offset ≤ src.length ∧
        d.token.text <+: src.drop d.offset) ∧
      (Diagnostic.withPositions src (parse src).2 =
        (parse src).2.map fun d => (d, Position.ofOffset src d.offset)) ∧
      (∀ offset message, (parse src).1.Occurs (.error offset message) →
        ∃ d ∈ (parse src).2, (d.offset : Int) = offset ∧ d.message = message) ∧
      ((parse src).2 = [] → ∀ offset message, ¬(parse src).1.Occurs (.error offset message)) := by
  have herror : ∀ offset message, (parse src).1.Occurs (.error offset message) →
      ∃ d ∈ (parse src).2, (d.offset : Int) = offset ∧ d.message = message := by
    intro offset message h
    obtain ⟨d, hd, hnode⟩ := (Document.reported_after (Token.scan src)).result h
    obtain ⟨hoffset, hmessage⟩ := Node.error.inj hnode
    exact ⟨d, hd, hoffset, hmessage⟩
  refine ⟨pairwise_parse src, fun d hd => ?_, Diagnostic.withPositions_eq_map src _, herror,
    fun hnone offset message h => ?_⟩
  · have hmem := mem_scan_of_mem_parse hd
    have hstands := (Token.scans_scan src).standsIn.1 d.token hmem
    exact ⟨hmem, hstands.offset_le.trans_eq (Nat.zero_add _), hstands.text⟩
  · obtain ⟨d, hd, -⟩ := herror offset message h
    rw [hnone] at hd
    cases hd

end DegreeScore
