import DegreeScore.Proofs.Score.Steps
import Mathlib.Data.List.Forall2

/-!
# The ledger of declarations

Which section a mark stands for is said by a ledger (`Ledger`), which is kept along with the tokens. A
page is begun where a group is opened and is gone where it is left; an `=` enters the mark before it on
the page of the level, where it waits; and a node that is completed in the level becomes the section of
every mark that waits there. Of the body the ledger knows how many groups are open, how many nodes the
level has and whether there was a fault, but nothing of scopes and sections. These are what the ledger
says (`Ledger.Describes`): all that a token does to them goes along with what it does to the ledger
(`Ledger.Moves`).

## Main definitions

- `Ledger.after` — the ledger when these tokens have been read
- `Ledger.Stands`, `Ledger.Lacks` — the section that a mark stands for, and that there is none

## Main results

- `Ledger.describes_after` — sections, scopes and waiting marks are those of the ledger
- `Ledger.Describes.lookup` — a mark that is looked up stands for what the ledger says
-/

namespace DegreeScore

-- ════════════════════════════════════════════════════════════════════════
-- The ledger
-- ════════════════════════════════════════════════════════════════════════

/-- What is declared in one level. -/
structure Page where
  /-- The marks with an `=` whose node is not complete, the last one first. -/
  waiting : List Bytes := []
  /-- The marks whose node is complete, each with its section, the latest first. -/
  entries : List (Bytes × Nat) := []
deriving DecidableEq

/-- A node is completed, with `start` sections before it. It is the section of the last mark that
waits for it, and the section of every other mark is the one before. -/
def Page.complete (start : Nat) (p : Page) : Page :=
  ⟨[], (p.waiting.zipIdx start).reverse ++ p.entries⟩

/-- The declarations of a body. -/
structure Ledger where
  /-- The page of the current level. -/
  page : Page := {}
  /-- The pages of the levels around it, the innermost first. -/
  around : List Page := []
  /-- The marks of all sections, in the order of their completion. -/
  marks : List Bytes := []
deriving DecidableEq

namespace Ledger

/-- The pages of all levels, the innermost first. -/
def pages (l : Ledger) : List Page := l.page :: l.around

/-- A mark is declared, and waits for its node. -/
def declare (mark : Bytes) (l : Ledger) : Ledger :=
  { l with page := { l.page with waiting := mark :: l.page.waiting } }

/-- A node of the current level is completed. -/
def complete (l : Ledger) : Ledger :=
  { l with page := l.page.complete l.marks.length, marks := l.marks ++ l.page.waiting }

/-- A fault in the document gives up the marks that wait. In a group it changes nothing, because the
page goes when the group is left. -/
def fail (l : Ledger) : Ledger :=
  match l.around with
  | [] => { l with page := { l.page with waiting := [] } }
  | _ :: _ => l

/-- A group is opened. -/
def enter (l : Ledger) : Ledger := { l with page := {}, around := l.page :: l.around }

/-- A group is left, which is a node of the level around it. -/
def leave (l : Ledger) : Ledger :=
  match l.around with
  | [] => l
  | p :: around => complete { l with page := p, around }

/-- The ledger when `b` has become `d`. -/
def step (l : Ledger) (b d : Body) : Ledger :=
  if b.enclosing.length < d.enclosing.length then l.enter
  else if d.enclosing.length < b.enclosing.length then l.leave
  else if b.diagnostics.size < d.diagnostics.size then l.fail
  else if b.level.nodes.length < d.level.nodes.length then l.complete
  else l

/-- The ledger when `t` has been read. An `=` declares the mark before it; otherwise the mark is settled
first. -/
def read (l : Ledger) (b : Body) (t : Token) : Ledger :=
  match b.mode, t.kind with
  | .reading (.mark m), .equals => l.declare m.text
  | _, _ => (l.step b (b.resolve t)).step (b.resolve t) (b.read t)

/-- The ledger when `ts` have been read after `b`. -/
def afterFrom (b : Body) (l : Ledger) : List Token → Ledger
  | [] => l
  | t :: ts => afterFrom (b.read t) (l.read b t) ts

/-- The ledger when these tokens of a body have been read. -/
def after (ts : List Token) : Ledger := afterFrom {} {} ts

/-- `i` is the latest section with the mark `name` in the innermost level that has one. -/
def Stands (l : Ledger) (name : Bytes) (i : Nat) : Prop :=
  ∃ inner p around, l.pages = inner ++ p :: around ∧ (∀ q ∈ inner, ∀ e ∈ q.entries, e.1 ≠ name) ∧
    (name, i) ∈ p.entries ∧ ∀ j, (name, j) ∈ p.entries → j ≤ i

/-- No open level has a section with the mark `name`. -/
def Lacks (l : Ledger) (name : Bytes) : Prop :=
  ∀ p ∈ l.pages, ∀ e ∈ p.entries, e.1 ≠ name

-- ════════════════════════════════════════════════════════════════════════
-- Body and ledger, step by step
-- ════════════════════════════════════════════════════════════════════════

/-- What may happen to a body `b`, and to its ledger `l` with it. -/
inductive Moves (b : Body) (l : Ledger) : Body → Ledger → Prop
  | stay (mode : Mode) : Moves b l { b with mode } l
  | declare (mark : Bytes) (mode : Mode) :
      Moves b l (b.awaiting mode (mark :: b.level.declaring)) (l.declare mark)
  | complete (n : Node) : Moves b l (b.complete n) l.complete
  | fail (x : Diagnostic) (mode : Mode) : Moves b l { b.report x with mode } l.fail
  | enter (g : Grouping) (o : Option Options) : Moves b l (b.enter g o) l.enter
  | leave {e : Enclosing} {es : List Enclosing} (h : b.enclosing = e :: es)
      (diagnostics : Array Diagnostic) (mode : Mode) (n : Node) :
      Moves b l (Body.complete { b with level := e.level, enclosing := es, diagnostics, mode } n)
        l.leave

variable {b c d : Body} {l m : Ledger} {t : Token} {ts us : List Token} {i : Nat} {name : Bytes}

theorem step_of_same (l : Ledger) (henclosing : d.enclosing = b.enclosing)
    (hdiagnostics : d.diagnostics = b.diagnostics) (hnodes : d.level.nodes = b.level.nodes) :
    l.step b d = l := by
  simp [step, henclosing, hdiagnostics, hnodes]

theorem step_complete (l : Ledger) (b : Body) (n : Node) : l.step b (b.complete n) = l.complete := by
  have hnodes : (b.complete n).level.nodes.length = b.level.nodes.length + 1 :=
    congrArg (·.length + 1) (b.nodes_declare n b.level.declaring)
  simp [step, hnodes]

theorem step_report (l : Ledger) (b : Body) (x : Diagnostic) (mode : Mode) :
    l.step b { b.report x with mode } = l.fail := by
  simp [step]

theorem step_of_left (l : Ledger) {e : Enclosing} (h : b.enclosing = e :: d.enclosing) :
    l.step b d = l.leave := by
  have hlength := congrArg List.length h
  rw [List.length_cons] at hlength
  rw [step, if_neg (by omega), if_pos (by omega)]

theorem step_of_entered (l : Ledger) {e : Enclosing} (h : d.enclosing = e :: b.enclosing) :
    l.step b d = l.enter := by
  have hlength := congrArg List.length h
  rw [List.length_cons] at hlength
  rw [step, if_pos (by omega)]

theorem moves_withMode (l : Ledger) (b : Body) (mode : Mode) :
    Moves b l { b with mode } (l.step b { b with mode }) := by
  have hsame : l.step b { b with mode } = l := step_of_same l rfl rfl rfl
  rw [hsame]
  exact .stay mode

theorem moves_self (l : Ledger) (b : Body) : Moves b l b (l.step b b) :=
  moves_withMode l b b.mode

theorem moves_complete (l : Ledger) (b : Body) (n : Node) :
    Moves b l (b.complete n) (l.step b (b.complete n)) := by
  rw [step_complete]
  exact .complete n

theorem moves_report (l : Ledger) (b : Body) (x : Diagnostic) (mode : Mode) :
    Moves b l { b.report x with mode } (l.step b { b.report x with mode }) := by
  rw [step_report]
  exact .fail x mode

/-- A group is left, also with a fault in its last token. -/
theorem moves_left (l : Ledger) {e : Enclosing} {es : List Enclosing} (h : b.enclosing = e :: es)
    (diagnostics : Array Diagnostic) (mode : Mode) (make : Enclosing → Node) :
    Moves b l (Body.leave { b with diagnostics, mode } make)
      (l.step b (Body.leave { b with diagnostics, mode } make)) := by
  rw [Body.leave_of_enclosing (b := { b with diagnostics, mode }) h,
    step_of_left (e := e) l (by simp [h])]
  exact .leave h diagnostics mode (make e)

theorem moves_leave (l : Ledger) (b : Body) (make : Enclosing → Node) :
    Moves b l (b.leave make) (l.step b (b.leave make)) := by
  cases h : b.enclosing with
  | nil =>
    have hself : b.leave make = b := by rw [Body.leave, h]
    rw [hself]
    exact moves_self l b
  | cons e es => exact moves_left l h b.diagnostics b.mode make

theorem moves_abandon (l : Ledger) (b : Body) (depth : Nat) (failure : Node) (t : Token) :
    Moves b l (b.abandon depth failure t) (l.step b (b.abandon depth failure t)) := by
  rw [Body.abandon]
  split
  · exact moves_leave l b _
  · exact moves_withMode l b _

theorem moves_skip (l : Ledger) (b : Body) (depth : Nat) (t : Token) :
    Moves b l (b.skip depth t) (l.step b (b.skip depth t)) := by
  rw [Body.skip]
  split <;> exact moves_withMode l b _

theorem moves_reject (l : Ledger) (b : Body) (t : Token) (fault : ScoreFault) :
    Moves b l (b.reject t fault) (l.step b (b.reject t fault)) := by
  cases h : b.enclosing with
  | nil =>
    rw [Body.reject_of_document h, Body.skip]
    split <;> exact moves_report l b _ _
  | cons e es =>
    rw [Body.reject_of_group h, Body.abandon]
    split
    · rw [Body.report_of_group h]
      exact moves_left l h _ _ _
    · exact moves_report l b _ _

theorem moves_resolve (l : Ledger) (b : Body) (t : Token) :
    Moves b l (b.resolve t) (l.step b (b.resolve t)) := by
  have h := b.settling_resolve t
  generalize b.resolve t = d at h ⊢
  cases h with
  | none => exact moves_self l b
  | insert => exact moves_complete l b _
  | undefined => exact moves_report l b _ _

/-- All but a mark that is declared shows in the groups, the nodes and the diagnostics. -/
theorem moves_of_taking (l : Ledger) (h : b.Taking t d)
    (hdeclare : ∀ m, b.mode = .reading (.mark m) → t.kind ≠ .equals) : Moves b l d (l.step b d) := by
  cases h with
  | wait => exact moves_withMode l b _
  | declare hmode ht => exact absurd ht (hdeclare _ hmode)
  | complete => exact moves_complete l b _
  | enter =>
    rw [step_of_entered l rfl]
    exact .enter _ _
  | close => exact moves_leave l b _
  | reject => exact moves_reject l b t _
  | abandon => exact moves_abandon l b _ _ t
  | skip => exact moves_skip l b _ t

theorem resolve_of_equals (b : Body) (ht : t.kind = .equals) : b.resolve t = b := by
  rw [Body.resolve.eq_def]
  split
  · rfl
  · next hne => exact absurd ht hne
  · rfl

theorem read_of_equals (l : Ledger) {m : Token} (hmode : b.mode = .reading (.mark m))
    (ht : t.kind = .equals) : l.read b t = l.declare m.text := by
  rw [read.eq_def, hmode, ht]

theorem read_of_ne_equals (l : Ledger)
    (h : ∀ m, b.mode = .reading (.mark m) → t.kind ≠ .equals) :
    l.read b t = (l.step b (b.resolve t)).step (b.resolve t) (b.read t) := by
  rw [read.eq_def]
  split
  · next m hmode ht => exact absurd ht (h m hmode)
  · rfl

theorem moves_read (l : Ledger) (b : Body) (t : Token) :
    Moves (b.resolve t) (l.step b (b.resolve t)) (b.read t) (l.read b t) := by
  by_cases h : ∃ m, b.mode = .reading (.mark m) ∧ t.kind = .equals
  · obtain ⟨m, hmode, ht⟩ := h
    have hread : b.read t = b.awaiting (.reading .nothing) (m.text :: b.level.declaring) := by
      rw [Body.read, resolve_of_equals b ht, Body.take, hmode]
      rfl
    rw [read_of_equals l hmode ht, hread, resolve_of_equals b ht, step_of_same l rfl rfl rfl]
    exact .declare m.text _
  · have hne : ∀ m, b.mode = .reading (.mark m) → t.kind ≠ .equals := fun m hm ht => h ⟨m, hm, ht⟩
    rw [read_of_ne_equals l hne]
    refine moves_of_taking _ (b.taking_read t) fun m hm ht => ?_
    rw [resolve_of_equals b ht] at hm
    exact hne m hm ht

theorem afterFrom_append (b : Body) (l : Ledger) (ts us : List Token) :
    afterFrom b l (ts ++ us) = afterFrom (ts.foldl Body.read b) (afterFrom b l ts) us := by
  induction ts generalizing b l with
  | nil => rfl
  | cons t ts ih => exact ih (b.read t) (l.read b t)

theorem after_concat (hb : Document.after ts = .body b) (t : Token) :
    after (ts ++ [t]) = (after ts).read b t := by
  rw [after, afterFrom_append, ← Document.foldl_read_of_after hb, after]
  rfl

/-- The marks that have been declared remain. -/
theorem Moves.marks (h : Moves b l d m) : l.marks <+: m.marks := by
  cases h with
  | stay | declare | enter => exact List.prefix_refl _
  | complete => exact List.prefix_append ..
  | fail =>
    rw [Ledger.fail]
    split <;> exact List.prefix_refl _
  | leave =>
    rw [Ledger.leave]
    split
    · exact List.prefix_refl _
    · exact List.prefix_append ..

/-- What is kept by every move in which at least `k` groups are open holds as long as there are. -/
theorem induction_above {P : Body → Ledger → Prop} {k : Nat}
    (hstep : ∀ b l d m, P b l → Moves b l d m → k ≤ d.enclosing.length → P d m)
    (hb : Document.after ts = .body b) (hP : P b (after ts))
    (hd : Document.after (ts ++ us) = .body d)
    (habove : ∀ ps qs e, us = ps ++ qs → Document.after (ts ++ ps) = .body e →
      k ≤ e.enclosing.length) : P d (after (ts ++ us)) := by
  induction us using List.reverseRecOn generalizing d with
  | nil =>
    rw [List.append_nil] at hd ⊢
    obtain rfl := Document.body.inj (hb.symm.trans hd)
    exact hP
  | append_singleton us u ih =>
    have hlast := habove (us ++ [u]) [] d (by simp) hd
    rw [← List.append_assoc] at hd ⊢
    obtain ⟨c, hc⟩ := Document.body_of_after_append hd
    have hinit := ih hc fun ps qs e hps he => habove ps (qs ++ [u]) e (by rw [hps]; simp) he
    have hcurrent := habove us [u] c rfl hc
    obtain ⟨rfl, -⟩ := Document.read_of_after hc hd
    rw [after_concat hc]
    have hresolved := hstep _ _ _ _ hinit (moves_resolve _ c u) (by rwa [Body.enclosing_resolve])
    exact hstep _ _ _ _ hresolved (moves_read _ c u) hlast

end Ledger

-- ════════════════════════════════════════════════════════════════════════
-- What a node does that is completed
-- ════════════════════════════════════════════════════════════════════════

namespace Body

variable (b : Body) (n : Node)

/-- A node is the section of each mark in turn. -/
theorem marks_declare (ws : List Bytes) :
    (b.declare n ws).1.sections.toList.map Section.mark =
      b.sections.toList.map Section.mark ++ ws := by
  induction ws generalizing b n with
  | nil => exact (List.append_nil _).symm
  | cons w ws ih =>
    refine (ih (b.bind w n) _).trans ?_
    rw [bind, Array.toList_push, List.map_append, List.append_assoc]
    rfl

/-- The sections of the marks come before what they stood for. -/
theorem scope_declare (ws : List Bytes) (name : Bytes) :
    (b.declare n ws).1.level.scope[name]? =
      ((ws.zipIdx b.sections.size).reverse.lookup name).or b.level.scope[name]? := by
  induction ws generalizing b n with
  | nil => rfl
  | cons w ws ih =>
    refine (ih (b.bind w n) _).trans ?_
    have hbind : (b.bind w n).level.scope[name]? =
        if w = name then some b.sections.size else b.level.scope[name]? := by
      rw [bind, Std.TreeMap.getElem?_insert]
      by_cases hw : w = name
      · rw [if_pos hw, if_pos (Std.compare_eq_iff_eq.2 hw)]
      · rw [if_neg hw, if_neg (mt Std.compare_eq_iff_eq.1 hw)]
    have hsize : (b.bind w n).sections.size = b.sections.size + 1 := Array.size_push ..
    rw [hbind, hsize, List.zipIdx_cons, List.reverse_cons, List.lookup_append, Option.or_assoc,
      lookup_cons_eq]
    split <;> rfl

end Body

namespace Page

/-- The level has declared what the page says, where the sections have these marks. -/
structure Describes (marks : List Bytes) (p : Page) (level : Level) : Prop where
  waiting : level.declaring = p.waiting
  scope : ∀ name, level.scope[name]? = p.entries.lookup name
  named : ∀ e ∈ p.entries, marks[e.2]? = some e.1
  latest : p.entries.Pairwise (·.2 > ·.2)

variable {marks marks' : List Bytes} {p : Page} {level : Level}

theorem Describes.empty (marks : List Bytes) : Describes marks {} {} :=
  ⟨rfl, fun name => by simp, by simp, .nil⟩

theorem Describes.lt_length (h : p.Describes marks level) {e : Bytes × Nat} (he : e ∈ p.entries) :
    e.2 < marks.length := by
  obtain ⟨hlt, -⟩ := List.getElem?_eq_some_iff.1 (h.named e he)
  exact hlt

theorem Describes.mono (h : p.Describes marks level) (hle : marks <+: marks') :
    p.Describes marks' level := by
  refine ⟨h.waiting, h.scope, fun e he => ?_, h.latest⟩
  obtain ⟨more, rfl⟩ := hle
  rw [List.getElem?_append_left (h.lt_length he)]
  exact h.named e he

/-- The sections of the marks are numbered on, so that the last of them is the latest. -/
theorem pairwise_zipIdx (ws : List Bytes) (start : Nat) :
    (ws.zipIdx start).reverse.Pairwise (·.2 > ·.2) := by
  have hlt : ((ws.zipIdx start).map Prod.snd).Pairwise (· < ·) := by
    rw [List.zipIdx_map_snd]
    exact List.pairwise_lt_range'
  exact List.pairwise_reverse.2 (List.pairwise_map.1 hlt)

theorem Describes.complete {b : Body} (h : p.Describes marks b.level)
    (hmarks : b.sections.toList.map Section.mark = marks) (n : Node) :
    (p.complete marks.length).Describes (marks ++ p.waiting) (b.complete n).level := by
  have hsize : b.sections.size = marks.length := by rw [← hmarks, List.length_map, Array.length_toList]
  have hmem : ∀ e ∈ (p.waiting.zipIdx marks.length).reverse,
      marks.length ≤ e.2 ∧ p.waiting[e.2 - marks.length]? = some e.1 :=
    fun e he => List.mk_mem_zipIdx_iff_le_and_getElem?_sub.1 (List.mem_reverse.1 he)
  refine ⟨rfl, fun name => ?_, fun e he => ?_, ?_⟩
  · have hscope := b.scope_declare n b.level.declaring name
    rw [hsize, h.waiting, h.scope, ← List.lookup_append] at hscope
    rw [Page.complete, ← hscope, ← h.waiting]
    rfl
  · rcases List.mem_append.1 he with he | he
    · obtain ⟨hle, hget⟩ := hmem e he
      rwa [List.getElem?_append_right hle]
    · rw [List.getElem?_append_left (h.lt_length he)]
      exact h.named e he
  · refine List.pairwise_append.2 ⟨pairwise_zipIdx _ _, h.latest, fun e he e' he' => ?_⟩
    exact (h.lt_length he').trans_le (hmem e he).1

end Page

-- ════════════════════════════════════════════════════════════════════════
-- The body is as the ledger says
-- ════════════════════════════════════════════════════════════════════════

namespace Ledger

/-- Sections, scopes and waiting marks of a body are those of the ledger. -/
structure Describes (l : Ledger) (b : Body) : Prop where
  marks : b.sections.toList.map Section.mark = l.marks
  page : l.page.Describes l.marks b.level
  around : List.Forall₂ (fun p (e : Enclosing) => p.Describes l.marks e.level) l.around b.enclosing

variable {b d : Body} {l m : Ledger} {ts us : List Token} {i : Nat} {name : Bytes}

theorem Describes.size_eq (h : l.Describes b) : b.sections.size = l.marks.length := by
  rw [← h.marks, List.length_map, Array.length_toList]

theorem Describes.complete (h : l.Describes b) (n : Node) : l.complete.Describes (b.complete n) := by
  refine ⟨?_, h.page.complete h.marks n, ?_⟩
  · rw [Ledger.complete, ← h.marks, ← h.page.waiting]
    exact b.marks_declare n b.level.declaring
  · rw [Body.enclosing_complete]
    exact h.around.imp fun _ _ hp => hp.mono (List.prefix_append ..)

/-- A fault gives up the marks that wait in the document. -/
theorem Describes.report (h : l.Describes b) (x : Diagnostic) : l.fail.Describes (b.report x) := by
  have haround := h.around
  cases henclosing : b.enclosing with
  | nil =>
    rw [henclosing] at haround
    have hl := List.forall₂_nil_right_iff.1 haround
    have hfail : l.fail = { l with page := { l.page with waiting := [] } } := by rw [Ledger.fail, hl]
    rw [Body.report_of_document henclosing, hfail]
    exact ⟨h.marks, ⟨rfl, h.page.scope, h.page.named, h.page.latest⟩, h.around⟩
  | cons e es =>
    rw [henclosing] at haround
    obtain ⟨p, ps, -, -, hl⟩ := List.forall₂_cons_right_iff.1 haround
    have hfail : l.fail = l := by rw [Ledger.fail, hl]
    rw [Body.report_of_group henclosing, hfail]
    exact ⟨h.marks, h.page, h.around⟩

/-- The ledger keeps describing the body. -/
theorem Describes.moves (h : l.Describes b) (hd : Moves b l d m) : m.Describes d := by
  cases hd with
  | stay => exact ⟨h.marks, h.page, h.around⟩
  | declare mark =>
    have hwaiting := congrArg (mark :: ·) h.page.waiting
    exact ⟨h.marks, ⟨hwaiting, h.page.scope, h.page.named, h.page.latest⟩, h.around⟩
  | complete n => exact h.complete n
  | fail x =>
    obtain ⟨hmarks, hpage, haround⟩ := h.report x
    exact ⟨hmarks, hpage, haround⟩
  | enter => exact ⟨h.marks, .empty _, .cons h.page h.around⟩
  | @leave e es henclosing diagnostics mode n =>
    have haround := h.around
    rw [henclosing] at haround
    obtain ⟨p, ps, hp, hps, hl⟩ := List.forall₂_cons_right_iff.1 haround
    have houter : Describes { l with page := p, around := ps }
        { b with level := e.level, enclosing := es, diagnostics, mode } := ⟨h.marks, hp, hps⟩
    rw [Ledger.leave, hl]
    exact houter.complete n

theorem describes_after (hb : Document.after ts = .body b) : (after ts).Describes b := by
  have hstart : Document.after [] = .body {} := rfl
  have hempty : (after []).Describes {} := ⟨rfl, .empty _, .nil⟩
  rw [← List.nil_append ts] at hb ⊢
  exact induction_above (k := 0) (P := fun b l => Describes l b) (fun _ _ _ _ h hd _ => h.moves hd)
    hstart hempty hb fun _ _ _ _ _ => Nat.zero_le _

theorem Describes.lookup_eq (h : l.Describes b) (name : Bytes) :
    b.lookup name = l.pages.findSome? (·.entries.lookup name) := by
  have haround : ∀ {ps : List Page} {es : List Enclosing},
      List.Forall₂ (fun p (e : Enclosing) => p.Describes l.marks e.level) ps es →
      (es.findSome? fun e => e.level.scope[name]?) = ps.findSome? (·.entries.lookup name) := by
    intro ps es hps
    induction hps with
    | nil => rfl
    | cons hp _ ih => rw [List.findSome?_cons, List.findSome?_cons, hp.scope, ih]
  rw [Body.lookup, pages, List.findSome?_cons, h.page.scope, haround h.around]
  cases l.page.entries.lookup name <;> rfl

theorem Describes.exists_level (h : l.Describes b) :
    ∀ p ∈ l.pages, ∃ level, p.Describes l.marks level := by
  refine List.forall_mem_cons.2 ⟨⟨_, h.page⟩, fun p hp => ?_⟩
  obtain ⟨k, hk, rfl⟩ := List.mem_iff_getElem.1 hp
  exact ⟨_, h.around.get hk (by rwa [← h.around.length_eq])⟩

/-- A mark stands for the section that the ledger says, and for none if there is none. -/
theorem Describes.lookup (h : l.Describes b) (name : Bytes) :
    (∃ i, l.Stands name i ∧ b.lookup name = some i) ∨ l.Lacks name ∧ b.lookup name = none := by
  rw [h.lookup_eq]
  cases hfind : l.pages.findSome? (·.entries.lookup name) with
  | none =>
    refine .inr ⟨fun p hp e he => ?_, rfl⟩
    have hnone := List.lookup_eq_none_iff.1 (List.findSome?_eq_none_iff.1 hfind p hp) e he
    exact (bne_iff_ne.1 hnone).symm
  | some i =>
    obtain ⟨inner, p, around, hpages, hp, hinner⟩ := List.findSome?_eq_some_iff.1 hfind
    obtain ⟨later, earlier, hentries, hlater⟩ := List.lookup_eq_some_iff.1 hp
    refine .inl ⟨i, ⟨inner, p, around, hpages, fun q hq e he => ?_, by simp [hentries],
      fun j hj => ?_⟩, rfl⟩
    · exact (bne_iff_ne.1 (List.lookup_eq_none_iff.1 (hinner q hq) e he)).symm
    · obtain ⟨level, hlevel⟩ := h.exists_level p (by simp [hpages])
      have hlatest := hlevel.latest
      rw [hentries] at hj hlatest
      rcases List.mem_append.1 hj with hj | hj
      · exact absurd rfl (bne_iff_ne.1 (hlater _ hj))
      · rcases List.mem_cons.1 hj with heq | hj
        · rw [(Prod.mk.inj heq).2]
        · have hpairs := (List.pairwise_append.1 hlatest).2.1
          exact Nat.le_of_lt ((List.pairwise_cons.1 hpairs).1 _ hj)

end Ledger

end DegreeScore
