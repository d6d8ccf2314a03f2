import DegreeScore.Proofs.Score.Deriving
import Mathlib.Data.List.Induction
import Mathlib.Data.List.Infix

/-!
# What a token does to a body

A token first settles what a mark before it was (`Body.Settling`) and is then taken (`Body.Taking`).
The two relations say everything that may happen there, with the conditions under which it does, and
what holds of every step of a body is proved once for each of their cases.
-/

namespace DegreeScore

/-- Whether a token of this kind opens a group. -/
def TokenKind.isOpening : TokenKind → Bool
  | .opening _ => true
  | _ => false

/-- Whether a token of this kind closes a group. -/
def TokenKind.isClosing : TokenKind → Bool
  | .closing _ => true
  | _ => false

/-- A token that is no bracket. -/
structure Token.Plain (t : Token) : Prop where
  opening : t.kind.isOpening = false
  closing : t.kind.isClosing = false

/-- A node without children that stands for something that was written. -/
inductive Node.IsLeaf : Node → Prop
  | note {degree accidental : Int64} {o : Option Options} : IsLeaf (.note degree accidental o)
  | rest {o : Option Options} : IsLeaf (.rest o)
  | insert {i : Int} : IsLeaf (.insert i)
  | event {l : Bytes} {o : Option Options} : IsLeaf (.event l o)

namespace Body

/-- What becomes of a mark that has been read when `t` follows it. -/
inductive Settling (b : Body) (t : Token) : Body → Prop
  /-- There is no mark, or it is being declared. -/
  | none (hmark : ∀ m, b.mode = .reading (.mark m) → t.kind = .equals) : Settling b t b
  | insert {m : Token} {i : Nat} (hmode : b.mode = .reading (.mark m)) (ht : t.kind ≠ .equals)
      (hi : b.lookup m.text = some i) : Settling b t (b.complete (.insert i))
  | undefined {m : Token} (hmode : b.mode = .reading (.mark m)) (ht : t.kind ≠ .equals)
      (hnone : b.lookup m.text = none) : Settling b t (b.report ⟨m, .undefinedMark⟩)

/-- What a token does once a mark before it has been settled. -/
inductive Taking (b : Body) (t : Token) : Body → Prop
  /-- The node being read goes on. -/
  | wait {p q : Progress} (hmode : b.mode = .reading p) (ht : t.Plain)
      (hq : ∀ m, q = .mark m → m = t ∧ t.kind = .mark ∧ p = .nothing) :
      Taking b t { b with mode := .reading q }
  /-- The mark before an `=` is to be declared, when its node is completed. -/
  | declare {m : Token} (hmode : b.mode = .reading (.mark m)) (ht : t.kind = .equals) :
      Taking b t (b.awaiting (.reading .nothing) (m.text :: b.level.declaring))
  | complete {p : Progress} {n : Node} (hmode : b.mode = .reading p) (ht : t.Plain)
      (hn : n.IsLeaf) : Taking b t (b.complete n)
  | enter {p : Progress} {g : Grouping} {o : Option Options} (hmode : b.mode = .reading p)
      (ht : t.kind = .opening g) : Taking b t (b.enter g o)
  | close {e : Enclosing} {es : List Enclosing} (hmode : b.mode = .reading .nothing)
      (ht : t.kind = .closing e.grouping) (henclosing : b.enclosing = e :: es) :
      Taking b t (b.leave b.groupNode)
  | reject {p : Progress} {fault : ScoreFault} (hmode : b.mode = .reading p) :
      Taking b t (b.reject t fault)
  | abandon {depth : Nat} {failure : Node} (hmode : b.mode = .abandoning depth failure) :
      Taking b t (b.abandon depth failure t)
  | skip {depth : Nat} (hmode : b.mode = .skipping depth) : Taking b t (b.skip depth t)

variable (b : Body) (t : Token)

theorem settling_resolve : b.Settling t (b.resolve t) := by
  by_cases hmark : ∃ m, b.mode = .reading (.mark m) ∧ t.kind ≠ .equals
  · obtain ⟨m, hmode, ht⟩ := hmark
    rw [resolve_of_mark hmode ht, refer]
    split
    · next i hi => exact .insert hmode ht hi
    · next hnone => exact .undefined hmode ht hnone
  · have hself : b.resolve t = b := by
      rw [resolve.eq_def]
      split
      · rfl
      · next m hmode ht => exact absurd ⟨m, hmode, ht⟩ hmark
      · rfl
    rw [hself]
    exact .none fun m hm => by_contra fun ht => hmark ⟨m, hm, ht⟩

variable {b t}

/-- No mark is left when it has been settled. -/
theorem Settling.mark {c : Body} (h : b.Settling t c) :
    ∀ m, c.mode = .reading (.mark m) → t.kind = .equals := by
  intro m hm
  cases h with
  | none hmark => exact hmark m hm
  | insert => cases hm
  | undefined =>
    rw [report] at hm
    dsimp only at hm
    split at hm <;> cases hm

section

variable {p : Progress}

theorem taking_primary (hmode : b.mode = .reading p) (o : Option Options) :
    b.Taking t (b.primary o t) := by
  have hplain : ∀ {k : TokenKind}, t.kind = k → k.isOpening = false → k.isClosing = false →
      t.Plain := by
    rintro k rfl hopening hclosing
    exact ⟨hopening, hclosing⟩
  rw [primary]
  split
  · next g ht => exact .enter hmode ht
  · next ht =>
    split
    · exact .complete hmode (hplain ht rfl rfl) .note
    · exact .reject hmode
  · next ht =>
    split
    · exact .complete hmode (hplain ht rfl rfl) .note
    · exact .reject hmode
  · next ht => exact .complete hmode (hplain ht rfl rfl) .rest
  · exact .reject hmode

theorem taking_node (hmode : b.mode = .reading p) (o : Option Options) :
    b.Taking t (b.node o t) := by
  have hwait : ∀ {k : TokenKind} (q : Progress), t.kind = k → k.isOpening = false →
      k.isClosing = false → (∀ m, q ≠ .mark m) → b.Taking t { b with mode := .reading q } := by
    rintro k q rfl hopening hclosing hq
    exact .wait hmode ⟨hopening, hclosing⟩ fun m hm => absurd hm (hq m)
  rw [node.eq_def]
  split
  · next ht =>
    rw [keyWord]
    split
    · exact .reject hmode
    · exact hwait _ ht rfl rfl (by simp)
  · next ht =>
    rw [duration]
    split
    · exact .reject hmode
    · split
      · exact hwait _ ht rfl rfl (by simp)
      · exact .reject hmode
  · next ht => exact hwait _ ht rfl rfl (by simp)
  · next ht => exact .complete hmode ⟨by rw [ht]; rfl, by rw [ht]; rfl⟩ .event
  · exact taking_primary hmode _

theorem taking_next (hmode : b.mode = .reading .nothing) : b.Taking t (b.next t) := by
  rw [next.eq_def]
  split
  · next ht =>
    refine .wait hmode ⟨by rw [ht]; rfl, by rw [ht]; rfl⟩ fun m hm => ?_
    exact ⟨(Progress.mark.inj hm).symm, ht, rfl⟩
  · next g e es ht _ henclosing =>
    split
    · next hg => exact .close hmode (hg ▸ ht) henclosing
    · exact .reject hmode
  · exact taking_node hmode none

theorem taking_keyValue (hmode : b.mode = .reading p) (o : Options) :
    b.Taking t (b.keyValue o t) := by
  rw [keyValue]
  split
  · next ht =>
    split
    · refine .wait hmode ⟨by rw [ht]; rfl, by rw [ht]; rfl⟩ fun m hm => ?_
      cases hm
    · exact .reject hmode
  · exact .reject hmode

end

theorem taking_take (hmark : ∀ m, b.mode = .reading (.mark m) → t.kind = .equals) :
    b.Taking t (b.take t) := by
  rw [take]
  split
  · next hmode => exact taking_next hmode
  · next m hmode => exact .declare hmode (hmark m hmode)
  · next hmode => exact taking_node hmode _
  · next hmode => exact taking_keyValue hmode _
  · next hmode => exact .abandon hmode
  · next hmode => exact .skip hmode

variable (b t)

theorem taking_read : (b.resolve t).Taking t (b.read t) :=
  taking_take (b.settling_resolve t).mark

-- ════════════════════════════════════════════════════════════════════════
-- Completing, reporting and leaving
-- ════════════════════════════════════════════════════════════════════════

@[simp] theorem enclosing_declare (n : Node) (marks : List Bytes) :
    (b.declare n marks).1.enclosing = b.enclosing := by
  induction marks generalizing b n with
  | nil => rfl
  | cons mark rest ih => exact ih (b.bind mark n) _

@[simp] theorem enclosing_complete (n : Node) : (b.complete n).enclosing = b.enclosing :=
  b.enclosing_declare n b.level.declaring

theorem nodes_declare (n : Node) (marks : List Bytes) :
    (b.declare n marks).1.level.nodes = b.level.nodes := by
  induction marks generalizing b n with
  | nil => rfl
  | cons mark rest ih => exact ih (b.bind mark n) _

theorem sections_declare (n : Node) (marks : List Bytes) :
    b.sections.toList <+: (b.declare n marks).1.sections.toList := by
  induction marks generalizing b n with
  | nil => exact List.prefix_refl _
  | cons mark rest ih =>
    refine List.IsPrefix.trans ?_ (ih (b.bind mark n) _)
    rw [bind, Array.toList_push]
    exact List.prefix_append ..

/-- Completing a node takes no section away. -/
theorem sections_complete (n : Node) : b.sections.toList <+: (b.complete n).sections.toList :=
  b.sections_declare n b.level.declaring

@[simp] theorem enclosing_report (d : Diagnostic) : (b.report d).enclosing = b.enclosing := by
  rw [report]
  dsimp only
  split <;> rfl

@[simp] theorem sections_report (d : Diagnostic) : (b.report d).sections = b.sections := by
  rw [report]
  dsimp only
  split <;> rfl

@[simp] theorem enclosing_leave (make : Enclosing → Node) :
    (b.leave make).enclosing = b.enclosing.tail := by
  rw [leave]
  split
  · next h => rw [h, List.tail_nil]
  · next h => rw [enclosing_complete, h, List.tail_cons]

@[simp] theorem enclosing_skip (depth : Nat) : (b.skip depth t).enclosing = b.enclosing := by
  rw [skip]
  split <;> rfl

/-- Giving up a group leaves the levels around it as they are. -/
theorem enclosing_abandon (depth : Nat) (failure : Node) :
    (b.abandon depth failure t).enclosing <:+ b.enclosing := by
  rw [abandon]
  split
  · rw [enclosing_leave]
    exact List.tail_suffix _
  · exact List.suffix_refl _

theorem enclosing_reject (fault : ScoreFault) : (b.reject t fault).enclosing <:+ b.enclosing := by
  rw [reject]
  split
  · exact (enclosing_abandon _ t _ _).trans (by rw [enclosing_report])
  · rw [enclosing_skip, enclosing_report]

variable {b t}

/-- A fault in the document leaves a node for the item, which has been read. -/
theorem report_of_document (h : b.enclosing = []) (d : Diagnostic) :
    b.report d = { b with
      diagnostics := b.diagnostics.push d
      level := { b.level with nodes := d.node :: b.level.nodes, declaring := [] }
      mode := .reading .nothing } := by
  simp only [report, h]

/-- A fault in a group abandons it. -/
theorem report_of_group {e : Enclosing} {es : List Enclosing} (h : b.enclosing = e :: es)
    (d : Diagnostic) :
    b.report d = { b with diagnostics := b.diagnostics.push d, mode := .abandoning 1 d.node } := by
  simp only [report, h]

/-- In the document the token at fault is the first to be skipped. -/
theorem reject_of_document (h : b.enclosing = []) (fault : ScoreFault) :
    b.reject t fault = (b.report ⟨t, fault⟩).skip 0 t := by
  simp only [reject, report_of_document h]

/-- In a group the token at fault is the first to be passed over. -/
theorem reject_of_group {e : Enclosing} {es : List Enclosing} (h : b.enclosing = e :: es)
    (fault : ScoreFault) :
    b.reject t fault = (b.report ⟨t, fault⟩).abandon 1 (Diagnostic.node ⟨t, fault⟩) t := by
  simp only [reject, report_of_group h]

theorem Settling.enclosing {c : Body} (h : b.Settling t c) : c.enclosing = b.enclosing := by
  cases h <;> simp

@[simp] theorem enclosing_resolve (b : Body) (t : Token) :
    (b.resolve t).enclosing = b.enclosing :=
  (b.settling_resolve t).enclosing

theorem leave_of_enclosing {e : Enclosing} {es : List Enclosing} (h : b.enclosing = e :: es)
    (make : Enclosing → Node) :
    b.leave make = complete { b with level := e.level, enclosing := es } (make e) := by
  simp only [leave, h]

/-- A level more is around the body only if the token opens a group. -/
theorem Taking.opening {d : Body} {e : Enclosing} (h : b.Taking t d)
    (hd : d.enclosing = e :: b.enclosing) :
    t.kind = .opening e.grouping ∧ e.level = b.level ∧ d = b.enter e.grouping e.options := by
  have hsuffix : ¬d.enclosing <:+ b.enclosing := by
    intro hle
    have hlength := hle.length_le
    rw [hd, List.length_cons] at hlength
    omega
  cases h with
  | wait | declare => exact absurd (List.suffix_refl _) hsuffix
  | complete => exact absurd (by rw [enclosing_complete]) hsuffix
  | enter hmode ht =>
    obtain ⟨rfl, -⟩ := List.cons.inj hd
    exact ⟨ht, rfl, rfl⟩
  | close => exact absurd (by rw [enclosing_leave]; exact List.tail_suffix _) hsuffix
  | reject => exact absurd (b.enclosing_reject t _) hsuffix
  | abandon => exact absurd (b.enclosing_abandon t _ _) hsuffix
  | skip => exact absurd (by rw [enclosing_skip]) hsuffix

/-- A token that is taken adds a diagnostic only if it is rejected. -/
theorem Taking.rejects {d : Body} (h : b.Taking t d) (hd : d.diagnostics ≠ b.diagnostics) :
    ∃ fault, d = b.reject t fault := by
  cases h with
  | reject => exact ⟨_, rfl⟩
  | wait | declare | enter => exact absurd rfl hd
  | complete | close | abandon | skip => exact absurd (by simp) hd

end Body

-- ════════════════════════════════════════════════════════════════════════
-- Token after token
-- ════════════════════════════════════════════════════════════════════════

namespace Document

/-- The document when these tokens have been read. -/
def after (ts : List Token) : Document := ts.foldl step .empty

variable {ts us : List Token} {t : Token} {s : Document} {b d : Body}

theorem after_append (ts us : List Token) : after (ts ++ us) = us.foldl step (after ts) :=
  List.foldl_append

theorem after_concat (ts : List Token) (t : Token) : after (ts ++ [t]) = (after ts).step t :=
  after_append ts [t]

/-- A body goes on with every token but the end of input and a comma between items. -/
theorem step_body (ht : t.kind ≠ .endOfInput)
    (hcomma : t.kind = .comma → (b.resolve t).isBetweenItems = false) :
    step (.body b) t = .body (b.read t) := by
  rw [step, bodyStep]
  split
  · next heq => exact absurd heq ht
  · next heq => rw [hcomma heq, if_neg Bool.false_ne_true, Body.read]
  · rfl

theorem body_of_step (h : s.step t = .body d) :
    ∃ b, s = .body b ∧ d = b.read t ∧ t.kind ≠ .endOfInput := by
  cases s with
  | body b =>
    refine ⟨b, rfl, ?_⟩
    rw [step, bodyStep] at h
    split at h
    · cases h
    · next hcomma =>
      split at h
      · cases h
      · exact ⟨(Document.body.inj h).symm, by simp [hcomma]⟩
    · next hstop _ => exact ⟨(Document.body.inj h).symm, hstop⟩
  | metadata | trailing =>
    rw [step] at h
    split at h <;> cases h
  | finished => cases h

theorem append_cons_concat (ts us : List Token) (t u : Token) :
    ts ++ t :: (us ++ [u]) = ts ++ t :: us ++ [u] :=
  (List.append_assoc ts (t :: us) [u]).symm

theorem read_of_after (hb : after ts = .body b) (hd : after (ts ++ [t]) = .body d) :
    d = b.read t ∧ t.kind ≠ .endOfInput := by
  rw [after_concat, hb] at hd
  obtain ⟨b', hb', hread, ht⟩ := body_of_step hd
  obtain rfl := Document.body.inj hb'
  exact ⟨hread, ht⟩

/-- A document that is still in its body has never left it. -/
theorem body_of_after_append (h : after (ts ++ us) = .body d) : ∃ b, after ts = .body b := by
  induction us using List.reverseRecOn generalizing d with
  | nil => exact ⟨d, by rwa [List.append_nil] at h⟩
  | append_singleton us u ih =>
    rw [← List.append_assoc, after_concat] at h
    obtain ⟨b, hb, -⟩ := body_of_step h
    exact ih hb

/-- A body has read every token so far. -/
theorem foldl_read_of_after (h : after ts = .body b) : b = ts.foldl Body.read {} := by
  induction ts using List.reverseRecOn generalizing b with
  | nil => exact (Document.body.inj h).symm
  | append_singleton ts t ih =>
    rw [after_concat] at h
    obtain ⟨a, ha, rfl, -⟩ := body_of_step h
    rw [List.foldl_append, ← ih ha]
    rfl

end Document

end DegreeScore
