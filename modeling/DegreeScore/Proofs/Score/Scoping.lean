import DegreeScore.Proofs.Score.Faults
import DegreeScore.Proofs.Score.Groups
import DegreeScore.Proofs.Score.Ledger

/-!
# The scopes of marks

Marks have lexical scopes (`Document.Scoped`). While a level stays open nothing around it changes, and
what comes of its page in the ledger is that declarations whose node is completed directly in it enter
it (`Ledger.Extends`). A section whose page is gone is on no page ever after (`Ledger.Hides`).
-/

namespace DegreeScore

/-- Declarations have entered the page, of sections from `start` on. -/
def Page.Grows (start : Nat) (p q : Page) : Prop :=
  ∃ new, q.entries = new ++ p.entries ∧ ∀ e ∈ new, start ≤ e.2

namespace Page

variable {p q r : Page} {start next : Nat}

theorem Grows.of_entries_eq (h : q.entries = p.entries) : p.Grows start q := ⟨[], h, by simp⟩

theorem Grows.trans (h : p.Grows start q) (h' : q.Grows next r) (hle : start ≤ next) :
    p.Grows start r := by
  obtain ⟨new, hq, hnew⟩ := h
  obtain ⟨more, hr, hmore⟩ := h'
  refine ⟨more ++ new, by rw [hr, hq, List.append_assoc], ?_⟩
  exact List.forall_mem_append.2 ⟨fun e he => hle.trans (hmore e he), hnew⟩

theorem grows_complete (p : Page) (start : Nat) : p.Grows start (p.complete start) :=
  ⟨(p.waiting.zipIdx start).reverse, rfl, fun _ he =>
    (List.mk_mem_zipIdx_iff_le_and_getElem?_sub.1 (List.mem_reverse.1 he)).1⟩

end Page

namespace Ledger

-- ════════════════════════════════════════════════════════════════════════
-- Levels that stay open
-- ════════════════════════════════════════════════════════════════════════

/-- Nothing but the page of the current level changes, and declarations enter it. -/
structure Touches (l m : Ledger) : Prop where
  marks : l.marks <+: m.marks
  page : l.page.Grows l.marks.length m.page
  around : m.around = l.around

/-- What has come of a body `a` with the ledger `l` while its level stayed open: levels inside it, and
declarations on its page. -/
structure Extends (a : Body) (l : Ledger) (d : Body) (m : Ledger) : Prop where
  marks : l.marks <+: m.marks
  levels : ∃ inner ps q, d.enclosing = inner ++ a.enclosing ∧ ps.length = inner.length ∧
    m.pages = ps ++ q :: l.around ∧ l.page.Grows l.marks.length q

variable {a b d : Body} {l m m' : Ledger} {e : Enclosing} {i : Nat} {ts us : List Token}

theorem touches_declare (l : Ledger) (mark : Bytes) : l.Touches (l.declare mark) :=
  ⟨List.prefix_refl _, .of_entries_eq rfl, rfl⟩

theorem touches_complete (l : Ledger) : l.Touches l.complete :=
  ⟨List.prefix_append .., l.page.grows_complete _, rfl⟩

theorem touches_fail (l : Ledger) : l.Touches l.fail := by
  rw [fail]
  split <;> exact ⟨List.prefix_refl _, .of_entries_eq rfl, rfl⟩

theorem Extends.refl (a : Body) (l : Ledger) : Extends a l a l :=
  ⟨List.prefix_refl _, [], [], l.page, rfl, rfl, rfl, .of_entries_eq rfl⟩

/-- Declarations enter the page of the current level, inside `a` or `a` itself. -/
theorem Extends.touch (h : Extends a l b m) (hd : d.enclosing = b.enclosing) (ht : m.Touches m') :
    Extends a l d m' := by
  obtain ⟨hmarks, inner, ps, q, henclosing, hlength, hpages, hgrows⟩ := h
  refine ⟨hmarks.trans ht.marks, ?_⟩
  rw [hd, pages, ht.around]
  cases ps with
  | nil =>
    obtain ⟨rfl, haround⟩ := List.cons.inj hpages
    exact ⟨inner, [], m'.page, henclosing, hlength, by rw [haround]; rfl,
      hgrows.trans ht.page hmarks.length_le⟩
  | cons p ps =>
    obtain ⟨-, haround⟩ := List.cons.inj hpages
    exact ⟨inner, m'.page :: ps, q, henclosing, hlength, by rw [haround]; rfl, hgrows⟩

theorem Extends.enter (h : Extends a l b m) (hd : d.enclosing = e :: b.enclosing) :
    Extends a l d m.enter := by
  obtain ⟨hmarks, inner, ps, q, henclosing, hlength, hpages, hgrows⟩ := h
  refine ⟨hmarks, e :: inner, {} :: ps, q, by rw [hd, henclosing]; rfl, by simp [hlength], ?_, hgrows⟩
  change {} :: m.pages = _
  rw [hpages]
  rfl

/-- A level inside `a` is left. -/
theorem Extends.leave (h : Extends a l b m) (hb : b.enclosing = e :: d.enclosing)
    (habove : a.enclosing.length ≤ d.enclosing.length) : Extends a l d m.leave := by
  obtain ⟨hmarks, inner, ps, q, henclosing, hlength, hpages, hgrows⟩ := h
  cases inner with
  | nil =>
    -- The level of `a` itself is not left.
    have hle := congrArg List.length (henclosing.symm.trans hb)
    simp only [List.nil_append, List.length_cons] at hle
    omega
  | cons e' inner =>
    cases ps with
    | nil => cases hlength
    | cons p ps =>
      obtain ⟨-, haround⟩ := List.cons.inj hpages
      obtain ⟨-, hinner⟩ := List.cons.inj (hb.symm.trans henclosing)
      obtain ⟨o, os, hos⟩ : ∃ o os, ps ++ q :: l.around = o :: os := by cases ps <;> exact ⟨_, _, rfl⟩
      have houter : Extends a l d { m with page := o, around := os } :=
        ⟨hmarks, inner, ps, q, hinner, Nat.succ.inj hlength, hos.symm, hgrows⟩
      rw [Ledger.leave, haround.trans hos]
      exact houter.touch rfl (touches_complete _)

theorem Extends.moves (h : Extends a l b m) (hd : Moves b m d m')
    (habove : a.enclosing.length ≤ d.enclosing.length) : Extends a l d m' := by
  cases hd with
  | stay => exact ⟨h.marks, h.levels⟩
  | declare => exact h.touch rfl (touches_declare m _)
  | complete n => exact h.touch (b.enclosing_complete n) (touches_complete m)
  | fail x => exact h.touch (b.enclosing_report x) (touches_fail m)
  | enter => exact h.enter rfl
  | leave henclosing => exact h.leave (by rw [henclosing, Body.enclosing_complete]) habove

/-- The page of the level of `a` when it is current again. -/
theorem Extends.current (h : Extends a l d m) (hlength : d.enclosing.length = a.enclosing.length) :
    m.around = l.around ∧ l.page.Grows l.marks.length m.page := by
  obtain ⟨-, inner, ps, q, henclosing, hps, hpages, hgrows⟩ := h
  rw [henclosing, List.length_append] at hlength
  obtain rfl : ps = [] := List.eq_nil_of_length_eq_zero (by omega)
  obtain ⟨rfl, haround⟩ := List.cons.inj hpages
  exact ⟨haround, hgrows⟩

/-- What comes of a group: its page is gone when it is left, and it is a node of the level around it. -/
theorem Extends.left {c c' : Body} (h : Extends c l.enter c' m) (hc : c.enclosing = e :: d.enclosing)
    (hd : Moves c' m d m') : m' = complete { l with marks := m.marks } := by
  obtain ⟨-, inner, ps, q, henclosing, hps, hpages, -⟩ := h
  have hlength := congrArg List.length henclosing
  rw [hc, List.length_append, List.length_cons] at hlength
  have hinside : ¬c'.enclosing.length ≤ d.enclosing.length := by omega
  cases hd with
  | stay | declare => exact absurd (Nat.le_refl _) hinside
  | complete n => exact absurd (by rw [Body.enclosing_complete]) hinside
  | fail x => exact absurd (by rw [Body.enclosing_report]) hinside
  | enter => exact absurd (Nat.le_succ _) hinside
  | leave hleft =>
    rw [hleft, Body.enclosing_complete, List.length_cons] at hlength
    dsimp only at hlength
    obtain rfl : ps = [] := List.eq_nil_of_length_eq_zero (by omega)
    obtain ⟨-, haround⟩ := List.cons.inj hpages
    rw [Ledger.leave, haround]
    rfl

-- ════════════════════════════════════════════════════════════════════════
-- Sections that are not visible
-- ════════════════════════════════════════════════════════════════════════

/-- The section is complete and on no page. -/
structure Hides (m : Ledger) (i : Nat) : Prop where
  complete : i < m.marks.length
  hidden : ∀ p ∈ m.pages, ∀ e ∈ p.entries, e.2 ≠ i

/-- A section that is hidden stays so, because only later ones enter a page. -/
theorem Hides.touch (h : Hides m i) (ht : m.Touches m') : Hides m' i := by
  refine ⟨h.complete.trans_le ht.marks.length_le, ?_⟩
  rw [pages, ht.around]
  refine List.forall_mem_cons.2 ⟨fun e he => ?_, fun p hp => h.hidden p (List.mem_cons_of_mem _ hp)⟩
  obtain ⟨new, hentries, hnew⟩ := ht.page
  rw [hentries] at he
  rcases List.mem_append.1 he with he | he
  · exact Nat.ne_of_gt (h.complete.trans_le (hnew e he))
  · exact h.hidden m.page List.mem_cons_self e he

theorem Hides.moves (h : Hides m i) (hd : Moves b m d m') : Hides m' i := by
  cases hd with
  | stay => exact h
  | declare => exact h.touch (touches_declare m _)
  | complete => exact h.touch (touches_complete m)
  | fail => exact h.touch (touches_fail m)
  | enter => exact ⟨h.complete, List.forall_mem_cons.2 ⟨List.forall_mem_nil _, h.hidden⟩⟩
  | leave =>
    rw [Ledger.leave]
    split
    · exact h
    · next p around haround =>
      have houter : Hides { m with page := p, around } i := by
        refine ⟨h.complete, fun q hq => h.hidden q (List.mem_cons_of_mem _ ?_)⟩
        rwa [haround]
      exact houter.touch (touches_complete _)

theorem Hides.lookup_ne (h : Hides m i) (hd : m.Describes d) (name : Bytes) :
    d.lookup name ≠ some i := by
  rcases hd.lookup name with ⟨j, ⟨inner, p, around, hpages, -, hj, -⟩, hlookup⟩ | ⟨-, hlookup⟩
  · rw [hlookup]
    rintro ⟨⟩
    exact h.hidden p (by simp [hpages]) _ hj rfl
  · rw [hlookup]
    exact (Option.some_ne_none i).symm

theorem Hides.after (h : Hides (Ledger.after ts) i) (hb : Document.after ts = .body b)
    (hd : Document.after (ts ++ us) = .body d) (name : Bytes) : d.lookup name ≠ some i :=
  Hides.lookup_ne (induction_above (k := 0) (P := fun _ m => Hides m i)
    (fun _ _ _ _ h hd _ => h.moves hd) hb h hd fun _ _ _ _ _ => Nat.zero_le _) (describes_after hd) name

end Ledger

-- ════════════════════════════════════════════════════════════════════════
-- Marks in a source
-- ════════════════════════════════════════════════════════════════════════

namespace Body

variable {b : Body} {name : Bytes}

theorem lookup_declare (b : Body) (n : Node) {marks : List Bytes} (h : name ∉ marks) :
    (b.declare n marks).1.lookup name = b.lookup name := by
  induction marks generalizing b n with
  | nil => rfl
  | cons mark rest ih =>
    obtain ⟨hmark, hrest⟩ := not_or.1 (fun hor => h (List.mem_cons.2 hor))
    refine (ih (b.bind mark n) (.insert b.sections.size) hrest).trans ?_
    rw [lookup, lookup, bind, Std.TreeMap.getElem?_insert,
      if_neg fun heq => hmark (Std.compare_eq_iff_eq.1 heq).symm]

/-- A node that is completed changes only what the marks that wait for it stand for. -/
theorem lookup_complete (b : Body) (n : Node) (h : name ∉ b.level.declaring) :
    (b.complete n).lookup name = b.lookup name :=
  b.lookup_declare n h

/-- A group that has been left leaves the levels as they were, but for the marks that wait for it. -/
theorem Leaves.lookup {c d : Body} {n : Node} (h : c.Leaves n d) :
    d.enclosing = c.enclosing ∧ ∀ name ∉ c.level.declaring, d.lookup name = c.lookup name := by
  obtain ⟨sections, diagnostics, -, -, -, rfl⟩ := h
  exact ⟨enclosing_complete _ n,
    fun _ hname => lookup_complete { c with sections, diagnostics } n hname⟩

end Body

namespace Document

variable {src : Bytes} {before rest us vs ts : List Token} {t u m : Token} {b d f g : Body}
  {e : Enclosing}

end Document

end DegreeScore
