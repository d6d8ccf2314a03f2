import DegreeScore.Proofs.Score.Sound
import DegreeScore.Score.Parse

/-!
# Reading gives sound scores

`Body.Sound` is what holds between any two tokens of a body: the sections, the nodes of every open
level and the failure of a group that is given up are sound, and marks stand for sections that are
complete. A section is complete before its mark can be referred to, which is why inserts only point
to earlier sections. Every operation on a body keeps this, and so does every token
(`Document.Sound.step`).
-/

namespace DegreeScore

/-- A level whose nodes are sound and whose marks stand for existing sections. -/
structure Level.Sound (sections size : Nat) (l : Level) : Prop where
  nodes : ∀ n ∈ l.nodes, n.Sound sections size
  scope : ∀ (name : Bytes) (i : Nat), l.scope[name]? = some i → i < sections

/-- A sound level with sound options for the group that is open in it. -/
structure Enclosing.Sound (sections size : Nat) (e : Enclosing) : Prop where
  level : e.level.Sound sections size
  options : ∀ o ∈ e.options, o.Sound size

/-- The options read so far are sound, or the failure that replaces a group is. -/
def Mode.Sound (sections size : Nat) : Mode → Prop
  | .reading (.options o) | .reading (.key o) => o.Sound size
  | .abandoning _ failure => failure.Sound sections size
  | _ => True

/-- What holds of a body between two tokens. -/
structure Body.Sound (size : Nat) (b : Body) : Prop where
  sections : SoundSections size b.sections
  level : b.level.Sound b.sections.size size
  enclosing : ∀ e ∈ b.enclosing, e.Sound b.sections.size size
  mode : b.mode.Sound b.sections.size size

section

variable {m n size : Nat}

theorem Level.Sound.mono {l : Level} (hle : m ≤ n) (h : l.Sound m size) : l.Sound n size :=
  ⟨fun x hx => (h.nodes x hx).mono hle,
    fun name i hi => Nat.lt_of_lt_of_le (h.scope name i hi) hle⟩

theorem Enclosing.Sound.mono {e : Enclosing} (hle : m ≤ n) (h : e.Sound m size) : e.Sound n size :=
  ⟨h.level.mono hle, h.options⟩

theorem Mode.Sound.mono {mode : Mode} (hle : m ≤ n) (h : mode.Sound m size) :
    mode.Sound n size := by
  rw [Mode.Sound.eq_def] at h ⊢
  split at h
  · exact h
  · exact h
  · exact Node.Sound.mono hle h
  · trivial

theorem Level.sound_empty : ({} : Level).Sound n size := by
  refine ⟨by simp, fun name i hi => ?_⟩
  rw [Std.TreeMap.getElem?_emptyc] at hi
  cases hi

theorem Level.Sound.cons {l : Level} {x : Node} {marks : List Bytes} (h : l.Sound n size)
    (hx : x.Sound n size) : { l with nodes := x :: l.nodes, declaring := marks }.Sound n size := by
  refine ⟨fun y hy => ?_, h.scope⟩
  rcases List.mem_cons.1 hy with rfl | hy
  · exact hx
  · exact h.nodes y hy

/-- A mark may be bound to a section that has just been added. -/
theorem Level.Sound.bind {l : Level} {mark : Bytes} (h : l.Sound n size) :
    { l with scope := l.scope.insert mark n }.Sound (n + 1) size := by
  refine ⟨fun x hx => (h.nodes x hx).mono (Nat.le_succ n), fun name i hi => ?_⟩
  rw [Std.TreeMap.getElem?_insert] at hi
  split at hi
  · obtain rfl := Option.some.inj hi
    exact Nat.lt_succ_self n
  · exact Nat.lt_succ_of_lt (h.scope name i hi)

theorem Options.sound_empty : ({} : Options).Sound size := ⟨by simp, by simp, by simp⟩

theorem Options.Sound.getD {o : Option Options} (h : ∀ x ∈ o, x.Sound size) :
    (o.getD {}).Sound size := by
  cases o with
  | none => exact Options.sound_empty
  | some o => exact h o rfl

theorem Options.Sound.written {o : Options} (h : o.Sound size) : (Body.written o).Sound size :=
  ⟨h.duration, h.key, fun l hl => h.labels l (List.mem_reverse.1 hl)⟩

end

-- ════════════════════════════════════════════════════════════════════════
-- The operations on a body
-- ════════════════════════════════════════════════════════════════════════

namespace Body.Sound

variable {size : Nat} {b : Body} {n : Node} {t : Token}

theorem withMode {mode : Mode} (h : b.Sound size) (hmode : mode.Sound b.sections.size size) :
    { b with mode := mode }.Sound size :=
  ⟨h.sections, h.level, h.enclosing, hmode⟩

theorem declare (h : b.Sound size) (hn : n.Sound b.sections.size size) (marks : List Bytes) :
    (b.declare n marks).1.Sound size ∧
      (b.declare n marks).2.Sound (b.declare n marks).1.sections.size size := by
  induction marks generalizing b n with
  | nil => exact ⟨h, hn⟩
  | cons mark rest ih =>
    have hle : b.sections.size ≤ b.sections.size + 1 := Nat.le_succ _
    have hsize : (b.sections.push ⟨mark, n⟩).size = b.sections.size + 1 := Array.size_push ..
    apply ih
    · refine ⟨h.sections.push hn, ?_, ?_, ?_⟩
      · rw [hsize]
        exact h.level.bind
      · rw [hsize]
        exact fun e he => (h.enclosing e he).mono hle
      · rw [hsize]
        exact h.mode.mono hle
    · refine .insert ?_
      rw [hsize]
      exact Nat.lt_succ_self _

theorem complete (h : b.Sound size) (hn : n.Sound b.sections.size size) :
    (b.complete n).Sound size := by
  obtain ⟨hb, hnode⟩ := h.declare hn b.level.declaring
  exact ⟨hb.sections, hb.level.cons hnode, hb.enclosing, trivial⟩

theorem leave {make : Enclosing → Node} (h : b.Sound size)
    (hmake : ∀ e ∈ b.enclosing, (make e).Sound b.sections.size size) :
    (b.leave make).Sound size := by
  rw [Body.leave]
  split
  · exact h
  · next e rest he =>
    have hmem : e ∈ b.enclosing := he ▸ List.mem_cons_self
    apply complete
    · refine ⟨h.sections, (h.enclosing e hmem).level, fun e' he' => ?_, h.mode⟩
      exact h.enclosing e' (he ▸ List.mem_cons_of_mem e he')
    · exact hmake e hmem

theorem groupNode (h : b.Sound size) {e : Enclosing} (he : e ∈ b.enclosing) :
    (b.groupNode e).Sound b.sections.size size :=
  .group (fun x hx => h.level.nodes x (List.mem_reverse.1 hx)) (h.enclosing e he).options

theorem enter {o : Option Options} (h : b.Sound size) (ho : ∀ x ∈ o, x.Sound size)
    (g : Grouping) : (b.enter g o).Sound size := by
  refine ⟨h.sections, Level.sound_empty, fun e he => ?_, trivial⟩
  rcases List.mem_cons.1 he with rfl | he
  · exact ⟨h.level, ho⟩
  · exact h.enclosing e he

/-- A mark that can be looked up stands for a section that exists. -/
theorem lookup_lt {name : Bytes} {i : Nat} (h : b.Sound size) (hi : b.lookup name = some i) :
    i < b.sections.size := by
  rw [Body.lookup] at hi
  split at hi
  · next j hj =>
    obtain rfl := Option.some.inj hi
    exact h.level.scope name j hj
  · obtain ⟨e, he, hscope⟩ := List.exists_of_findSome?_eq_some hi
    exact (h.enclosing e he).level.scope name i hscope

theorem report (h : b.Sound size) (d : Diagnostic) : (b.report d).Sound size := by
  rw [Body.report]
  dsimp only
  split
  · exact ⟨h.sections, h.level.cons .error, h.enclosing, trivial⟩
  · exact ⟨h.sections, h.level, h.enclosing, .error⟩

theorem abandon {failure : Node} (h : b.Sound size) (hf : failure.Sound b.sections.size size)
    (depth : Nat) : (b.abandon depth failure t).Sound size := by
  rw [Body.abandon]
  split
  · exact h.leave fun _ _ => hf
  · exact h.withMode hf

theorem skip (h : b.Sound size) (depth : Nat) : (b.skip depth t).Sound size := by
  rw [Body.skip]
  split <;> exact h.withMode trivial

theorem reject (h : b.Sound size) (fault : ScoreFault) : (b.reject t fault).Sound size := by
  have hb := h.report ⟨t, fault⟩
  rw [Body.reject]
  split
  · next depth failure hmode =>
    have hf := hb.mode
    rw [hmode] at hf
    exact hb.abandon hf depth
  · exact hb.skip 0

theorem keyWord {o : Options} (h : b.Sound size) (ho : o.Sound size) :
    (b.keyWord o t).Sound size := by
  rw [Body.keyWord]
  split
  · exact h.reject _
  · exact h.withMode ho

theorem duration {o : Options} (h : b.Sound size) (ho : o.Sound size) :
    (b.duration o t).Sound size := by
  rw [Body.duration]
  split
  · exact h.reject _
  · split
    · next d hd =>
      refine h.withMode ⟨fun d' hd' => ?_, ho.key, ho.labels⟩
      obtain rfl := Option.some.inj hd'
      exact Literal.isDuration_duration hd
    · exact h.reject _

theorem keyValue {o : Options} (h : b.Sound size) (ho : o.Sound size) :
    (b.keyValue o t).Sound size := by
  rw [Body.keyValue]
  split
  · split
    · next k hk =>
      refine h.withMode ⟨ho.duration, fun k' hk' => ?_, ho.labels⟩
      obtain rfl := Option.some.inj hk'
      exact Literal.key_bounds hk
    · exact h.reject _
  · exact h.reject _

theorem number {o : Option Options} (h : b.Sound size) (ht : IsNumeral t.text)
    (ho : ∀ x ∈ o, x.Sound size) :
    (match Literal.degree t.text with
      | .ok (d, a) => b.complete (.note d a o)
      | .error fault => b.reject t fault).Sound size := by
  split
  · next d a hd =>
    obtain ⟨hdegree, haccidental⟩ := Literal.degree_bounds ht hd
    exact h.complete (.note hdegree haccidental ho)
  · exact h.reject _

theorem primary {o : Option Options} (h : b.Sound size) (ht : t.Sound size)
    (ho : ∀ x ∈ o, x.Sound size) : (b.primary o t).Sound size := by
  rw [Body.primary]
  split
  · exact h.enter ho _
  · next hk => exact h.number (ht.numeral (.inl hk)) ho
  · next hk => exact h.number (ht.numeral (.inr hk)) ho
  · exact h.complete (.rest ho)
  · exact h.reject _

theorem node {o : Option Options} (h : b.Sound size) (ht : t.Sound size)
    (ho : ∀ x ∈ o, x.Sound size) : (b.node o t).Sound size := by
  rw [Body.node.eq_def]
  split
  · exact h.keyWord (.getD ho)
  · exact h.duration (.getD ho)
  · next value o hk =>
    have hso := ho o rfl
    refine h.withMode ⟨hso.duration, hso.key, fun l hl => ?_⟩
    rcases List.mem_cons.1 hl with rfl | hl
    · exact ht.length_value l hk
    · exact hso.labels l hl
  · next value hk => exact h.complete (.event (ht.length_value value hk))
  · apply h.primary ht
    intro x hx
    obtain ⟨y, hy, rfl⟩ := Option.map_eq_some_iff.1 hx
    exact (ho y hy).written

theorem next (h : b.Sound size) (ht : t.Sound size) : (b.next t).Sound size := by
  rw [Body.next]
  split
  · exact h.withMode trivial
  · next g e rest hk hdecl he =>
    split
    · exact h.leave fun e he => h.groupNode he
    · exact h.reject _
  · exact h.node ht (by simp)

theorem refer (h : b.Sound size) (mark : Token) : (b.refer mark).Sound size := by
  rw [Body.refer]
  split
  · next i hi => exact h.complete (.insert (h.lookup_lt hi))
  · exact h.report _

theorem resolve (h : b.Sound size) (t : Token) : (b.resolve t).Sound size := by
  rw [Body.resolve]
  split
  · exact h
  · exact h.refer _
  · exact h

theorem take (h : b.Sound size) (ht : t.Sound size) : (b.take t).Sound size := by
  have hmode := h.mode
  rw [Body.take]
  split
  · exact h.next ht
  · exact ⟨h.sections, ⟨h.level.nodes, h.level.scope⟩, h.enclosing, trivial⟩
  · next o ho =>
    rw [ho] at hmode
    refine h.node ht fun x hx => ?_
    obtain rfl := Option.some.inj hx
    exact hmode
  · next o ho =>
    rw [ho] at hmode
    exact h.keyValue hmode
  · next depth failure hf =>
    rw [hf] at hmode
    exact h.abandon hmode depth
  · exact h.skip _

theorem settle (h : b.Sound size) (t : Token) : (b.settle t).Sound size := by
  rw [Body.settle]
  split
  · split
    · exact h
    · exact h.report _
  · exact h.report _
  · exact h.report _
  · exact h

theorem closeAll (h : b.Sound size) (t : Token) (es : List Enclosing) :
    (Body.closeAll t es b).Sound size := by
  induction es generalizing b with
  | nil => exact h
  | cons e rest ih =>
    rw [Body.closeAll]
    apply ih
    split
    · next depth failure hmode =>
      have hf := h.mode
      rw [hmode] at hf
      exact h.leave fun _ _ => hf
    · exact leave ⟨h.sections, h.level, h.enclosing, h.mode⟩ fun _ _ => .error

theorem finish (h : b.Sound size) (t : Token) : (b.finish t).Sound size :=
  (h.settle t).closeAll t _

theorem main (h : b.Sound size) : b.main.Sound b.sections.size size := by
  rw [Body.main]
  split
  · next n hn => exact h.level.nodes n (hn ▸ List.mem_cons_self)
  · exact .group (fun x hx => h.level.nodes x (List.mem_reverse.1 hx)) (by simp)

end Body.Sound

end DegreeScore
