import DegreeScore.Proofs.Score.Accepting

/-!
# What is read without a fault is derived

Between any two tokens, as long as there is no diagnostic, a body is the beginning of a derivation
(`Body.Derived`): every open level has the phrases that have been completed in it and the marks that
wait for their node, and the node being read has its options so far. Every token that is not a fault
goes on with it (`Body.Derived.read`).
-/

namespace DegreeScore

-- ════════════════════════════════════════════════════════════════════════
-- Diagnostics stay
-- ════════════════════════════════════════════════════════════════════════

namespace Body

variable (b : Body)

@[simp] theorem diagnostics_declare (n : Node) (marks : List Bytes) :
    (b.declare n marks).1.diagnostics = b.diagnostics := by
  induction marks generalizing b n with
  | nil => rfl
  | cons mark rest ih => exact ih (b.bind mark n) _

@[simp] theorem diagnostics_complete (n : Node) : (b.complete n).diagnostics = b.diagnostics :=
  b.diagnostics_declare n b.level.declaring

@[simp] theorem diagnostics_leave (make : Enclosing → Node) :
    (b.leave make).diagnostics = b.diagnostics := by
  rw [leave]
  split
  · rfl
  · exact diagnostics_complete ..

@[simp] theorem diagnostics_abandon (depth : Nat) (failure : Node) (t : Token) :
    (b.abandon depth failure t).diagnostics = b.diagnostics := by
  rw [abandon]
  split
  · exact diagnostics_leave ..
  · rfl

@[simp] theorem diagnostics_skip (depth : Nat) (t : Token) :
    (b.skip depth t).diagnostics = b.diagnostics := by
  rw [skip]
  split <;> rfl

@[simp] theorem diagnostics_report (d : Diagnostic) :
    (b.report d).diagnostics = b.diagnostics.push d := by
  rw [report]
  dsimp only
  split <;> rfl

@[simp] theorem diagnostics_reject (t : Token) (fault : ScoreFault) :
    (b.reject t fault).diagnostics = b.diagnostics.push ⟨t, fault⟩ := by
  rw [reject]
  split <;> simp

theorem reject_ne_empty (t : Token) (fault : ScoreFault) : (b.reject t fault).diagnostics ≠ #[] := by
  simp

/-- No token takes a diagnostic back. -/
def Keeps (b b' : Body) : Prop := b.diagnostics.size ≤ b'.diagnostics.size

theorem keeps_reject (t : Token) (fault : ScoreFault) : b.Keeps (b.reject t fault) := by
  simp [Keeps]

theorem keeps_complete (n : Node) : b.Keeps (b.complete n) := by
  simp [Keeps]

theorem keeps_primary (o : Option Options) (t : Token) : b.Keeps (b.primary o t) := by
  rw [primary]
  split
  · exact Nat.le_refl _
  · split
    · exact b.keeps_complete _
    · exact b.keeps_reject ..
  · split
    · exact b.keeps_complete _
    · exact b.keeps_reject ..
  · exact b.keeps_complete _
  · exact b.keeps_reject ..

theorem keeps_node (o : Option Options) (t : Token) : b.Keeps (b.node o t) := by
  rw [node.eq_def]
  split
  · rw [keyWord]
    split
    · exact b.keeps_reject ..
    · exact Nat.le_refl _
  · rw [duration]
    split
    · exact b.keeps_reject ..
    · split
      · exact Nat.le_refl _
      · exact b.keeps_reject ..
  · exact Nat.le_refl _
  · exact b.keeps_complete _
  · exact b.keeps_primary ..

theorem keeps_next (t : Token) : b.Keeps (b.next t) := by
  rw [next.eq_def]
  split
  · exact Nat.le_refl _
  · split
    · simp [Keeps]
    · exact b.keeps_reject ..
  · exact b.keeps_node ..

theorem keeps_keyValue (o : Options) (t : Token) : b.Keeps (b.keyValue o t) := by
  rw [keyValue]
  split
  · split
    · exact Nat.le_refl _
    · exact b.keeps_reject ..
  · exact b.keeps_reject ..

theorem keeps_take (t : Token) : b.Keeps (b.take t) := by
  rw [take]
  split
  · exact b.keeps_next t
  · exact Nat.le_refl _
  · exact b.keeps_node ..
  · exact b.keeps_keyValue ..
  · simp [Keeps]
  · simp [Keeps]

theorem keeps_resolve (t : Token) : b.Keeps (b.resolve t) := by
  rw [resolve.eq_def]
  split
  · exact Nat.le_refl _
  · rw [refer]
    split
    · exact b.keeps_complete _
    · simp [Keeps]
  · exact Nat.le_refl _

theorem keeps_settle (t : Token) : b.Keeps (b.settle t) := by
  rw [settle]
  split
  · split
    · exact Nat.le_refl _
    · simp [Keeps]
  · simp [Keeps]
  · simp [Keeps]
  · exact Nat.le_refl _

theorem keeps_closeAll (t : Token) (es : List Enclosing) : b.Keeps (closeAll t es b) := by
  induction es generalizing b with
  | nil => exact Nat.le_refl _
  | cons e rest ih =>
    rw [closeAll]
    refine Nat.le_trans ?_ (ih _)
    split <;> simp

theorem keeps_finish (t : Token) : b.Keeps (b.finish t) :=
  Nat.le_trans (b.keeps_settle t) (keeps_closeAll _ t _)

variable {b}

theorem Keeps.eq_empty {b' : Body} (h : b.Keeps b') (hb' : b'.diagnostics = #[]) :
    b.diagnostics = #[] := by
  rw [Keeps, hb'] at h
  exact Array.eq_empty_of_size_eq_zero (Nat.le_zero.1 h)

end Body

-- ════════════════════════════════════════════════════════════════════════
-- Beginnings of derivations
-- ════════════════════════════════════════════════════════════════════════

theorem Derives.append {ps qs : List Phrase} {ts us : List Token} (hps : Derives (.phrases ps) ts)
    (hqs : Derives (.phrases qs) us) : Derives (.phrases (ps ++ qs)) (ts ++ us) := by
  induction ps generalizing ts with
  | nil =>
    cases hps
    exact hqs
  | cons p ps ih =>
    cases hps with
    | cons hp hps =>
      rw [List.append_assoc]
      exact .cons hp (ih hps)

theorem Phrase.denoteAll_append {ps : List Phrase} {p : Phrase} {o o' o'' : Outline} {ns : List Node}
    {n : Node} (hps : denoteAll ps o = some (ns, o')) (hp : p.denote o' = some (n, o'')) :
    denoteAll (ps ++ [p]) o = some (ns ++ [n], o'') := by
  induction ps generalizing o ns with
  | nil =>
    obtain ⟨rfl, rfl⟩ := Prod.mk.inj (Option.some.inj hps)
    exact denoteAll_cons_eq_some_iff.2 ⟨n, [], o'', hp, rfl, rfl⟩
  | cons q qs ih =>
    obtain ⟨m, ms, inner, hq, hqs, rfl⟩ := denoteAll_cons_eq_some_iff.1 hps
    exact denoteAll_cons_eq_some_iff.2 ⟨m, ms ++ [n], inner, hq, ih hqs, rfl⟩

/-- Another option may stand after a run of them: a text only if it is not the first, a key or a
duration only if there is none. -/
theorem OptionWord.Run.append {ws : List OptionWord} {w : OptionWord} (h : Run ws)
    (hfirst : ws = [] → w.label? = none) (hkey : w.key? = none ∨ ws.filterMap key? = [])
    (hduration : w.duration? = none ∨ ws.filterMap duration? = []) : Run (ws ++ [w]) := by
  have hcount : ∀ {α : Type} {f : OptionWord → Option α}, (ws.filterMap f).length ≤ 1 →
      (f w = none ∨ ws.filterMap f = []) → ((ws ++ [w]).filterMap f).length ≤ 1 := by
    intro α f hws hor
    rw [List.filterMap_append, List.length_append]
    rcases hor with hnone | hnil
    · rwa [List.filterMap_cons_none hnone, List.filterMap_nil]
    · rw [hnil, List.length_nil, Nat.zero_add]
      exact List.length_filterMap_le ..
  refine ⟨fun v hv => ?_, hcount h.key hkey, hcount h.duration hduration⟩
  cases ws with
  | nil =>
    obtain rfl := Option.some.inj hv
    exact hfirst rfl
  | cons u us => exact h.first v hv

/-- The marks that wait for their node, the last one first, each with its `=`. -/
inductive Declares : List Bytes → List Token → Prop
  | nil : Declares [] []
  | cons {m e : Token} {marks : List Bytes} {ts : List Token} (hm : m.kind = .mark)
      (he : e.kind = .equals) (hmarks : Declares marks ts) :
      Declares (m.text :: marks) (ts ++ [m, e])

/-- What has been read of a level in which `o` was declared at first and `o'` is now. -/
def Level.Derived (l : Level) (o o' : Outline) (ts : List Token) : Prop :=
  ∃ ps us vs, ts = us ++ vs ∧ Derives (.phrases ps) us ∧
    Phrase.denoteAll ps o = some (l.nodes.reverse, o') ∧ Declares l.declaring vs

/-- What has been read up to the bracket of the innermost group, where `o` has been declared. -/
inductive Enclosing.AllDerived : List Enclosing → Outline → List Token → Prop
  | document : AllDerived [] {} []
  | group {l : Level} {g : Grouping} {opts : Option Options} {es : List Enclosing} {o o' : Outline}
      {ts us os : List Token} {x : Token} (houter : AllDerived es o ts) (hlevel : l.Derived o o' us)
      (hlookup : ∀ name, Body.lookup { level := l, enclosing := es } name = o'.marks.lookup name)
      (hopts : Options.Written opts os) (hx : x.kind = .opening g) :
      AllDerived (⟨l, g, opts⟩ :: es) o' (ts ++ (us ++ (os ++ [x])))

/-- What has been read of a node. -/
inductive Progress.Derived : Progress → List Token → Prop
  | mark {m : Token} (hm : m.kind = .mark) : Derived (.mark m) [m]
  | options {ws : List OptionWord} {tss : List (List Token)} (hrun : OptionWord.Run ws)
      (hws : List.Forall₂ OptionWord.Written ws tss) :
      Derived (Body.progressAfter ws) tss.flatten
  | key {ws : List OptionWord} {tss : List (List Token)} {w : Token} (hrun : OptionWord.Run ws)
      (hws : List.Forall₂ OptionWord.Written ws tss) (hkey : ws.filterMap OptionWord.key? = [])
      (hw : w.kind = .key) : Derived (.key (Body.written (.ofWords ws))) (tss.flatten ++ [w])

/-- What has been read of a body up to the node being read. -/
structure Body.Stands (b : Body) (o o' : Outline) (us vs : List Token) : Prop where
  outer : Enclosing.AllDerived b.enclosing o us
  level : b.level.Derived o o' vs
  declared : b.Matches o'

/-- What has been read of a body. -/
def Body.Derived (b : Body) (ts : List Token) : Prop :=
  ∃ o o' us vs ws p, ts = us ++ (vs ++ ws) ∧ b.Stands o o' us vs ∧ b.mode = .reading p ∧
    p.Derived ws

namespace Body

variable {b : Body} {o o' o'' : Outline} {us vs ws : List Token} {n : Node} {t : Token}

theorem derived_nothing : Progress.Derived .nothing [] :=
  @Progress.Derived.options [] [] ⟨by simp, by simp, by simp⟩ .nil

/-- A phrase that has been read is completed. -/
theorem complete_derived {p : Phrase} (houter : Enclosing.AllDerived b.enclosing o us)
    (hlevel : b.level.Derived o o' vs) (hp : Derives (.phrase p) ws)
    (hn : p.denote o' = some (n, o'')) (hmatches : b.Matches o'') :
    (b.complete n).Derived (us ++ (vs ++ ws)) := by
  -- The phrase is declared under the marks that wait, from the last one on.
  induction hd : b.level.declaring generalizing b n p o'' vs ws with
  | nil =>
    obtain ⟨ps, ts, ds, rfl, hps, hns, hdeclares⟩ := hlevel
    rw [hd] at hdeclares
    cases hdeclares
    rw [complete_of_declaring_eq_nil hd]
    refine ⟨o, o'', us, ts ++ ws, [], .nothing, by simp, ⟨houter, ?_, ?_⟩, rfl, derived_nothing⟩
    · refine ⟨ps ++ [p], ts ++ ws, [], by simp, ?_, ?_, by rw [hd]; exact .nil⟩
      · have hone := Derives.cons hp .nil
        rw [List.append_nil] at hone
        exact hps.append hone
      · rw [List.reverse_cons]
        exact Phrase.denoteAll_append hns hn
    · exact ⟨hmatches.sections, hmatches.lookup⟩
  | cons mark marks ih =>
    obtain ⟨ps, ts, ds, rfl, hps, hns, hdeclares⟩ := hlevel
    rw [hd] at hdeclares
    cases hdeclares with
    | @cons m e _ ds hm he hmarks =>
      have hderived := ih (b := (b.bind m.text n).awaiting b.mode marks) houter
        ⟨ps, ts, ds, rfl, hps, hns, hmarks⟩ (.declaration hm he hp)
        (Phrase.denote_declaration_eq_some_iff.2 ⟨n, o'', hn, rfl, rfl⟩) (hmatches.bind ..) rfl
      rw [complete_bind hd, hmatches.sections]
      simpa using hderived

/-- The mode says what has been read of a node. -/
theorem Stands.derived {p : Progress} (h : b.Stands o o' us vs) (hp : p.Derived ws) :
    Derived { b with mode := .reading p } (us ++ (vs ++ ws)) :=
  ⟨o, o', us, vs, ws, p, rfl, ⟨h.outer, h.level, ⟨h.declared.sections, h.declared.lookup⟩⟩, rfl, hp⟩

theorem Stands.complete {p : Phrase} (h : b.Stands o o' us vs) (hp : Derives (.phrase p) ws)
    (hn : p.denote o' = some (n, o')) : (b.complete n).Derived (us ++ (vs ++ ws)) :=
  complete_derived h.outer h.level hp hn h.declared

section

variable {words : List OptionWord} {tss : List (List Token)}

theorem written_options (hrun : OptionWord.Run words)
    (hwords : List.Forall₂ OptionWord.Written words tss) :
    Options.Written ((optionsAfter words).map written) tss.flatten := by
  cases words with
  | nil =>
    cases hwords
    exact .none
  | cons w ws =>
    rw [optionsAfter, Option.map_some, written_written]
    exact .some (List.cons_ne_nil _ _) hrun hwords

theorem Stands.key (h : b.Stands o o' us vs) (hrun : OptionWord.Run words)
    (hwords : List.Forall₂ OptionWord.Written words tss) (ht : t.kind = .key)
    (hclean : (b.keyWord (written (.ofWords words)) t).diagnostics = #[]) :
    (b.keyWord (written (.ofWords words)) t).Derived (us ++ (vs ++ (tss.flatten ++ [t]))) := by
  rw [keyWord] at hclean ⊢
  split at hclean
  · exact absurd hclean (b.reject_ne_empty _ _)
  · next hnone =>
    rw [if_neg hnone]
    refine h.derived (.key hrun hwords ?_ ht)
    rw [← List.head?_eq_none_iff]
    exact Option.not_isSome_iff_eq_none.1 hnone

theorem derived_append {w : OptionWord} {ts : List Token} (hrun : OptionWord.Run (words ++ [w]))
    (hwords : List.Forall₂ OptionWord.Written words tss) (hw : w.Written ts) :
    Progress.Derived (.options (written (.ofWords (words ++ [w])))) (tss.flatten ++ ts) := by
  have hderived := Progress.Derived.options hrun
    (List.rel_append hwords (List.Forall₂.cons hw .nil))
  rw [progressAfter_append] at hderived
  simpa using hderived

theorem Stands.duration (h : b.Stands o o' us vs) (hrun : OptionWord.Run words)
    (hwords : List.Forall₂ OptionWord.Written words tss) (ht : t.kind = .duration)
    (htext : t.kind.WrittenAs t.text)
    (hclean : (b.duration (written (.ofWords words)) t).diagnostics = #[]) :
    (b.duration (written (.ofWords words)) t).Derived (us ++ (vs ++ (tss.flatten ++ [t]))) := by
  rw [ht] at htext
  obtain ⟨n, d, htext⟩ := htext
  rw [Body.duration] at hclean ⊢
  split at hclean
  · exact absurd hclean (b.reject_ne_empty _ _)
  · next hnone =>
    rw [if_neg hnone]
    have hdurations : words.filterMap OptionWord.duration? = [] := by
      rw [← List.head?_eq_none_iff]
      exact Option.not_isSome_iff_eq_none.1 hnone
    split at hclean
    · next r hr =>
      obtain ⟨hn, hd, hr', hvalue⟩ := (Literal.duration_eq_ok_iff htext).1 hr
      have happend := derived_append
        (hrun.append (w := .duration r) (fun _ => rfl) (.inl rfl) (.inr hdurations)) hwords
        (.duration ht htext hn hd hr' hvalue)
      rw [Options.ofWords_append_duration r hdurations] at happend
      exact h.derived happend
    · exact absurd hclean (b.reject_ne_empty _ _)

theorem Stands.keyValue (h : b.Stands o o' us vs) (hrun : OptionWord.Run words)
    (hwords : List.Forall₂ OptionWord.Written words tss) {w : Token} (hw : w.kind = .key)
    (hkey : words.filterMap OptionWord.key? = []) (htext : t.kind.WrittenAs t.text)
    (hclean : (b.keyValue (written (.ofWords words)) t).diagnostics = #[]) :
    (b.keyValue (written (.ofWords words)) t).Derived
      (us ++ (vs ++ (tss.flatten ++ [w, t]))) := by
  rw [Body.keyValue] at hclean ⊢
  split at hclean
  · next ht =>
    rw [ht] at htext
    obtain ⟨n, htext⟩ := htext
    split at hclean
    · next k hk =>
      obtain ⟨rfl, hk'⟩ := (Literal.key_eq_ok_iff htext).1 hk
      have happend := derived_append
        (hrun.append (w := .key k) (fun _ => rfl) (.inr hkey) (.inl rfl)) hwords
        (.key hw ht htext hk')
      rw [Options.ofWords_append_key k hkey] at happend
      exact h.derived happend
    · exact absurd hclean (b.reject_ne_empty _ _)
  · exact absurd hclean (b.reject_ne_empty _ _)

/-- A group is opened, in which nothing has been read. -/
theorem Stands.enter {g : Grouping} {opts : Option Options} {os : List Token}
    (h : b.Stands o o' us vs) (hopts : Options.Written opts os) (ht : t.kind = .opening g) :
    (b.enter g opts).Derived (us ++ (vs ++ (os ++ [t]))) := by
  refine ⟨o', o', us ++ (vs ++ (os ++ [t])), [], [], .nothing, by simp, ⟨?_, ?_, ?_⟩, rfl,
    derived_nothing⟩
  · exact .group h.outer h.level h.declared.lookup hopts ht
  · exact ⟨[], [], [], rfl, .nil, rfl, .nil⟩
  · exact ⟨h.declared.sections, fun name => (lookup_enter ..).trans (h.declared.lookup name)⟩

/-- The token at which a node proper begins. -/
theorem Stands.primary {opts : Option Options} {os : List Token} (h : b.Stands o o' us vs)
    (hopts : Options.Written opts os) (htext : t.kind.WrittenAs t.text)
    (hclean : (b.primary opts t).diagnostics = #[]) :
    (b.primary opts t).Derived (us ++ (vs ++ (os ++ [t]))) := by
  have hnote : ∀ {d a : Int64}, (t.kind = .integer ∨ t.kind = .note) →
      Literal.degree t.text = .ok (d, a) →
      (b.complete (.note d a opts)).Derived (us ++ (vs ++ (os ++ [t]))) := by
    intro d a ht hd
    obtain ⟨n, k, hwrites⟩ : ∃ n k, WritesDegree t.text n k := by
      rcases ht with ht | ht <;> rw [ht] at htext
      · obtain ⟨n, hn⟩ := htext
        exact ⟨n, 0, t.text, [], (List.append_nil _).symm, hn, .natural⟩
      · exact htext
    obtain ⟨⟨rfl, hd'⟩, rfl⟩ := (Literal.degree_eq_ok_iff hwrites).1 hd
    exact h.complete (.note hopts ht hwrites hd') rfl
  rw [Body.primary] at hclean ⊢
  split at hclean
  · next g ht => exact h.enter hopts ht
  · next ht =>
    split at hclean
    · next d a hd =>
      exact hnote (.inl ht) hd
    · exact absurd hclean (b.reject_ne_empty _ _)
  · next ht =>
    split at hclean
    · next d a hd =>
      exact hnote (.inr ht) hd
    · exact absurd hclean (b.reject_ne_empty _ _)
  · next ht =>
    exact h.complete (.rest hopts ht) rfl
  · exact absurd hclean (b.reject_ne_empty _ _)

/-- A token after the options `words` of a node. -/
theorem Stands.node (h : b.Stands o o' us vs) (hrun : OptionWord.Run words)
    (hwords : List.Forall₂ OptionWord.Written words tss) (htext : t.kind.WrittenAs t.text)
    (hclean : (b.node (optionsAfter words) t).diagnostics = #[]) :
    (b.node (optionsAfter words) t).Derived (us ++ (vs ++ (tss.flatten ++ [t]))) := by
  rw [node.eq_def] at hclean ⊢
  split at hclean
  · next ht =>
    rw [getD_optionsAfter] at hclean ⊢
    exact h.key hrun hwords ht hclean
  · next ht =>
    rw [getD_optionsAfter] at hclean ⊢
    exact h.duration hrun hwords ht htext hclean
  · next l opts ht hopts =>
    cases words with
    | nil => cases hopts
    | cons w ws =>
      obtain rfl := Option.some.inj hopts
      have happend := derived_append
        (hrun.append (w := .label l) (fun hnil => absurd hnil (List.cons_ne_nil _ _)) (.inl rfl)
          (.inl rfl)) hwords (.label ht)
      rw [Options.ofWords_append_label] at happend
      have hderived := h.derived happend
      simpa [written] using hderived
  · next l ht hopts =>
    cases words with
    | nil =>
      cases hwords
      exact h.complete (.label ht) rfl
    | cons w ws => cases hopts
  · exact h.primary (written_options hrun hwords) htext hclean

end

/-- A bracket closes the group being read, which becomes a node of the level around it. -/
theorem Stands.leave {e : Enclosing} {es : List Enclosing} (h : b.Stands o o' us vs)
    (hdeclaring : b.level.declaring = []) (henclosing : b.enclosing = e :: es)
    (ht : t.kind = .closing e.grouping) : (b.leave b.groupNode).Derived (us ++ (vs ++ [t])) := by
  have houter := h.outer
  rw [henclosing] at houter
  obtain ⟨ps, ts, ds, rfl, hps, hns, hdeclares⟩ := h.level
  rw [hdeclaring] at hdeclares
  cases hdeclares
  cases houter with
  | @group l g opts es base _ ts' us' os x houter hlevel hlookup hopts hx =>
    have hgroup := complete_derived (b := { b with level := l, enclosing := es }) houter hlevel
      (.group hopts hx hps ht)
      (Phrase.denote_group_eq_some_iff.2 ⟨_, o', hns, rfl, rfl⟩)
      ⟨h.declared.sections, hlookup⟩
    have hleave : b.leave b.groupNode = Body.complete { b with level := l, enclosing := es }
        (.group g b.level.nodes.reverse opts) := by
      rw [Body.leave, henclosing]
      rfl
    rw [hleave]
    simpa using hgroup

/-- A token between two nodes or after a declared mark. -/
theorem Stands.next (h : b.Stands o o' us vs) (htext : t.kind.WrittenAs t.text)
    (hclean : (b.next t).diagnostics = #[]) : (b.next t).Derived (us ++ (vs ++ [t])) := by
  rw [next.eq_def] at hclean ⊢
  split at hclean
  · next ht => exact h.derived (.mark ht)
  · next g e es ht hdeclaring henclosing =>
    split at hclean
    · next hg =>
      rw [if_pos hg]
      exact h.leave hdeclaring henclosing (hg ▸ ht)
    · exact absurd hclean (b.reject_ne_empty _ _)
  · exact h.node ⟨by simp, by simp, by simp⟩ .nil htext hclean

/-- A mark before a token that is not `=` is a reference. -/
theorem Derived.resolve {ts : List Token} (h : b.Derived ts)
    (hclean : (b.resolve t).diagnostics = #[]) :
    (b.resolve t).Derived ts ∧ ∀ m, (b.resolve t).mode = .reading (.mark m) → t.kind = .equals := by
  have hstays := h
  obtain ⟨o, o', us, vs, ws, p, rfl, hstands, hmode, hp⟩ := h
  cases hp with
  | @mark m hm =>
    by_cases ht : t.kind = .equals
    · have hself : b.resolve t = b := by
        rw [Body.resolve.eq_def, hmode, ht]
      rw [hself]
      exact ⟨hstays, fun _ _ => ht⟩
    · rw [resolve_of_mark hmode ht, refer] at hclean ⊢
      split at hclean
      · next i hi =>
        rw [hstands.declared.lookup] at hi
        refine ⟨hstands.complete (.reference hm)
          (Phrase.denote_reference_eq_some_iff.2 ⟨i, hi, rfl, rfl⟩), fun m' hm' => ?_⟩
        cases hm'
      · simp at hclean
  | @options words tss hrun hwords =>
    have hne : ∀ m, b.mode ≠ .reading (.mark m) := by
      cases words <;> simp [hmode, progressAfter]
    rw [resolve_of_ne_mark hne]
    exact ⟨hstays, fun m hm => absurd hm (hne m)⟩
  | key =>
    have hne : ∀ m, b.mode ≠ .reading (.mark m) := by
      simp [hmode]
    rw [resolve_of_ne_mark hne]
    exact ⟨hstays, fun m hm => absurd hm (hne m)⟩

/-- The `=` after a mark, which makes it wait for its node. -/
theorem Stands.declare {m : Token} (h : b.Stands o o' us vs) (hm : m.kind = .mark)
    (ht : t.kind = .equals) :
    Body.Derived { b.ready with level := { b.level with declaring := m.text :: b.level.declaring } }
      (us ++ (vs ++ [m, t])) := by
  obtain ⟨ps, ts, ds, rfl, hps, hns, hdeclares⟩ := h.level
  refine ⟨o, o', us, ts ++ ds ++ [m, t], [], .nothing, by simp, ⟨h.outer, ?_, ?_⟩, rfl,
    derived_nothing⟩
  · exact ⟨ps, ts, ds ++ [m, t], by simp, hps, hns, .cons hm ht hdeclares⟩
  · exact ⟨h.declared.sections, h.declared.lookup⟩

/-- A token that is not a fault goes on with the derivation. -/
theorem Derived.read {ts : List Token} (h : b.Derived ts) (htext : t.kind.WrittenAs t.text)
    (hclean : (b.read t).diagnostics = #[]) : (b.read t).Derived (ts ++ [t]) := by
  obtain ⟨hresolved, hmarked⟩ := h.resolve ((keeps_take _ t).eq_empty hclean)
  obtain ⟨o, o', us, vs, ws, p, rfl, hstands, hmode, hp⟩ := hresolved
  rw [Body.read, take, hmode] at hclean ⊢
  rw [List.append_assoc, List.append_assoc]
  cases hp with
  | @mark m hm => exact hstands.declare hm (hmarked m hmode)
  | @options words tss hrun hwords =>
    cases words with
    | nil =>
      cases hwords
      exact hstands.next htext hclean
    | cons w words => exact hstands.node hrun hwords htext hclean
  | @key words tss w hrun hwords hkey hw =>
    rw [List.append_assoc]
    exact hstands.keyValue hrun hwords hw hkey htext hclean

end Body

end DegreeScore
