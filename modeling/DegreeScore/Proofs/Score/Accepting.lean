import DegreeScore.Proofs.Score.Grammar
import DegreeScore.Proofs.Traversal
import DegreeScore.Score.Parse

/-!
# What the grammar derives is read

A mark is a reference or a declaration depending on the word after it, so a body that has read a
phrase may still have to settle what it was (`Body.Settles`). After the words of a phrase it settles
into one that has completed the node of that phrase, in the place where it stood (`Derives.reads`).
-/

namespace DegreeScore

/-- Whether a node proper, its options apart, begins with such a token. -/
def TokenKind.isPrimary : TokenKind → Bool
  | .opening _ | .integer | .note | .rest => true
  | _ => false

namespace Body

/-- Reads a token that does not end the body. -/
def read (b : Body) (t : Token) : Body := (b.resolve t).take t

/-- The body in another mode, with other marks that wait for their node. -/
def awaiting (b : Body) (mode : Mode) (marks : List Bytes) : Body :=
  { b with mode, level := { b.level with declaring := marks } }

/-- Declares a node under a mark. -/
def bind (b : Body) (mark : Bytes) (n : Node) : Body :=
  { b with
    sections := b.sections.push ⟨mark, n⟩
    level := { b.level with scope := b.level.scope.insert mark b.sections.size } }

/-- Declaring looks neither at the mode nor at the marks that wait. -/
theorem declare_awaiting (b : Body) (n : Node) (marks : List Bytes) (mode : Mode)
    (waiting : List Bytes) :
    (b.awaiting mode waiting).declare n marks =
      ((b.declare n marks).1.awaiting mode waiting, (b.declare n marks).2) := by
  induction marks generalizing b n with
  | nil => rfl
  | cons mark rest ih => exact ih (b.bind mark n) (.insert b.sections.size)

theorem complete_awaiting (b : Body) (n : Node) (mode : Mode) (marks : List Bytes) :
    (b.awaiting mode marks).complete n =
      { (b.declare n marks).1 with
        level := { (b.declare n marks).1.level with
          nodes := (b.declare n marks).2 :: (b.declare n marks).1.level.nodes, declaring := [] }
        mode := .reading .nothing } := by
  have hmarks : (b.awaiting mode marks).level.declaring = marks := rfl
  rw [complete, hmarks, declare_awaiting]
  rfl

theorem complete_withMode (b : Body) (n : Node) (mode : Mode) :
    complete { b with mode } n = b.complete n := by
  change (b.awaiting mode b.level.declaring).complete n = _
  rw [complete_awaiting]
  rfl

/-- A node is declared under the mark closest to it first. -/
theorem complete_bind {b : Body} {mark : Bytes} {marks : List Bytes}
    (h : b.level.declaring = mark :: marks) (n : Node) :
    b.complete n = ((b.bind mark n).awaiting b.mode marks).complete (.insert b.sections.size) := by
  have hb : b.complete n = (b.awaiting b.mode (mark :: marks)).complete n := by
    rw [awaiting, ← h]
  rw [hb, complete_awaiting, complete_awaiting]
  rfl

theorem complete_of_declaring_eq_nil {b : Body} (h : b.level.declaring = []) (n : Node) :
    b.complete n =
      { b with level := { b.level with nodes := n :: b.level.nodes }, mode := .reading .nothing } := by
  simp only [complete, h, declare]

/-- What has been declared where the body stands. -/
structure Matches (b : Body) (o : Outline) : Prop where
  sections : b.sections = o.sections
  lookup : ∀ name, b.lookup name = o.marks.lookup name

theorem Matches.bind {b : Body} {o : Outline} (h : b.Matches o) (mark : Bytes) (n : Node)
    (mode : Mode) (marks : List Bytes) :
    ((b.bind mark n).awaiting mode marks).Matches (o.declare mark n) := by
  refine ⟨?_, fun name => ?_⟩
  · change b.sections.push _ = o.sections.push _
    rw [h.sections]
  · have hold := h.lookup name
    rw [Body.lookup] at hold ⊢
    dsimp only [Body.bind, awaiting, Outline.declare]
    rw [Std.TreeMap.getElem?_insert, lookup_cons_eq, h.sections]
    by_cases hname : mark = name
    · rw [if_pos (Std.compare_eq_iff_eq.2 hname), if_pos hname]
    · rw [if_neg (mt Std.compare_eq_iff_eq.1 hname), if_neg hname]
      exact hold

/-- The body stands where another stood, with more declared. -/
structure Follows (b before : Body) : Prop where
  diagnostics : b.diagnostics = before.diagnostics
  nodes : b.level.nodes = before.level.nodes
  declaring : b.level.declaring = before.level.declaring
  enclosing : b.enclosing = before.enclosing

/-- Before any word but `=` the body turns into `b'`. -/
def Settles (b b' : Body) : Prop := ∀ t : Token, t.kind ≠ .equals → b.resolve t = b'

-- ════════════════════════════════════════════════════════════════════════
-- One token
-- ════════════════════════════════════════════════════════════════════════

section

variable {b : Body} {t : Token}

theorem resolve_of_ne_mark (h : ∀ m, b.mode ≠ .reading (.mark m)) (t : Token) : b.resolve t = b := by
  rw [resolve.eq_def]
  split
  · next hm _ => exact absurd hm (h _)
  · next hm _ => exact absurd hm (h _)
  · rfl

theorem resolve_of_mark {m : Token} (h : b.mode = .reading (.mark m)) (ht : t.kind ≠ .equals) :
    b.resolve t = b.refer m := by
  rw [resolve.eq_def]
  split
  · next heq => exact absurd heq ht
  · next hm _ =>
    rw [h] at hm
    cases hm
    rfl
  · next hne _ => exact (hne m h).elim

theorem settles_self (h : b.mode = .reading .nothing) : b.Settles b :=
  fun t _ => resolve_of_ne_mark (by simp [h]) t

theorem read_of_nothing (h : b.mode = .reading .nothing) : b.read t = b.next t := by
  rw [read, resolve_of_ne_mark (by simp [h]), take, h]

theorem read_of_options {o : Options} (h : b.mode = .reading (.options o)) :
    b.read t = b.node (some o) t := by
  rw [read, resolve_of_ne_mark (by simp [h]), take, h]

theorem read_of_key {o : Options} (h : b.mode = .reading (.key o)) :
    b.read t = b.keyValue o t := by
  rw [read, resolve_of_ne_mark (by simp [h]), take, h]

theorem next_eq_node (hmark : t.kind ≠ .mark) (hclosing : ∀ g, t.kind ≠ .closing g) :
    b.next t = b.node none t := by
  rw [next.eq_def]
  split
  · next h => exact absurd h hmark
  · next h _ _ => exact absurd h (hclosing _)
  · rfl

theorem node_eq_primary (o : Option Options) (hkey : t.kind ≠ .key) (hduration : t.kind ≠ .duration)
    (htext : ∀ v, t.kind ≠ .text v) : b.node o t = b.primary (o.map written) t := by
  rw [node.eq_def]
  split
  · next h => exact absurd h hkey
  · next h => exact absurd h hduration
  · next h => exact absurd h (htext _)
  · next h => exact absurd h (htext _)
  · rfl

end

-- ════════════════════════════════════════════════════════════════════════
-- Options
-- ════════════════════════════════════════════════════════════════════════

/-- What has been read of a node after some of its options. -/
def progressAfter : List OptionWord → Progress
  | [] => .nothing
  | w :: ws => .options (written (Options.ofWords (w :: ws)))

/-- The options that have been read, if there are any. -/
def optionsAfter : List OptionWord → Option Options
  | [] => none
  | w :: ws => some (written (Options.ofWords (w :: ws)))

theorem getD_optionsAfter (ws : List OptionWord) :
    (optionsAfter ws).getD {} = written (Options.ofWords ws) := by
  cases ws <;> rfl

theorem read_eq_node {b : Body} {t : Token} {ws : List OptionWord}
    (h : b.mode = .reading (progressAfter ws)) (hmark : t.kind ≠ .mark)
    (hclosing : ∀ g, t.kind ≠ .closing g) : b.read t = b.node (optionsAfter ws) t := by
  cases ws with
  | nil => rw [read_of_nothing h, next_eq_node hmark hclosing, optionsAfter]
  | cons w ws => rw [read_of_options h, optionsAfter]

theorem written_written (o : Options) : written (written o) = o := by
  simp [written]

end Body

namespace OptionWord

variable {ws : List OptionWord}

theorem Run.of_append {us : List OptionWord} (h : Run (ws ++ us)) : Run ws := by
  refine ⟨fun w hw => h.first w ?_, ?_, ?_⟩
  · cases ws with
    | nil => cases hw
    | cons v ws => exact hw
  · have := h.key
    rw [List.filterMap_append, List.length_append] at this
    omega
  · have := h.duration
    rw [List.filterMap_append, List.length_append] at this
    omega

theorem Run.no_key {k : Int64} (h : Run (ws ++ [.key k])) : ws.filterMap key? = [] := by
  have := h.key
  rw [List.filterMap_append, List.length_append] at this
  exact List.length_eq_zero_iff.1 (by simpa [key?] using this)

theorem Run.no_duration {d : Ratio} (h : Run (ws ++ [.duration d])) :
    ws.filterMap duration? = [] := by
  have := h.duration
  rw [List.filterMap_append, List.length_append] at this
  exact List.length_eq_zero_iff.1 (by simpa [duration?] using this)

theorem Run.ne_nil {l : Bytes} (h : Run (ws ++ [.label l])) : ws ≠ [] := by
  rintro rfl
  cases h.first (.label l) rfl

end OptionWord

namespace Options

variable {ws : List OptionWord}

theorem ofWords_append_key (k : Int64) (h : ws.filterMap OptionWord.key? = []) :
    ofWords (ws ++ [.key k]) = { ofWords ws with key := some k } := by
  simp [ofWords, h, OptionWord.key?, OptionWord.duration?, OptionWord.label?]

theorem ofWords_append_duration (d : Ratio) (h : ws.filterMap OptionWord.duration? = []) :
    ofWords (ws ++ [.duration d]) = { ofWords ws with duration := some d } := by
  simp [ofWords, h, OptionWord.key?, OptionWord.duration?, OptionWord.label?]

theorem ofWords_append_label (l : Bytes) :
    ofWords (ws ++ [.label l]) = { ofWords ws with labels := (ofWords ws).labels ++ [l] } := by
  simp [ofWords, OptionWord.key?, OptionWord.duration?, OptionWord.label?]

end Options

namespace Body

theorem progressAfter_append (ws : List OptionWord) (w : OptionWord) :
    progressAfter (ws ++ [w]) = .options (written (Options.ofWords (ws ++ [w]))) := by
  cases ws <;> rfl

/-- A further option is taken in, if it may stand where it stands. -/
theorem reads_optionWord {b : Body} {ws : List OptionWord} {w : OptionWord} {ts : List Token}
    (hb : b.mode = .reading (progressAfter ws)) (hrun : OptionWord.Run (ws ++ [w]))
    (hw : w.Written ts) :
    ts.foldl read b = { b with mode := .reading (progressAfter (ws ++ [w])) } := by
  rw [progressAfter_append]
  cases hw with
  | @key w n k hw hn htext hk =>
    have hnone := hrun.no_key
    have hkeyword : b.read w =
        { b with mode := .reading (.key (written (Options.ofWords ws))) } := by
      rw [read_eq_node hb (by simp [hw]) (by simp [hw]), node.eq_def]
      simp only [hw, keyWord, getD_optionsAfter]
      rw [if_neg]
      simp [written, Options.ofWords, hnone]
    rw [List.foldl_cons, List.foldl_cons, List.foldl_nil, hkeyword, read_of_key rfl, keyValue]
    simp only [hn, (Literal.key_eq_ok_iff htext).2 ⟨rfl, hk⟩]
    rw [Options.ofWords_append_key k hnone]
    rfl
  | @duration w n d r hw htext hn hd hr hvalue =>
    have hnone := hrun.no_duration
    rw [List.foldl_cons, List.foldl_nil, read_eq_node hb (by simp [hw]) (by simp [hw]), node.eq_def]
    simp only [hw, duration, getD_optionsAfter]
    rw [if_neg (by simp [written, Options.ofWords, hnone])]
    simp only [(Literal.duration_eq_ok_iff htext).2 ⟨hn, hd, hr, hvalue⟩]
    rw [Options.ofWords_append_duration r hnone]
    rfl
  | @label w l hw =>
    obtain ⟨v, vs, rfl⟩ := List.exists_cons_of_ne_nil hrun.ne_nil
    rw [List.foldl_cons, List.foldl_nil, read_eq_node hb (by simp [hw]) (by simp [hw]), node.eq_def,
      Options.ofWords_append_label]
    simp only [hw, optionsAfter, written, List.reverse_append, List.reverse_singleton,
      List.singleton_append]

theorem reads_optionWords {b : Body} {ws us : List OptionWord} {tss : List (List Token)}
    (hb : b.mode = .reading (progressAfter ws)) (hrun : OptionWord.Run (ws ++ us))
    (hus : List.Forall₂ OptionWord.Written us tss) :
    tss.flatten.foldl read b = { b with mode := .reading (progressAfter (ws ++ us)) } := by
  induction hus generalizing b ws with
  | nil =>
    rw [List.append_nil, ← hb]
    rfl
  | @cons u ts us tss hu _ ih =>
    rw [List.append_cons] at hrun ⊢
    have hfirst := reads_optionWord hb hrun.of_append hu
    rw [List.flatten_cons, List.foldl_append, hfirst, ih rfl hrun]

/-- After its options a node begins with the next token. -/
theorem reads_options {b : Body} {o : Option Options} {os : List Token}
    (hb : b.mode = .reading .nothing) (ho : Options.Written o os) :
    ∃ mode, os.foldl read b = { b with mode } ∧
      ∀ t : Token, t.kind.isPrimary → read { b with mode } t = primary { b with mode } o t := by
  obtain ⟨ws, hws, hfold⟩ : ∃ ws, o = (optionsAfter ws).map written ∧
      os.foldl read b = { b with mode := .reading (progressAfter ws) } := by
    cases ho with
    | none =>
      refine ⟨[], rfl, ?_⟩
      rw [progressAfter, ← hb]
      rfl
    | @some ws tss hne hrun hwords =>
      obtain ⟨w, ws, rfl⟩ := List.exists_cons_of_ne_nil hne
      have hnothing : b.mode = .reading (progressAfter []) := hb
      refine ⟨w :: ws, ?_, reads_optionWords hnothing hrun hwords⟩
      rw [optionsAfter, Option.map_some, written_written]
  refine ⟨_, hfold, fun t ht => ?_⟩
  have hne : ∀ {k : TokenKind}, k.isPrimary = false → t.kind ≠ k := by
    intro k hk h
    rw [h, hk] at ht
    cases ht
  rw [read_eq_node rfl (hne rfl) fun _ => hne rfl,
    node_eq_primary _ (hne rfl) (hne rfl) fun _ => hne rfl, hws]

end Body

-- ════════════════════════════════════════════════════════════════════════
-- Phrases
-- ════════════════════════════════════════════════════════════════════════

/-- The kinds of tokens that stand inside no phrase, and the one that begins none. -/
structure Token.Inner (t : Token) : Prop where
  comma : t.kind ≠ .comma
  endOfInput : t.kind ≠ .endOfInput

theorem Options.Written.inner {o : Option Options} {os : List Token} (h : Options.Written o os) :
    ∀ t ∈ os, t.Inner ∧ t.kind ≠ .equals := by
  cases h with
  | none => simp
  | @some ws tss hne hrun hwords =>
    intro t ht
    obtain ⟨ts, hts, ht⟩ := List.mem_flatten.1 ht
    obtain ⟨w, -, hw⟩ := Traversal.exists_of_mem_right hwords hts
    cases hw with
    | key hw hn =>
      rcases List.mem_pair.1 ht with rfl | rfl
      · exact ⟨⟨by simp [hw], by simp [hw]⟩, by simp [hw]⟩
      · exact ⟨⟨by simp [hn], by simp [hn]⟩, by simp [hn]⟩
    | duration hw | label hw =>
      obtain rfl := List.mem_singleton.1 ht
      exact ⟨⟨by simp [hw], by simp [hw]⟩, by simp [hw]⟩

namespace Body

theorem Settles.foldl {b b' c : Body} {us : List Token} (h : b.Settles b')
    (hb' : b'.mode = .reading .nothing) (hus : ∀ u ∈ us.head?, u.kind ≠ .equals)
    (hc : (us.foldl read b').Settles c) : (us.foldl read b).Settles c := by
  cases us with
  | nil =>
    intro t ht
    rw [List.foldl_nil, h t ht, ← hc t ht]
    exact (resolve_of_ne_mark (by simp [hb']) t).symm
  | cons u us =>
    have hread : b.read u = b'.read u := by
      rw [read, read, h u (hus u rfl), resolve_of_ne_mark (by simp [hb'])]
    rw [List.foldl_cons, hread]
    exact hc

end Body

/-- Reading the tokens of a phrase completes its node, and reading those of phrases one after the
other puts their nodes into the level. -/
def Form.Reads : Form → List Token → Prop
  | .phrase p, ts => ∀ ⦃b : Body⦄ ⦃o o' : Outline⦄ ⦃n : Node⦄, b.mode = .reading .nothing →
      b.Matches o → p.denote o = some (n, o') →
      ∃ c : Body, c.Follows b ∧ c.Matches o' ∧ (ts.foldl Body.read b).Settles (c.complete n)
  | .phrases ps, ts => ∀ ⦃b : Body⦄ ⦃o o' : Outline⦄ ⦃ns : List Node⦄,
      b.mode = .reading .nothing → b.level.declaring = [] → b.Matches o →
      Phrase.denoteAll ps o = some (ns, o') →
      ∃ c : Body, c.mode = .reading .nothing ∧ c.Matches o' ∧ (ts.foldl Body.read b).Settles c ∧
        c.Follows { b with level := { b.level with nodes := ns.reverse ++ b.level.nodes } }

theorem Derives.head_ne_equals {f : Form} {ts : List Token} (h : Derives f ts) :
    ∀ t ∈ ts.head?, t.kind ≠ .equals := by
  have happend : ∀ {us vs : List Token}, (∀ t ∈ us.head?, t.kind ≠ .equals) →
      (∀ t ∈ vs.head?, t.kind ≠ .equals) → ∀ t ∈ (us ++ vs).head?, t.kind ≠ .equals := by
    intro us vs hus hvs
    cases us with
    | nil => exact hvs
    | cons u us => exact hus
  have hoptions : ∀ {o : Option Options} {os : List Token}, Options.Written o os →
      ∀ t ∈ os.head?, t.kind ≠ .equals :=
    fun ho t ht => (ho.inner t (List.mem_of_mem_head? ht)).2
  induction h with
  | reference hm | declaration hm => simp [hm]
  | label ht => simp [ht]
  | note ho ht => exact happend (hoptions ho) (by rcases ht with ht | ht <;> simp [ht])
  | rest ho ht => exact happend (hoptions ho) (by simp [ht])
  | group ho hx => exact happend (hoptions ho) (by simp [hx])
  | nil => simp
  | cons _ _ ihp ihps => exact happend ihp ihps

theorem Derives.inner {f : Form} {ts : List Token} (h : Derives f ts) : ∀ t ∈ ts, t.Inner := by
  induction h with
  | reference hm => simpa using ⟨by simp [hm], by simp [hm]⟩
  | declaration hm he _ ih =>
    refine List.forall_mem_cons.2 ⟨⟨by simp [hm], by simp [hm]⟩, ?_⟩
    exact List.forall_mem_cons.2 ⟨⟨by simp [he], by simp [he]⟩, ih⟩
  | label ht => simpa using ⟨by simp [ht], by simp [ht]⟩
  | note ho ht =>
    refine List.forall_mem_append.2 ⟨fun t h => (ho.inner t h).1, List.forall_mem_singleton.2 ?_⟩
    rcases ht with ht | ht <;> exact ⟨by simp [ht], by simp [ht]⟩
  | rest ho ht =>
    refine List.forall_mem_append.2 ⟨fun t h => (ho.inner t h).1, List.forall_mem_singleton.2 ?_⟩
    exact ⟨by simp [ht], by simp [ht]⟩
  | group ho hx _ hy ih =>
    refine List.forall_mem_append.2 ⟨fun t h => (ho.inner t h).1, List.forall_mem_cons.2 ⟨?_, ?_⟩⟩
    · exact ⟨by simp [hx], by simp [hx]⟩
    · refine List.forall_mem_append.2 ⟨ih, List.forall_mem_singleton.2 ?_⟩
      exact ⟨by simp [hy], by simp [hy]⟩
  | nil => simp
  | cons _ _ ihp ihps => exact List.forall_mem_append.2 ⟨ihp, ihps⟩

namespace Body

variable {b : Body} {o o' : Outline} {n : Node}

theorem Follows.refl (b : Body) : b.Follows b := ⟨rfl, rfl, rfl, rfl⟩

/-- A mark that is looked up completes an insert. -/
theorem reads_reference {m : Token} {i : Nat} (hm : m.kind = .mark)
    (hb : b.mode = .reading .nothing) (hi : b.lookup m.text = some i) :
    (b.read m).Settles (b.complete (.insert i)) := by
  have hread : b.read m = { b with mode := .reading (.mark m) } := by
    rw [read_of_nothing hb, next.eq_def]
    simp only [hm]
  intro t ht
  have hresolve : (b.read m).resolve t = (b.read m).refer m :=
    resolve_of_mark (by rw [hread]) ht
  have hlookup : (b.read m).lookup m.text = some i := by
    rw [hread]
    exact hi
  rw [hresolve, refer]
  simp only [hlookup]
  rw [hread, complete_withMode]

/-- A mark with an `=` waits for its node. -/
theorem reads_declared {m e : Token} (hm : m.kind = .mark) (he : e.kind = .equals)
    (hb : b.mode = .reading .nothing) :
    (b.read m).read e = b.awaiting (.reading .nothing) (m.text :: b.level.declaring) := by
  have hread : b.read m = { b with mode := .reading (.mark m) } := by
    rw [read_of_nothing hb, next.eq_def]
    simp only [hm]
  have hresolve : (b.read m).resolve e = b.read m := by
    rw [hread, resolve.eq_def]
    simp only [he]
  rw [read, hresolve, hread]
  rfl

theorem reads_label {t : Token} {l : Bytes} (ht : t.kind = .text l)
    (hb : b.mode = .reading .nothing) : b.read t = b.complete (.event l none) := by
  rw [read_of_nothing hb, next_eq_node (by simp [ht]) (by simp [ht]), node.eq_def]
  simp only [ht]

/-- The token of a note after its options. -/
theorem primary_note {t : Token} {d a : Int64} (mode : Mode) (o : Option Options)
    (ht : t.kind = .integer ∨ t.kind = .note) (htext : WritesDegree t.text d.toInt a.toInt)
    (hd : -100 ≤ d.toInt ∧ d.toInt ≤ 100) :
    primary { b with mode } o t = b.complete (.note d a o) := by
  have hdegree : Literal.degree t.text = .ok (d, a) :=
    (Literal.degree_eq_ok_iff htext).2 ⟨⟨rfl, hd⟩, rfl⟩
  rw [← complete_withMode b _ mode, primary]
  rcases ht with ht | ht <;> simp only [ht, hdegree]

theorem primary_rest {t : Token} (mode : Mode) (o : Option Options) (ht : t.kind = .rest) :
    primary { b with mode } o t = b.complete (.rest o) := by
  rw [← complete_withMode b _ mode, primary]
  simp only [ht]

/-- What is in scope stays so inside a group. -/
theorem lookup_enter (b : Body) (g : Grouping) (opts : Option Options) (name : Bytes) :
    (b.enter g opts).lookup name = b.lookup name := by
  have hempty : (b.enter g opts).level.scope[name]? = none := Std.TreeMap.getElem?_emptyc
  have henclosing : (b.enter g opts).enclosing = ⟨b.level, g, opts⟩ :: b.enclosing := rfl
  rw [lookup, lookup, hempty, henclosing, List.findSome?_cons]
  dsimp only
  cases b.level.scope[name]? <;> rfl

/-- A bracket that closes the group being read. -/
theorem reads_closing {g : Grouping} {e : Enclosing} {es : List Enclosing} {t : Token}
    (ht : t.kind = .closing g) (hb : b.mode = .reading .nothing) (hdeclaring : b.level.declaring = [])
    (henclosing : b.enclosing = e :: es) (hg : g = e.grouping) :
    b.read t = complete { b with level := e.level, enclosing := es }
      (.group g b.level.nodes.reverse e.options) := by
  have hnext : b.next t = b.leave b.groupNode := by
    rw [next.eq_def]
    simp only [ht, hdeclaring, henclosing, hg, ↓reduceIte]
  rw [read_of_nothing hb, hnext, leave, henclosing, hg]
  rfl

theorem settles_complete (b : Body) (n : Node) : (b.complete n).Settles (b.complete n) :=
  settles_self rfl

end Body

/-- One case for each rule; a group is read in a level of its own, where nothing has been declared. -/
theorem Derives.reads {f : Form} {ts : List Token} (h : Derives f ts) : f.Reads ts := by
  induction h with
  | @reference m hm =>
    intro b o o' n hb ho hn
    obtain ⟨i, hi, rfl, rfl⟩ := Phrase.denote_reference_eq_some_iff.1 hn
    exact ⟨b, .refl b, ho, Body.reads_reference hm hb ((ho.lookup m.text).trans hi)⟩
  | @declaration m e p ts hm he _ ih =>
    intro b o o' n hb ho hn
    obtain ⟨n, inner, hbody, rfl, rfl⟩ := Phrase.denote_declaration_eq_some_iff.1 hn
    obtain ⟨c, hfollows, hmatches, hsettles⟩ :=
      ih (b := b.awaiting (.reading .nothing) (m.text :: b.level.declaring)) rfl
        ⟨ho.sections, ho.lookup⟩ hbody
    refine ⟨(c.bind m.text n).awaiting c.mode b.level.declaring, ?_, hmatches.bind .., ?_⟩
    · exact ⟨hfollows.diagnostics, hfollows.nodes, rfl, hfollows.enclosing⟩
    · rw [List.foldl_cons, List.foldl_cons, Body.reads_declared hm he hb, ← hmatches.sections,
        ← Body.complete_bind hfollows.declaring]
      exact hsettles
  | label ht =>
    intro b o o' n hb ho hn
    obtain ⟨rfl, rfl⟩ := Prod.mk.inj (Option.some.inj hn)
    refine ⟨b, .refl b, ho, ?_⟩
    rw [List.foldl_cons, List.foldl_nil, Body.reads_label ht hb]
    exact Body.settles_complete _ _
  | note hos ht htext hd =>
    intro b o o' n hb ho hn
    obtain ⟨rfl, rfl⟩ := Prod.mk.inj (Option.some.inj hn)
    obtain ⟨mode, hfold, hread⟩ := Body.reads_options hb hos
    refine ⟨b, .refl b, ho, ?_⟩
    rw [List.foldl_append, hfold, List.foldl_cons, List.foldl_nil,
      hread _ (by rcases ht with ht | ht <;> rw [ht] <;> rfl), Body.primary_note mode _ ht htext hd]
    exact Body.settles_complete _ _
  | rest hos ht =>
    intro b o o' n hb ho hn
    obtain ⟨rfl, rfl⟩ := Prod.mk.inj (Option.some.inj hn)
    obtain ⟨mode, hfold, hread⟩ := Body.reads_options hb hos
    refine ⟨b, .refl b, ho, ?_⟩
    rw [List.foldl_append, hfold, List.foldl_cons, List.foldl_nil, hread _ (by rw [ht]; rfl),
      Body.primary_rest mode _ ht]
    exact Body.settles_complete _ _
  | @group g x y ps opts os ts hos hx _ hy ih =>
    intro b o o' n hb ho hn
    obtain ⟨ns, inner, hchildren, rfl, rfl⟩ := Phrase.denote_group_eq_some_iff.1 hn
    obtain ⟨mode, hfold, hread⟩ := Body.reads_options hb hos
    have henter : Body.primary { b with mode } opts x = b.enter g opts := by
      rw [Body.primary]
      simp only [hx]
      rfl
    have hinner : (b.enter g opts).Matches o :=
      ⟨ho.sections, fun name => (Body.lookup_enter ..).trans (ho.lookup name)⟩
    obtain ⟨c, hmode, hmatches, hsettles, hfollows⟩ := ih (b := b.enter g opts) rfl rfl hinner hchildren
    refine ⟨{ c with level := b.level, enclosing := b.enclosing }, ?_, ?_, ?_⟩
    · exact ⟨hfollows.diagnostics, rfl, rfl, rfl⟩
    · exact ⟨hmatches.sections, ho.lookup⟩
    · have hclose := Body.reads_closing hy hmode hfollows.declaring hfollows.enclosing rfl
      rw [hfollows.nodes, List.reverse_append, List.reverse_reverse] at hclose
      rw [List.foldl_append, hfold, List.foldl_cons, hread _ (by rw [hx]; rfl), henter,
        List.foldl_append]
      refine hsettles.foldl hmode (by simp [hy]) ?_
      rw [List.foldl_cons, List.foldl_nil, hclose]
      exact Body.settles_complete _ _
  | nil =>
    intro b o o' ns hb hdeclaring ho hns
    obtain ⟨rfl, rfl⟩ := Prod.mk.inj (Option.some.inj hns)
    exact ⟨b, hb, ho, Body.settles_self hb, .refl b⟩
  | @cons p ps ts us _ hps ihp ihps =>
    intro b o o' ns hb hdeclaring ho hns
    obtain ⟨n, rest, inner, hn, hrest, rfl⟩ := Phrase.denoteAll_cons_eq_some_iff.1 hns
    obtain ⟨c, hfollows, hmatches, hsettles⟩ := ihp hb ho hn
    have hcomplete := Body.complete_of_declaring_eq_nil (hfollows.declaring.trans hdeclaring) n
    obtain ⟨d, hmode, hmatches', hsettles', hfollows'⟩ := ihps (b := c.complete n) rfl rfl
      (by rw [hcomplete]; exact ⟨hmatches.sections, hmatches.lookup⟩) hrest
    refine ⟨d, hmode, hmatches', ?_, ?_⟩
    · rw [List.foldl_append]
      exact hsettles.foldl rfl hps.head_ne_equals hsettles'
    · rw [hcomplete] at hfollows'
      refine ⟨hfollows'.diagnostics.trans hfollows.diagnostics, ?_,
        hfollows'.declaring.trans hfollows.declaring, hfollows'.enclosing.trans hfollows.enclosing⟩
      rw [hfollows'.nodes, ← hfollows.nodes, List.reverse_cons, List.append_assoc]
      rfl

end DegreeScore
