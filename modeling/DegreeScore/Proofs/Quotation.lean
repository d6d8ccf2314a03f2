import DegreeScore.Proofs.ByteForm
import DegreeScore.Proofs.Midi.Rewriting
import DegreeScore.Proofs.Scanning
import DegreeScore.Proofs.Score.Language

/-!
# Quoted texts come through

Any bytes can be written between quotes with their quotes doubled, and are scanned as one token that
says them again (`Token.next_quoted`). A text that is no dynamic and no program is carried on by every
stage after that: it is read back from the written file as the one event of the first track, and as the
title of any score it heads that track (`Compilation.quoted_survives`).
-/

namespace DegreeScore

-- ════════════════════════════════════════════════════════════════════════
-- Quoting
-- ════════════════════════════════════════════════════════════════════════

/-- A byte as it is written between quotes. -/
def Lexer.doubled (b : UInt8) : Bytes := if b = quote then [quote, quote] else [b]

/-- A byte string in quotes. -/
def Bytes.quoted (s : Bytes) : Bytes := Lexer.quote :: (s.flatMap Lexer.doubled ++ [Lexer.quote])

namespace Lexer

/-- A quote that is not doubled closes a text. -/
theorem quoted?_close {rest : Bytes} (h : rest.head? ≠ some quote) (acc : Bytes) (n : Nat) :
    quoted? acc n (quote :: rest) = some (acc.reverse, n + 1) := by
  cases rest with
  | nil => exact if_pos rfl
  | cons c rest => exact (if_neg (not_not.2 rfl)).trans (if_neg fun hc => h (congrArg some hc))

theorem quoted?_doubled {rest : Bytes} (h : rest.head? ≠ some quote) (s acc : Bytes) (n : Nat) :
    quoted? acc n (s.flatMap doubled ++ quote :: rest) =
      some (acc.reverse ++ s, n + (s.flatMap doubled).length + 1) := by
  induction s generalizing acc n with
  | nil => simpa using quoted?_close h acc n
  | cons b s ih =>
    by_cases hb : b = quote
    · subst hb
      rw [List.flatMap_cons, doubled, if_pos rfl]
      change quoted? (quote :: acc) (n + 2) (s.flatMap doubled ++ quote :: rest) = _
      rw [ih]
      simp
      omega
    · rw [List.flatMap_cons, doubled, if_neg hb]
      have hstep : quoted? acc n (b :: (s.flatMap doubled ++ quote :: rest)) =
          quoted? (b :: acc) (n + 1) (s.flatMap doubled ++ quote :: rest) := by
        obtain ⟨c, more, hmore⟩ : ∃ c more, s.flatMap doubled ++ quote :: rest = c :: more :=
          List.exists_cons_of_ne_nil (by simp)
        rw [hmore]
        exact if_pos hb
      rw [List.append_assoc, List.singleton_append, hstep, ih]
      simp
      omega

end Lexer

/-- A quoted text is one token, whatever follows but a quote. -/
theorem Token.next_quoted (rest : Bytes) (h : rest.head? ≠ some Lexer.quote) (pos : Nat) (s : Bytes) :
    next pos (s.quoted ++ rest) =
      ({ kind := .text s, offset := pos, text := s.quoted }, s.quoted.length) := by
  have hmeasure : Lexer.measure Lexer.quote (s.flatMap Lexer.doubled ++ Lexer.quote :: rest) =
      (.text s, s.quoted.length) := by
    change Lexer.text _ = _
    rw [Lexer.text, Lexer.quoted?_doubled h]
    simp [Bytes.quoted]
    omega
  have hsource : s.quoted ++ rest =
      Lexer.quote :: (s.flatMap Lexer.doubled ++ Lexer.quote :: rest) := by
    simp [Bytes.quoted]
  have hgap : Lexer.gapLength (.blanks 0) 0 (s.quoted ++ rest) = 0 := by
    rw [hsource]
    rfl
  have htake : (s.quoted ++ rest).take s.quoted.length = s.quoted := List.take_left
  rw [next, hgap]
  rw [hsource] at htake ⊢
  simp only [List.drop_zero, hmeasure, htake, Nat.add_zero, Nat.zero_add]

theorem Token.scan_quoted (s : Bytes) :
    scan s.quoted = [{ kind := .text s, offset := 0, text := s.quoted },
      { kind := .endOfInput, offset := s.quoted.length, text := [] }] := by
  have hnext := next_quoted [] (by simp) 0 s
  rw [List.append_nil] at hnext
  refine scan_eq_iff.2 (.word hnext (by simp) ?_)
  rw [List.drop_length, Nat.zero_add]
  exact .stop rfl rfl

-- ════════════════════════════════════════════════════════════════════════
-- Titles
-- ════════════════════════════════════════════════════════════════════════

/-- The key of a title. -/
def titleKey : Bytes := Bytes.ofString "title"

/-- The metadata that give a score a title. -/
def Bytes.titling (s : Bytes) : Bytes := Bytes.ofString ",\x7b'title'=" ++ s.quoted ++ [125]

theorem Bytes.titling_eq (s : Bytes) :
    s.titling = 44 :: 123 :: (titleKey.quoted ++ 61 :: (s.quoted ++ [125])) := by
  have hopening : Bytes.ofString ",\x7b'title'=" = 44 :: 123 :: (titleKey.quoted ++ [61]) := by
    decide +kernel
  rw [titling, hopening]
  simp

/-- The tokens of a title, after the comma a table and the end of input. -/
theorem Token.exists_scans_titling (pos : Nat) (s : Bytes) :
    ∃ c ts stop, Scans pos s.titling (c :: (ts ++ [stop])) ∧ c.kind = .comma ∧
      Spells (.value (.table [(titleKey, .text s)])) ts ∧ stop.kind = .endOfInput := by
  have hkey := next_quoted (61 :: (s.quoted ++ [125])) (by simp [Lexer.quote]) (pos + 1 + 1) titleKey
  have hvalue := next_quoted [125] (by simp [Lexer.quote])
    (pos + 1 + 1 + titleKey.quoted.length + 1) s
  have hcollects : Table.Collects [(titleKey, .text s)] [(titleKey, .text s)] :=
    ⟨List.pairwise_singleton .., fun _ => rfl⟩
  have hscans : Scans pos s.titling
      [⟨.comma, pos, [44]⟩, ⟨.opening .chord, pos + 1, [123]⟩,
        ⟨.text titleKey, pos + 1 + 1, titleKey.quoted⟩,
        ⟨.equals, pos + 1 + 1 + titleKey.quoted.length, [61]⟩,
        ⟨.text s, pos + 1 + 1 + titleKey.quoted.length + 1, s.quoted⟩,
        ⟨.closing .chord, pos + 1 + 1 + titleKey.quoted.length + 1 + s.quoted.length, [125]⟩,
        ⟨.endOfInput, pos + 1 + 1 + titleKey.quoted.length + 1 + s.quoted.length + 1, []⟩] := by
    rw [Bytes.titling_eq]
    refine .cons (w := [44]) rfl (by simp) (.cons (w := [123]) rfl (by simp) ?_)
    refine .cons hkey (by simp) (.cons (w := [61]) rfl (by simp) ?_)
    exact .cons hvalue (by simp) (.cons (w := [125]) rfl (by simp) (.stop rfl rfl))
  exact ⟨_, [_, _, _, _, _], _, hscans, rfl,
    .table rfl (.lastEntry (.inl rfl) rfl (.text rfl)) rfl hcollects, rfl⟩

-- ════════════════════════════════════════════════════════════════════════
-- Trees
-- ════════════════════════════════════════════════════════════════════════

/-- A token that the scan finds no fault with. -/
def Token.Legible (t : Token) : Prop := ∀ fault, t.kind ≠ .invalid fault

theorem Options.Written.legible {o : Option Options} {os : List Token} (h : Options.Written o os) :
    ∀ t ∈ os, t.Legible := by
  cases h with
  | none => simp
  | some _ _ hwords =>
    intro t ht
    obtain ⟨ts, hts, ht⟩ := List.mem_flatten.1 ht
    obtain ⟨w, -, hw⟩ := Traversal.exists_of_mem_right hwords hts
    cases hw with
    | key hw hn =>
      rcases List.mem_pair.1 ht with rfl | rfl
      · simp [Token.Legible, hw]
      · simp [Token.Legible, hn]
    | duration hw | label hw =>
      obtain rfl := List.mem_singleton.1 ht
      simp [Token.Legible, hw]

theorem Derives.legible {f : Form} {ts : List Token} (h : Derives f ts) : ∀ t ∈ ts, t.Legible := by
  induction h with
  | reference hm => simp [Token.Legible, hm]
  | declaration hm he _ ih =>
    refine List.forall_mem_cons.2 ⟨by simp [Token.Legible, hm], ?_⟩
    exact List.forall_mem_cons.2 ⟨by simp [Token.Legible, he], ih⟩
  | label ht => simp [Token.Legible, ht]
  | note ho ht =>
    refine List.forall_mem_append.2 ⟨ho.legible, List.forall_mem_singleton.2 ?_⟩
    rcases ht with ht | ht <;> simp [Token.Legible, ht]
  | rest ho ht =>
    refine List.forall_mem_append.2 ⟨ho.legible, List.forall_mem_singleton.2 ?_⟩
    simp [Token.Legible, ht]
  | group ho hx _ hy ih =>
    refine List.forall_mem_append.2 ⟨ho.legible, List.forall_mem_cons.2 ⟨?_, ?_⟩⟩
    · simp [Token.Legible, hx]
    · refine List.forall_mem_append.2 ⟨ih, List.forall_mem_singleton.2 ?_⟩
      simp [Token.Legible, hy]
  | nil => simp
  | cons _ _ ihp ihps => exact List.forall_mem_append.2 ⟨ihp, ihps⟩

namespace Tree

theorem parse_of_written {src : Bytes} {m : Manuscript} {tree : Tree}
    (hm : m.Written (Token.scan src)) (htree : m.tree? = some tree) : parse src = (tree, []) := by
  rw [parse]
  exact Document.result_of_written hm htree

theorem parse_quoted (s : Bytes) : parse s.quoted = (⟨.event s none, #[], none⟩, []) := by
  refine parse_of_written (m := ⟨[.label s], none⟩) ?_ rfl
  rw [Token.scan_quoted]
  exact .plain (.cons (.label rfl) .nil) rfl

/-- A title after a source that has no metadata is all that it adds to the tree. -/
theorem parse_titling {src : Bytes} {tree : Tree} (h : parse src = (tree, []))
    (hmetadata : tree.metadata = none) (s : Bytes) :
    parse (src ++ Position.newline :: s.titling) =
      ({ tree with metadata := some [(titleKey, .text s)] }, []) := by
  obtain ⟨m, hm, htree⟩ := written_of_parse (congrArg Prod.snd h)
  rw [h] at htree
  have hscans := Token.scans_scan src
  obtain ⟨c, us, stop, htitle, hc, hspells, hstop⟩ :=
    Token.exists_scans_titling (0 + src.length + 1) s
  generalize Token.scan src = tokens at hm hscans
  cases hm with
  | @withMetadata ps table =>
    obtain ⟨⟨ns, o⟩, -, rfl⟩ := Option.map_eq_some_iff.1 htree
    cases hmetadata
  | @plain ps ts stop' hps hstop' =>
    refine parse_of_written (m := ⟨ps, some [(titleKey, .text s)]⟩) ?_ ?_
    · have hclosed : ∀ t ∈ ts ++ [stop'], t.kind ≠ .invalid .unterminatedText := by
        refine List.forall_mem_append.2 ⟨fun t ht => hps.legible t ht _, ?_⟩
        exact List.forall_mem_singleton.2 (by simp [hstop'])
      have hall := hscans.append_newline hclosed htitle
      rw [List.dropLast_concat] at hall
      rw [Token.scan_eq_iff.2 hall]
      exact .withMetadata hps hc hspells hstop
    · obtain ⟨⟨ns, o⟩, hns, rfl⟩ := Option.map_eq_some_iff.1 htree
      rw [Manuscript.tree?, hns]
      rfl

end Tree

theorem compile_of_parse {src : Bytes} {tree : Tree} (h : Tree.parse src = (tree, [])) :
    compile src = ⟨src, tree, [], tree.compile⟩ := by
  rw [compile, h]

-- ════════════════════════════════════════════════════════════════════════
-- Files
-- ════════════════════════════════════════════════════════════════════════

/-- An element with a least key may go before all others. -/
theorem Sorting.IsStable.cons {α β : Type} [LinearOrder β] {key : α → β} {as bs : List α} {a : α}
    (h : IsStable key as bs) (ha : ∀ b ∈ as, key a ≤ key b) : IsStable key (a :: as) (a :: bs) := by
  refine ⟨List.pairwise_cons.2 ⟨fun b hb => ha b ((h.mem_iff b).1 hb), h.ordered⟩, fun k => ?_⟩
  rw [List.filter_cons, List.filter_cons, h.kept k]

theorem Tree.perform_label {s : Bytes} (hdynamic : dynamic? s = none) (hprogram : program? s = none) :
    Tree.perform ⟨.event s none, #[], none⟩ =
      .ok ⟨[⟨.zero, .info (.text Midi.MetaEvent.plainText s)⟩], .zero⟩ := by
  simp only [perform, Player.node, Player.event, Player.enter, Player.label, hdynamic, hprogram]
  change Except.ok (Performance.mk (Sorting.sort TimedEvent.notAfter [_]) .zero) = _
  rw [List.perm_singleton.1 (Sorting.sort_perm ..)]

theorem Ratio.pulses_zero : Ratio.zero.pulses = .ok 0 := by decide

/-- An event at time zero goes before all others of a track and leaves them as they are. -/
theorem Arrangement.track_cons_zero (event : Midi.Event) (events : List TimedEvent) (stop : Ratio) :
    track (⟨.zero, event⟩ :: events) stop =
      (track events stop).map (⟨0, some event⟩ :: ·) := by
  rw [track, track, List.mapM_cons, Ratio.pulses_zero]
  cases events.mapM fun e => e.time.pulses with
  | error e => rfl
  | ok ticks =>
    cases stop.pulses with
    | error e => rfl
    | ok closing =>
      change Except.ok _ = Except.ok _
      rw [List.getLastD_cons]
      rfl

/-- What happens at time zero and comes first stays there. -/
theorem TimedEvent.sort_cons_zero {events : List TimedEvent} {event : Midi.Event}
    (h : ∀ e ∈ events, e.time.IsTime) :
    Sorting.sort notAfter (⟨.zero, event⟩ :: events) =
      ⟨.zero, event⟩ :: Sorting.sort notAfter events := by
  have hall : ∀ e ∈ ⟨.zero, event⟩ :: events, e.time.IsTime := by
    simpa using ⟨Ratio.isTime_zero, h⟩
  refine (isStable_sort hall).unique ((isStable_sort h).cons fun e he => ?_)
  exact Ratio.value_zero.trans_le (h e he).value_nonneg

/-- A header event makes no difference to a file but for the start of its first track. -/
theorem Performance.arrange_cons {p : Performance} {f : Midi.File} (event : Midi.MetaEvent)
    (hp : ∀ e ∈ p.events, e.time.IsTime) (h : p.arrange [] = .ok f) :
    ∃ first second, f.tracks = [first, second] ∧
      p.arrange [⟨.zero, .info event⟩] =
        .ok { f with tracks := [⟨0, some (.info event)⟩ :: first, second] } := by
  obtain ⟨first, second, hfirst, hsecond, rfl⟩ := exists_tracks h
  refine ⟨first, second, rfl, ?_⟩
  have htimes : ∀ e ∈ p.events.filter (fun e => e.event.isMeta), e.time.IsTime :=
    fun e he => hp e (List.mem_of_mem_filter he)
  rw [List.nil_append] at hfirst
  rw [arrange, List.singleton_append, TimedEvent.sort_cons_zero htimes]
  dsimp only
  rw [Arrangement.track_cons_zero, hfirst, hsecond]
  rfl

/-- The file whose one event is a text at its start. -/
def Midi.File.ofText (s : Bytes) : Midi.File where
  format := 1
  timing := some (.metric 96)
  tracks := [[⟨0, some (.info (.text MetaEvent.plainText s))⟩, .ending 0], [.ending 0]]

theorem Performance.arrange_label (s : Bytes) :
    arrange ⟨[⟨.zero, .info (.text Midi.MetaEvent.plainText s)⟩], .zero⟩ [] = .ok (.ofText s) := by
  have hfirst : Arrangement.track [⟨.zero, .info (.text Midi.MetaEvent.plainText s)⟩] .zero =
      .ok [⟨0, some (.info (.text Midi.MetaEvent.plainText s))⟩, .ending 0] :=
    Arrangement.track_cons_zero ..
  have hsort : Sorting.sort TimedEvent.notAfter
      ([] ++ [TimedEvent.mk .zero (.info (.text Midi.MetaEvent.plainText s))].filter
        fun e => e.event.isMeta) = [⟨.zero, .info (.text Midi.MetaEvent.plainText s)⟩] :=
    List.perm_singleton.1 (Sorting.sort_perm ..)
  rw [arrange]
  dsimp only
  rw [hsort, hfirst]
  rfl

/-- A text of less than 2²⁸ bytes fits into a track with what goes before and after it. -/
theorem Midi.Track.length_body_text {kind : UInt8} {s body : Bytes} (hs : s.length < 2 ^ 28)
    (h : Track.body [⟨0, some (.info (.text kind s))⟩, .ending 0] = .ok body) :
    body.length < 2 ^ 32 := by
  have hdelta : ∀ {delta : Bytes}, Quantity.encode? 0 = some delta → delta.length ≤ 4 :=
    fun h => Quantity.length_le_of_encode? h (by decide) (by decide)
  obtain ⟨parts, hparts, rfl⟩ := Track.body_eq_ok_iff.1 h
  cases hparts with
  | cons htext hrest =>
    cases hrest with
    | cons hend hnil =>
      cases hnil
      obtain ⟨delta, _, _, hsmall, ⟨⟩, hbody, rfl⟩ := htext
      obtain ⟨delta', _, _, hsmall', ⟨⟩, ⟨⟩, rfl⟩ := hend
      obtain ⟨data, _, hdata, hprefixed, rfl⟩ := Event.encode_info_eq_ok_iff.1 hbody
      obtain ⟨size, hsize, rfl⟩ := Option.map_eq_some_iff.1 hprefixed
      obtain rfl : s = data := by
        rw [MetaEvent.payload] at hdata
        split_ifs at hdata
        exact Except.ok.inj hdata
      have hlt : (UInt32.ofNat s.length).toNat < 128 ^ 4 := by
        rw [UInt32.toNat_ofNat_of_lt' (by rw [UInt32.size]; omega)]
        exact hs
      have hsize' := Quantity.length_le_of_encode? hsize (by decide) hlt
      have hd := hdelta hsmall
      have hd' := hdelta hsmall'
      simp only [List.flatten_cons, List.flatten_nil, List.length_append, List.length_cons,
        List.length_nil]
      omega

theorem Midi.File.exists_bytes_ofText {s : Bytes} (hs : s.length < 2 ^ 28) :
    ∃ b, (ofText s).encode = .ok b ∧ decode b = .ok (ofText s) := by
  have hzero : (0 : UInt32).toNat < 2 ^ 28 := by decide
  have hending : (TrackEvent.ending 0).Writable := ⟨hzero, _, rfl, _, rfl⟩
  have htext : (TrackEvent.mk 0 (some (.info (.text MetaEvent.plainText s)))).Writable :=
    ⟨hzero, _, rfl, Event.exists_encode_info rfl hs⟩
  have hwritable : ∀ t ∈ (ofText s).tracks, ∀ e ∈ t, e.Writable := by
    simp [ofText, hending, htext]
  have hcount : (ofText s).tracks.length ≤ 0xffff := by simp [ofText]
  obtain ⟨b, hb⟩ := exists_encode_iff.2
    ⟨(by decide : (1 : UInt16) ≤ 2), hcount, ⟨_, 96, rfl, rfl⟩, hwritable⟩
  refine ⟨b, hb, decode_encoded hb ?_ ?_⟩
  · refine List.forall_mem_cons.2 ⟨fun body => Track.length_body_text hs, ?_⟩
    refine List.forall_mem_singleton.2 fun body hbody => ?_
    obtain rfl := Except.ok.inj hbody
    decide
  · simp [InRange, ofText, TrackEvent.ending, Event.InRange]

-- ════════════════════════════════════════════════════════════════════════
-- Sources
-- ════════════════════════════════════════════════════════════════════════

theorem Header.events_titling (s : Bytes) :
    events (some [(titleKey, .text s)]) = [⟨.zero, .info (.text Midi.MetaEvent.trackName s)⟩] := by
  rfl

/-- An event that can be written may go before a track. -/
theorem Midi.File.exists_encode_cons {f : File} {first second : Track} {e : TrackEvent} {b : Bytes}
    (htracks : f.tracks = [first, second]) (he : e.Writable) (h : f.encode = .ok b) :
    ∃ b', File.encode { f with tracks := [e :: first, second] } = .ok b' := by
  obtain ⟨hformat, -, htiming, hwritable⟩ := exists_encode_iff.1 ⟨b, h⟩
  rw [htracks] at hwritable
  obtain ⟨hfirst, hrest⟩ := List.forall_mem_cons.1 hwritable
  refine exists_encode_iff.2 ⟨hformat, by simp, htiming, ?_⟩
  exact List.forall_mem_cons.2 ⟨List.forall_mem_cons.2 ⟨he, hfirst⟩, hrest⟩

namespace Compilation

theorem parse_of_compiled {src : Bytes} {p : Performance} {f : Midi.File}
    (h : (compile src).outcome = .compiled p f) : Tree.parse src = ((compile src).tree, []) := by
  rw [compile] at h ⊢
  cases hd : (Tree.parse src).2 with
  | nil => exact Prod.ext rfl hd
  | cons first rest =>
    simp only [hd] at h
    cases h

theorem compiled_quoted {s : Bytes} (hdynamic : dynamic? s = none) (hprogram : program? s = none) :
    ∃ p, (compile s.quoted).outcome = .compiled p (.ofText s) := by
  have hnone : Header.events none = [] := rfl
  refine ⟨⟨[⟨.zero, .info (.text Midi.MetaEvent.plainText s)⟩], .zero⟩, ?_⟩
  rw [compile_of_parse (Tree.parse_quoted s)]
  dsimp only
  rw [Tree.compile, Tree.perform_label hdynamic hprogram]
  dsimp only
  rw [hnone, Performance.arrange_label]

/-- A title leaves the performance of a score as it is and goes before its first track. -/
theorem compiled_titling {src : Bytes} {p : Performance} {f : Midi.File}
    (h : (compile src).outcome = .compiled p f) (hmetadata : (compile src).tree.metadata = none)
    (s : Bytes) :
    ∃ first second, f.tracks = [first, second] ∧
      (compile (src ++ Position.newline :: s.titling)).outcome = .compiled p { f with
        tracks := [⟨0, some (.info (.text Midi.MetaEvent.trackName s))⟩ :: first, second] } := by
  have hnone : Header.events none = [] := rfl
  obtain ⟨hp, hf⟩ := perform_of_compiled h
  have hsound : (compile src).tree.Sound src.length := (Tree.parse_sound src).1
  rw [hmetadata, hnone] at hf
  have htimes := fun e he => ((hsound.perform_sound hp).events e he).time
  obtain ⟨first, second, htracks, htitle⟩ :=
    Performance.arrange_cons (.text Midi.MetaEvent.trackName s) htimes hf
  -- Playing does not look at the metadata.
  have hperform : Tree.perform { (compile src).tree with metadata := some [(titleKey, .text s)] } =
    .ok p := hp
  refine ⟨first, second, htracks, ?_⟩
  rw [compile_of_parse (Tree.parse_titling (parse_of_compiled h) hmetadata s)]
  dsimp only
  rw [Tree.compile, hperform]
  dsimp only
  rw [Header.events_titling, htitle]

/-- A text of less than 2²⁸ bytes that is no dynamic and no program, whatever its bytes, compiles from
its quoted form to a file that is read back with the text as its one event. As the title of a score
without metadata it heads the first track, and all else in the file stays the same. -/
theorem quoted_survives {s : Bytes} (hs : s.length < 2 ^ 28) (hdynamic : dynamic? s = none)
    (hprogram : program? s = none) :
    (∃ b, (compile s.quoted).bytes = .ok b ∧ Midi.File.decode b = .ok {
        format := 1
        timing := some (.metric 96)
        tracks := [[⟨0, some (.info (.text Midi.MetaEvent.plainText s))⟩, .ending 0], [.ending 0]] }) ∧
      ∀ (src : Bytes) (p : Performance) (f : Midi.File), (compile src).outcome = .compiled p f →
        (compile src).tree.metadata = none →
          ∃ first second f', f.tracks = [first, second] ∧
            (compile (src ++ Position.newline :: s.titling)).outcome = .compiled p f' ∧
            f' = { f with
              tracks := [⟨0, some (.info (.text Midi.MetaEvent.trackName s))⟩ :: first, second] } ∧
            ∀ b, f.encode = .ok b → ∃ b', f'.encode = .ok b' ∧
              ((∀ t ∈ f'.tracks, ∀ body, t.body = .ok body → body.length < 2 ^ 32) →
                Midi.File.decode b' = .ok f') := by
  refine ⟨?_, fun src p f h hmetadata => ?_⟩
  · obtain ⟨p, hp⟩ := compiled_quoted hdynamic hprogram
    obtain ⟨b, hb, hdecode⟩ := Midi.File.exists_bytes_ofText hs
    refine ⟨b, ?_, hdecode⟩
    rw [bytes, file?, hp]
    dsimp only
    rw [hb]
  · obtain ⟨first, second, htracks, hcompiled⟩ := compiled_titling h hmetadata s
    refine ⟨first, second, _, htracks, hcompiled, rfl, fun b hb => ?_⟩
    have hzero : (0 : UInt32).toNat < 2 ^ 28 := by decide
    have htitle : (Midi.TrackEvent.mk 0
        (some (.info (.text Midi.MetaEvent.trackName s)))).Writable :=
      ⟨hzero, _, rfl, Midi.Event.exists_encode_info rfl hs⟩
    obtain ⟨b', hb'⟩ := Midi.File.exists_encode_cons htracks htitle hb
    obtain ⟨hvoiced, harranges⟩ := arranges_of_compiled hcompiled
    exact ⟨b', hb', fun hlength => Midi.File.decode_encoded hb' hlength (harranges.inRange hvoiced)⟩

/-- Two quotes, a line break, a comment sign, a null, a stray byte and a quote at the end. -/
def awkwardText : Bytes := [39, 39, 10, 37, 0, 0xff, 39]

theorem quoted_survives_awkwardText :
    awkwardText.length < 2 ^ 28 ∧ dynamic? awkwardText = none ∧ program? awkwardText = none ∧
      (∃ b, (compile awkwardText.quoted).bytes = .ok b ∧ Midi.File.decode b = .ok {
        format := 1
        timing := some (.metric 96)
        tracks :=
          [[⟨0, some (.info (.text 0x01 awkwardText))⟩, .ending 0], [.ending 0]] }) ∧
      ∃ p f first second,
        (compile (Bytes.ofString "[0 1] % two" ++ Position.newline :: awkwardText.titling)).outcome =
          .compiled p f ∧ f.tracks = [⟨0, some (.info (.text 0x03 awkwardText))⟩ :: first, second] := by
  have hdynamic : dynamic? awkwardText = none := by decide +kernel
  have hprogram : program? awkwardText = none := by decide +kernel
  obtain ⟨hlone, htitle⟩ := quoted_survives (by decide) hdynamic hprogram
  have herror : (compile (Bytes.ofString "[0 1] % two")).error? = none := by decide +kernel
  have hmetadata : (compile (Bytes.ofString "[0 1] % two")).tree.metadata.isNone = true := by
    decide +kernel
  obtain ⟨p, f, hc⟩ := exists_compiled_of_error?_eq_none herror
  obtain ⟨first, second, f', -, hc', rfl, -⟩ :=
    htitle _ p f hc (Option.isNone_iff_eq_none.1 hmetadata)
  exact ⟨by decide, hdynamic, hprogram, hlone, p, _, first, second, hc', rfl⟩

end Compilation

end DegreeScore
