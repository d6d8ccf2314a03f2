import DegreeScore.Proofs.Decimal.Binary64
import DegreeScore.Proofs.Tempo
import DegreeScore.Proofs.Timing
import DegreeScore.Service.Basic

/-!
# The feed in an answer

A request for the feed of a source is answered with success as soon as there is a tempo. The answer
then has one entry for each channel event, in order, exactly if the tempo and the times of these
events are numbers; otherwise it is empty (`Request.carriesFeed_iff`). Times are numbers at every
tempo that is one and not tiny (`Playback.isFinite_millis`), in particular at the tempo that a source
has by itself. A tempo that is asked for need only not be zero or less, and so an answer may be empty.
-/

namespace DegreeScore

theorem Json.exists_numeral_iff {x : Float} :
    (∃ t, numeral x = .ok t) ↔ Binary64.isFinite x = true := by
  rw [numeral, Binary64.isFinite]
  cases Binary64.ofFloat x with
  | nan | infinite =>
    refine iff_of_false ?_ Bool.false_ne_true
    rintro ⟨t, ht⟩
    cases ht
  | finite => exact iff_of_true ⟨_, rfl⟩ rfl

theorem Json.ofFloat_eq_ok_iff {x : Float} {v : Value} :
    Value.ofFloat x = .ok v ↔ ∃ t, numeral x = .ok t ∧ .number t = v :=
  Traversal.map_eq_ok_iff

-- ════════════════════════════════════════════════════════════════════════
-- Tempos
-- ════════════════════════════════════════════════════════════════════════

/-- A tempo at which all times are numbers. -/
structure Playback.Moderate (x : Float) : Prop where
  finite : Binary64.isFinite x = true
  least : 1e-280 ≤ x

theorem Playback.moderate_default : Moderate 120 := ⟨by decide +kernel, by decide +kernel⟩

theorem Playback.below_least : Binary64.Below (-930) (Binary64.unpacked 1e-280) := by
  decide +kernel

theorem Playback.reaches_least : Binary64.Reaches (-930) (Binary64.unpacked 1e-280) := by
  decide +kernel

theorem Playback.moderate_ofInt64 {n : Int64} (h : 0 < n) : Moderate (Binary64.ofInt64 n) := by
  have hpos : 0 < n.toInt := Int64.lt_iff_toInt_lt.1 h
  obtain ⟨hbelow, hreaches⟩ := Binary64.ofInt64_spec hpos.le
  exact ⟨Binary64.isFinite_iff.2 (hbelow.mono (by decide)),
    below_least.le_of_reaches (hreaches hpos) (by decide) (by decide)⟩

theorem Playback.Moderate.reaches {x : Float} (h : Moderate x) :
    Binary64.Reaches (-930) (Binary64.unpacked x) :=
  reaches_least.of_le (Binary64.isFinite_iff.1 h.finite) (by decide) h.least

theorem Playback.Moderate.not_le_zero {x : Float} (h : Moderate x) : ¬x ≤ 0 := h.reaches.not_le_zero

theorem Environment.not_defaultBpm_le_zero (env : Environment) : ¬env.defaultBpm ≤ 0 := by
  rw [defaultBpm]
  split
  · split
    · exact Playback.moderate_default.not_le_zero
    · assumption
  · exact Playback.moderate_default.not_le_zero

namespace Compilation

variable {c : Compilation}

/-- A source has the tempo of its entry or the default. -/
theorem bpm_moderate_or (c : Compilation) (env : Environment) :
    Playback.Moderate (c.bpm env) ∨ c.bpm env = env.defaultBpm := by
  by_cases h : ∃ n, Header.beats? c.tree.metadata = some n ∧ 0 < n
  · obtain ⟨n, hbeats, hpos⟩ := h
    rw [bpm_of_pos hbeats hpos]
    exact .inl (Playback.moderate_ofInt64 hpos)
  · exact .inr (bpm_of_not_pos (fun n hn hpos => h ⟨n, hn, hpos⟩) env)

theorem not_bpm_le_zero (c : Compilation) (env : Environment) : ¬c.bpm env ≤ 0 := by
  rcases c.bpm_moderate_or env with h | h
  · exact h.not_le_zero
  · rw [h]
    exact env.not_defaultBpm_le_zero

/-- Where no default is set, the tempo of a source is moderate. -/
theorem bpm_moderate {env : Environment} (h : env.bpm = "") : Playback.Moderate (c.bpm env) := by
  rcases c.bpm_moderate_or env with hc | hc
  · exact hc
  · have hdefault : env.defaultBpm = 120 := by
      rw [Environment.defaultBpm, h]
      rfl
    rw [hc, hdefault]
    exact Playback.moderate_default

end Compilation

theorem Request.not_le_zero_of_tempo? {t : Target} {own x : Float} (hown : ¬own ≤ 0)
    (h : tempo? t own = some x) : ¬x ≤ 0 := by
  rw [tempo?] at h
  split at h
  · exact Option.some.inj h ▸ hown
  · exact Option.some.inj h ▸ hown
  · split at h
    · split at h
      · cases h
      · next hpos => exact Option.some.inj h ▸ hpos
    · cases h

theorem Request.tempo?_of_none {t : Target} {own : Float}
    (h : (t.parameterValue? "bpm").getD [] = []) : tempo? t own = some own := by
  rw [tempo?]
  split
  · rfl
  · rfl
  · next bs hne hbs =>
    rw [hbs] at h
    exact absurd h hne

namespace Playback

open Binary64 (Below unpacked)

variable {x : Float} {e : TimedEvent} {events : List TimedEvent} {entries : List Json.Value}

/-- At a moderate tempo the milliseconds of a time are a number. -/
theorem isFinite_millis {t : Ratio} (ht : t.IsTime) (hx : Moderate x) :
    Binary64.isFinite (millis t x) = true := by
  obtain ⟨hnum, -⟩ := Binary64.ofInt64_spec ht.nonneg
  obtain ⟨-, hden⟩ := Binary64.ofInt64_spec (le_of_lt ht.proper)
  have hfour : Below 3 (unpacked 4) := by decide +kernel
  have hminute : Below 16 (unpacked 60000) := by decide +kernel
  have hwhole : Below 66 (unpacked t.toFloat) :=
    hnum.div (hden ht.proper) (by decide) (by decide)
  have hquarters : Below 70 (unpacked (t.toFloat * 4)) :=
    hwhole.mul hfour (by decide) (by decide)
  have hbeats : Below 87 (unpacked (t.toFloat * 4 * 60000)) :=
    hquarters.mul hminute (by decide) (by decide)
  have hmillis : Below 1019 (unpacked (millis t x)) :=
    hbeats.div hx.reaches (by decide) (by decide)
  exact Binary64.isFinite_iff.2 (hmillis.mono (by decide))

/-- The tempo and the times of channel events at it are numbers. -/
structure HasNumerals (x : Float) (events : List TimedEvent) : Prop where
  tempo : Binary64.isFinite x = true
  times : ∀ e ∈ events.filter (fun e => !e.event.isMeta), Binary64.isFinite (millis e.time x) = true

theorem Moderate.hasNumerals (hx : Moderate x) (h : ∀ e ∈ events, e.time.IsTime) :
    HasNumerals x events :=
  ⟨hx.finite, fun e he => isFinite_millis (h e (List.mem_of_mem_filter he)) hx⟩

-- ════════════════════════════════════════════════════════════════════════
-- Entries
-- ════════════════════════════════════════════════════════════════════════

/-- The entry of a channel event in the feed at a tempo: when it is due, its bytes and its text. -/
inductive IsEntry (x : Float) : TimedEvent → Json.Value → Prop
  | channel {time : Ratio} {c : UInt8} {m : Midi.ChannelMessage} {due : String}
    (h : Json.numeral (millis time x) = .ok due) :
    IsEntry x ⟨time, .channel c m⟩
      (.object [("millis", .number due), ("bytes", .text (Text.Hex.ofBytes (render c m).1)),
        ("message", .text (render c m).2)])

theorem exists_isEntry_iff (h : (!e.event.isMeta) = true) :
    (∃ v, IsEntry x e v) ↔ Binary64.isFinite (millis e.time x) = true := by
  rw [← Json.exists_numeral_iff]
  constructor
  · rintro ⟨v, hv⟩
    cases hv with
    | channel hdue => exact ⟨_, hdue⟩
  · rintro ⟨due, hdue⟩
    obtain ⟨time, event⟩ := e
    cases event with
    | channel c m => exact ⟨_, .channel hdue⟩
    | info => cases h

theorem message?_channel {time : Ratio} {c : UInt8} {m : Midi.ChannelMessage} :
    message? x ⟨time, .channel c m⟩ = some ⟨millis time x, (render c m).1, (render c m).2⟩ := rfl

theorem entry_eq_ok_iff {time : Ratio} {c : UInt8} {m : Midi.ChannelMessage} {v : Json.Value} :
    (PlaybackMessage.mk (millis time x) (render c m).1 (render c m).2).entry = .ok v ↔
      IsEntry x ⟨time, .channel c m⟩ v := by
  rw [PlaybackMessage.entry, Traversal.map_eq_ok_iff]
  simp only [Json.ofFloat_eq_ok_iff]
  constructor
  · rintro ⟨_, ⟨due, hdue, rfl⟩, rfl⟩
    exact .channel hdue
  · rintro ⟨hdue⟩
    exact ⟨_, ⟨_, hdue, rfl⟩, rfl⟩

/-- The entries of a feed are those of the channel events. -/
theorem forall₂_entry_iff :
    List.Forall₂ (fun m v => m.entry = .ok v) (events.filterMap (message? x)) entries ↔
      List.Forall₂ (IsEntry x) (events.filter fun e => !e.event.isMeta) entries := by
  induction events generalizing entries with
  | nil => rw [List.filterMap_nil, List.filter_nil, List.forall₂_nil_left_iff,
      List.forall₂_nil_left_iff]
  | cons e events ih =>
    obtain ⟨time, event⟩ := e
    cases event with
    | channel c m =>
      rw [List.filterMap_cons_some message?_channel, List.filter_cons_of_pos rfl,
        List.forall₂_cons_left_iff, List.forall₂_cons_left_iff]
      simp only [entry_eq_ok_iff, ih]
    | info => exact ih

end Playback

-- ════════════════════════════════════════════════════════════════════════
-- Answers
-- ════════════════════════════════════════════════════════════════════════

/-- The answer carries a whole feed: the id of the request, the tempo and the entries of all channel
events. -/
def Answer.CarriesFeed (a : Answer) (id : String) (x : Float) (events : List TimedEvent) : Prop :=
  ∃ tempo entries, Json.numeral x = .ok tempo ∧
    List.Forall₂ (Playback.IsEntry x) (events.filter fun e => !e.event.isMeta) entries ∧
    a.content = .json (.object
      [("request_id", .text id), ("bpm", .number tempo), ("events", .array entries)])

/-- The answer that is made of a feed or of the lack of one. -/
def Answer.ofFeed : Except Json.NoNumeral Json.Value → Answer
  | .ok v => .json 200 v
  | .error _ => { status := 200, contentType := "application/json" }

namespace Request

variable {env : Environment} {r : Request} {id : String} {p : Performance} {x : Float}

theorem messages_eq (hx : ¬x ≤ 0) {events : List TimedEvent} :
    Playback.messages env events x = events.filterMap (Playback.message? x) := by
  rw [Playback.messages, if_neg hx]

theorem feedValue_eq_ok_iff (hx : ¬x ≤ 0) {v : Json.Value} :
    feedValue env id p x = .ok v ↔ ∃ tempo entries, Json.numeral x = .ok tempo ∧
      List.Forall₂ (Playback.IsEntry x) (p.events.filter fun e => !e.event.isMeta) entries ∧
      .object [("request_id", .text id), ("bpm", .number tempo), ("events", .array entries)] = v := by
  have hfeed : ∀ events, Playback.feed (Playback.messages env p.events x) = .ok events ↔
      ∃ entries, List.Forall₂ (Playback.IsEntry x)
        (p.events.filter fun e => !e.event.isMeta) entries ∧ .array entries = events := by
    intro events
    rw [messages_eq hx, Playback.feed, Traversal.map_eq_ok_iff]
    simp only [Traversal.mapM_eq_ok_iff, Playback.forall₂_entry_iff]
  simp only [feedValue, Traversal.bind_eq_ok_iff, Json.ofFloat_eq_ok_iff, hfeed]
  constructor
  · rintro ⟨_, ⟨tempo, htempo, rfl⟩, _, ⟨entries, hentries, rfl⟩, hv⟩
    exact ⟨tempo, entries, htempo, hentries, Except.ok.inj hv⟩
  · rintro ⟨tempo, entries, htempo, hentries, rfl⟩
    exact ⟨_, ⟨tempo, htempo, rfl⟩, _, ⟨entries, hentries, rfl⟩, rfl⟩

theorem exists_feedValue_iff (env : Environment) (id : String) (hx : ¬x ≤ 0) :
    (∃ v, feedValue env id p x = .ok v) ↔ Playback.HasNumerals x p.events := by
  have hentries : (∃ entries, List.Forall₂ (Playback.IsEntry x)
      (p.events.filter fun e => !e.event.isMeta) entries) ↔
      ∀ e ∈ p.events.filter (fun e => !e.event.isMeta),
        Binary64.isFinite (Playback.millis e.time x) = true := by
    rw [Traversal.exists_forall₂_iff]
    exact forall₂_congr fun e he => Playback.exists_isEntry_iff (List.mem_filter.1 he).2
  simp only [feedValue_eq_ok_iff hx]
  constructor
  · rintro ⟨v, tempo, entries, htempo, hall, -⟩
    exact ⟨Json.exists_numeral_iff.1 ⟨tempo, htempo⟩, hentries.1 ⟨entries, hall⟩⟩
  · rintro ⟨htempo, htimes⟩
    obtain ⟨tempo, htempo⟩ := Json.exists_numeral_iff.2 htempo
    obtain ⟨entries, hall⟩ := hentries.2 htimes
    exact ⟨_, tempo, entries, htempo, hall, rfl⟩

/-- What does not compile is not answered with success. -/
theorem status_of_compile_eq_error {a : Answer} (h : r.compile id = .error a) : a.status ≠ 200 := by
  rw [Request.compile] at h
  split at h
  · obtain rfl := Except.error.inj h
    decide
  split at h
  · obtain rfl := Except.error.inj h
    decide
  simp only at h
  split at h
  · cases h
  · obtain rfl := Except.error.inj h
    show 422 ≠ 200
    decide
  · obtain rfl := Except.error.inj h
    show 422 ≠ 200
    decide

theorem compile_eq_ok {c : Compilation} {f : Midi.File} (h : r.compile id = .ok (c, p, f)) :
    ∃ source, r.source? = some source ∧ c = DegreeScore.compile source ∧
      (DegreeScore.compile source).outcome = .compiled p f := by
  rw [Request.compile] at h
  split at h
  · cases h
  split at h
  · cases h
  · next source hsource =>
    simp only at h
    split at h
    · next hcompiled =>
      cases h
      exact ⟨source, hsource, rfl, hcompiled⟩
    · cases h
    · cases h

/-- With success is answered what compiles and has a tempo. -/
theorem answerEvents_of_status (h : (r.answerEvents env id).status = 200) :
    ∃ source p f x, r.source? = some source ∧
      (DegreeScore.compile source).outcome = .compiled p f ∧
      tempo? r.target ((DegreeScore.compile source).bpm env) = some x ∧ ¬x ≤ 0 ∧
      r.answerEvents env id = .ofFeed (feedValue env id p x) := by
  rw [answerEvents] at h ⊢
  cases hcompile : r.compile id with
  | error a =>
    rw [hcompile] at h
    exact absurd h (status_of_compile_eq_error hcompile)
  | ok compiled =>
    obtain ⟨c, p, f⟩ := compiled
    obtain ⟨source, hsource, rfl, hcompiled⟩ := compile_eq_ok hcompile
    rw [hcompile] at h
    cases htempo : tempo? r.target ((DegreeScore.compile source).bpm env) with
    | none =>
      simp only [htempo] at h
      exact absurd h (by show 400 ≠ 200; decide)
    | some x =>
      refine ⟨source, p, f, x, hsource, hcompiled, htempo, ?_, ?_⟩
      · exact not_le_zero_of_tempo? (Compilation.not_bpm_le_zero _ env) htempo
      · simp only [htempo]
        cases feedValue env id p x <;> rfl

theorem carriesFeed_ofFeed_iff (hx : ¬x ≤ 0) :
    (Answer.ofFeed (feedValue env id p x)).CarriesFeed id x p.events ↔
      Playback.HasNumerals x p.events := by
  rw [← exists_feedValue_iff env id hx]
  cases hfeed : feedValue env id p x with
  | error e =>
    refine iff_of_false ?_ ?_
    · rintro ⟨tempo, entries, -, -, hcontent⟩
      cases hcontent
    · rintro ⟨v, hv⟩
      cases hv
  | ok v =>
    obtain ⟨tempo, entries, htempo, hentries, rfl⟩ := (feedValue_eq_ok_iff hx).1 hfeed
    exact iff_of_true ⟨tempo, entries, htempo, hentries, rfl⟩ ⟨_, rfl⟩

theorem content_ofFeed (hx : ¬x ≤ 0) (h : ¬Playback.HasNumerals x p.events) :
    (Answer.ofFeed (feedValue env id p x)).content = .empty := by
  rw [← exists_feedValue_iff env id hx] at h
  cases hfeed : feedValue env id p x with
  | error e => rfl
  | ok v => exact absurd ⟨v, hfeed⟩ h

/-- An answer with success carries the feed of the source exactly if the tempo and the times at it are
numbers, and otherwise nothing. At a moderate tempo it does, and so it does at the tempo of the source
itself if no default is set. -/
theorem carriesFeed_iff (h : (r.answerEvents env id).status = 200) :
    ∃ source p f x, r.source? = some source ∧
      (DegreeScore.compile source).outcome = .compiled p f ∧
      tempo? r.target ((DegreeScore.compile source).bpm env) = some x ∧
      ((r.answerEvents env id).CarriesFeed id x p.events ↔ Playback.HasNumerals x p.events) ∧
      (¬Playback.HasNumerals x p.events → (r.answerEvents env id).content = .empty) ∧
      (Playback.Moderate x → (r.answerEvents env id).CarriesFeed id x p.events) ∧
      ((r.target.parameterValue? "bpm").getD [] = [] → env.bpm = "" →
        (r.answerEvents env id).CarriesFeed id x p.events) := by
  obtain ⟨source, p, f, x, hsource, hcompiled, htempo, hx, hanswer⟩ := answerEvents_of_status h
  rw [hanswer]
  obtain ⟨hp, -⟩ := Compilation.perform_of_compiled hcompiled
  have htimes := ((Tree.parse_sound source).1.perform_spans hp).time
  have hmoderate : Playback.Moderate x →
      (Answer.ofFeed (feedValue env id p x)).CarriesFeed id x p.events :=
    fun h => (carriesFeed_ofFeed_iff hx).2 (h.hasNumerals htimes)
  refine ⟨source, p, f, x, hsource, hcompiled, htempo, carriesFeed_ofFeed_iff hx, content_ofFeed hx,
    hmoderate, fun hown hset => hmoderate ?_⟩
  rw [tempo?_of_none hown] at htempo
  exact Option.some.inj htempo ▸ Compilation.bpm_moderate hset

/-- A note, to be played at no particular tempo. -/
def plainNote : Request where
  method := "POST"
  target := { path := Bytes.ofString "/events" }
  body := Bytes.ofString "\x7b\"source\": \"0\"\x7d"

theorem carriesFeed_plainNote :
    (plainNote.answerEvents {} "1").status = 200 ∧
      ∃ source p f x, plainNote.source? = some source ∧
        (DegreeScore.compile source).outcome = .compiled p f ∧
        tempo? plainNote.target ((DegreeScore.compile source).bpm {}) = some x ∧
        (plainNote.answerEvents {} "1").CarriesFeed "1" x p.events := by
  have hstatus : (plainNote.answerEvents {} "1").status = 200 := by decide +kernel
  obtain ⟨source, p, f, x, hsource, hcompiled, htempo, -, -, -, hown⟩ := carriesFeed_iff hstatus
  exact ⟨hstatus, source, p, f, x, hsource, hcompiled, htempo, hown (by decide) rfl⟩

/-- A note, to be played at a tempo that is no number. -/
def noteAtNaN : Request := { plainNote with
  target := { path := Bytes.ofString "/events", query := some (Bytes.ofString "bpm=nan") } }

/-- The tempo is accepted and cannot be written. -/
theorem not_carriesFeed_noteAtNaN :
    (noteAtNaN.answerEvents {} "1").status = 200 ∧
      (noteAtNaN.answerEvents {} "1").content = .empty ∧
      ∃ source p f x, noteAtNaN.source? = some source ∧
        (DegreeScore.compile source).outcome = .compiled p f ∧
        tempo? noteAtNaN.target ((DegreeScore.compile source).bpm {}) = some x ∧
        ¬(noteAtNaN.answerEvents {} "1").CarriesFeed "1" x p.events := by
  have hstatus : (noteAtNaN.answerEvents {} "1").status = 200 := by decide +kernel
  obtain ⟨source, p, f, x, hsource, hcompiled, htempo, hx, hanswer⟩ :=
    answerEvents_of_status hstatus
  have hnone : ¬Playback.HasNumerals x p.events := by
    have hnan : ∀ own, tempo? noteAtNaN.target own = some Binary64.nanValue := fun _ => rfl
    rw [hnan] at htempo
    rintro ⟨hfinite, -⟩
    rw [← Option.some.inj htempo] at hfinite
    exact absurd hfinite (by decide)
  refine ⟨hstatus, ?_, source, p, f, x, hsource, hcompiled, htempo, ?_⟩
  · rw [hanswer]
    exact content_ofFeed hx hnone
  · rw [hanswer, carriesFeed_ofFeed_iff hx]
    exact hnone

end Request

end DegreeScore
