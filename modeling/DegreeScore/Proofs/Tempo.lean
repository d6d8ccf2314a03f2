import DegreeScore.Proofs.Compilation

/-!
# The tempo of a feed and of its file

A feed and a file both look for the `tempo` entry of the metadata block, each with a test of its own:
a feed takes any number above zero, and a header gives no tempo above a thousand beats a minute. How
many beats a header means can be told from the microseconds of its event
(`Midi.Tempo.eq_of_ofBeats_eq`). So feed and file go by the same number of beats, or by none, exactly
if the entry is not a number above a thousand (`Compilation.tempos_agree_iff`).
-/

namespace DegreeScore

/-- The number that a value is. -/
def Metadata.number? : Metadata → Option Int64
  | .number n => some n
  | _ => none

/-- The quotients of a number by two others differ if they are larger than the divisors. -/
theorem Nat.div_ne_div_of_lt {a m n : Nat} (hm : 0 < m) (hlt : m < n) (hle : m ≤ a / n) :
    a / m ≠ a / n := by
  intro heq
  have hlow : a / n * n ≤ a := Nat.div_mul_le_self ..
  have hhigh : a < m * (a / n + 1) := heq ▸ Nat.lt_mul_div_succ a hm
  have hstep : a / n * (m + 1) ≤ a / n * n := Nat.mul_le_mul_left _ hlt
  linarith

namespace Midi

/-- Whether an event is a tempo. -/
def Event.isTempo : Event → Bool
  | .info (.tempo _) => true
  | _ => false

/-- Up to a thousand beats a minute, a tempo can be told from its microseconds. -/
theorem Tempo.eq_of_ofBeats_eq {m n : Nat} (hpos : 0 < n) (hle : n ≤ 1000)
    (h : ofBeats m = ofBeats n) : m = n := by
  have hquotient : ∀ k, (ofBeats k).toNat = minute / k := fun k =>
    UInt32.toNat_ofNat_of_lt' (Nat.lt_of_le_of_lt (Nat.div_le_self ..) (by decide))
  have hdiv : minute / m = minute / n := by rw [← hquotient, ← hquotient, h]
  have hlarge : 1000 ≤ minute / n := by
    rw [Nat.le_div_iff_mul_le hpos, minute]
    omega
  rcases Nat.lt_trichotomy m n with hlt | heq | hlt
  · rcases Nat.eq_zero_or_pos m with rfl | hm
    · rw [Nat.div_zero] at hdiv
      omega
    · exact absurd hdiv (Nat.div_ne_div_of_lt hm hlt (by omega))
  · exact heq
  · exact absurd hdiv.symm (Nat.div_ne_div_of_lt hpos hlt (by omega))

end Midi

-- ════════════════════════════════════════════════════════════════════════
-- The tempo of a header
-- ════════════════════════════════════════════════════════════════════════

namespace Header

variable {metadata : Option Table}

/-- The tempos among the events of a header. -/
def tempos (metadata : Option Table) : List TimedEvent :=
  (events metadata).filter (·.event.isTempo)

/-- The number in the `tempo` entry. -/
def beats? (metadata : Option Table) : Option Int64 :=
  ((metadata.getD []).get? (Bytes.ofString "tempo")).bind Metadata.number?

/-- The event that an entry gives, if it is there and of the right form. -/
def Entry.given (t : Table) (e : Entry) : Option TimedEvent :=
  ((t.get? (Bytes.ofString e.key)).bind e.event?).map (⟨.zero, .info ·⟩)

theorem events_eq : events metadata = known.filterMap (Entry.given (metadata.getD [])) := by
  rw [events, entries, List.filterMap_filterMap]
  congr 1
  funext e
  rw [Entry.find, Entry.given]
  cases Table.get? (Bytes.ofString e.key) (metadata.getD []) with
  | none => rfl
  | some v =>
    dsimp only [Option.map_some, Option.bind_some]
    cases e.event? v <;> rfl

/-- An entry that gives tempos only or none does so whatever its value. -/
theorem filter_given {key want : String} {event? : Metadata → Option Midi.MetaEvent} {tempo : Bool}
    (h : ∀ v m, event? v = some m → Midi.Event.isTempo (.info m) = tempo) (t : Table) :
    (Entry.given t ⟨key, event?, want⟩).filter (·.event.isTempo) =
      if tempo then Entry.given t ⟨key, event?, want⟩ else none := by
  cases hgiven : Entry.given t ⟨key, event?, want⟩ with
  | none => cases tempo <;> rfl
  | some x =>
    obtain ⟨m, hm, rfl⟩ := Option.map_eq_some_iff.1 hgiven
    obtain ⟨v, -, hv⟩ := Option.bind_eq_some_iff.1 hm
    rw [Option.filter_some, h v m hv]

theorem isTempo_text {kind : UInt8} (v : Metadata) (m : Midi.MetaEvent)
    (h : text? kind v = some m) : Midi.Event.isTempo (.info m) = false := by
  cases v with
  | text t =>
    obtain rfl := Option.some.inj h
    rfl
  | number | list | table => cases h

theorem isTempo_tempo (v : Metadata) (m : Midi.MetaEvent) (h : tempo? v = some m) :
    Midi.Event.isTempo (.info m) = true := by
  cases v with
  | number n =>
    rw [tempo?] at h
    split at h
    · obtain rfl := Option.some.inj h
      rfl
    · cases h
  | text | list | table => cases h

theorem tempo?_eq_none {n : Int64} (h : ¬(0 < n ∧ n ≤ 1000)) : tempo? (.number n) = none := if_neg h

theorem isTempo_timeSignature (v : Metadata) (m : Midi.MetaEvent)
    (h : timeSignature? v = some m) : Midi.Event.isTempo (.info m) = false := by
  rw [timeSignature?.eq_def] at h
  split at h
  · split at h
    · obtain rfl := Option.some.inj h
      rfl
    · cases h
  · cases h

/-- A header has the tempo that its entry gives, and no other. -/
theorem tempos_eq :
    tempos metadata =
      (((beats? metadata).bind fun n => tempo? (.number n)).map (⟨.zero, .info ·⟩)).toList := by
  have hgiven : ∀ want, Entry.given (metadata.getD []) ⟨"tempo", tempo?, want⟩ =
      ((beats? metadata).bind fun n => tempo? (.number n)).map (⟨.zero, .info ·⟩) := by
    intro want
    rw [Entry.given, beats?]
    cases Table.get? (Bytes.ofString "tempo") (metadata.getD []) with
    | none => rfl
    | some v => cases v <;> rfl
  rw [tempos, events_eq, List.filter_filterMap, known]
  simp only [List.filterMap_cons, filter_given isTempo_text, filter_given isTempo_tempo,
    filter_given isTempo_timeSignature, Bool.false_eq_true, ↓reduceIte]
  rw [hgiven]
  cases Option.map _ _ <;> rfl

end Header

-- ════════════════════════════════════════════════════════════════════════
-- The tempo of a feed
-- ════════════════════════════════════════════════════════════════════════

/-- No tempo is the default everywhere. -/
theorem Environment.exists_defaultBpm_ne (x : Float) : ∃ env : Environment, env.defaultBpm ≠ x := by
  have hne : Environment.defaultBpm {} ≠ Environment.defaultBpm { bpm := "60" } := by decide +kernel
  by_contra h
  push Not at h
  exact hne ((h _).trans (h _).symm)

namespace Compilation

variable {c : Compilation}

/-- The feed takes its tempo from the `tempo` entry, which is a number: it does not depend on the
environment. -/
def TakesTempo (c : Compilation) (n : Int64) : Prop :=
  Header.beats? c.tree.metadata = some n ∧ ∀ env, c.bpm env = Binary64.ofInt64 n

/-- Feed and file go by one tempo. -/
structure TemposAgree (c : Compilation) : Prop where
  /-- The feed takes the entry exactly if the file has a tempo. -/
  taken_iff : (∃ n, c.TakesTempo n) ↔ Header.tempos c.tree.metadata ≠ []
  /-- The file then has one tempo, at the beginning, of the same number of beats. -/
  same : ∀ n, c.TakesTempo n → ∃ t, Header.tempos c.tree.metadata = [⟨.zero, .info (.tempo t)⟩] ∧
    ∀ beats, Midi.Tempo.ofBeats beats = t ↔ (beats : ℤ) = n.toInt
  /-- Otherwise the feed has the default and the file no tempo. -/
  default : (¬∃ n, c.TakesTempo n) →
    (∀ env, c.bpm env = env.defaultBpm) ∧ Header.tempos c.tree.metadata = []

theorem bpm_eq (env : Environment) :
    c.bpm env = match Header.beats? c.tree.metadata with
      | some n => if 0 < n then Binary64.ofInt64 n else env.defaultBpm
      | none => env.defaultBpm := by
  rw [bpm, Header.beats?]
  cases Table.get? (Bytes.ofString "tempo") (c.tree.metadata.getD []) with
  | none => rfl
  | some v => cases v <;> rfl

/-- The feed takes a number above zero. -/
theorem bpm_of_pos {n : Int64} (h : Header.beats? c.tree.metadata = some n)
    (hpos : 0 < n) (env : Environment) : c.bpm env = Binary64.ofInt64 n := by
  rw [bpm_eq, h]
  exact if_pos hpos

theorem bpm_of_not_pos
    (h : ∀ n, Header.beats? c.tree.metadata = some n → ¬0 < n) (env : Environment) :
    c.bpm env = env.defaultBpm := by
  rw [bpm_eq]
  cases hbeats : Header.beats? c.tree.metadata with
  | none => rfl
  | some n => exact if_neg (h n hbeats)

theorem takesTempo_iff {n : Int64} :
    c.TakesTempo n ↔ Header.beats? c.tree.metadata = some n ∧ 0 < n := by
  constructor
  · rintro ⟨hn, hbpm⟩
    refine ⟨hn, ?_⟩
    by_contra hpos
    obtain ⟨env, henv⟩ := Environment.exists_defaultBpm_ne (Binary64.ofInt64 n)
    refine henv ((bpm_of_not_pos (c := c) ?_ env).symm.trans (hbpm env))
    intro m hm
    obtain rfl : n = m := by simpa [hn] using hm
    exact hpos
  · rintro ⟨hn, hpos⟩
    exact ⟨hn, bpm_of_pos hn hpos⟩

/-- A file has a tempo only where the feed takes its own from the entry. -/
theorem tempos_eq_nil (h : ¬∃ n, c.TakesTempo n) : Header.tempos c.tree.metadata = [] := by
  rw [Header.tempos_eq]
  cases hbeats : Header.beats? c.tree.metadata with
  | none => rfl
  | some n =>
    have hpos : ¬0 < n := fun hpos => h ⟨n, takesTempo_iff.2 ⟨hbeats, hpos⟩⟩
    rw [Option.bind_some, Header.tempo?_eq_none fun hn => hpos hn.1]
    rfl

/-- Up to a thousand beats a minute, a file has the tempo that the feed takes from the entry. -/
theorem TakesTempo.tempos_eq {n : Int64} (h : c.TakesTempo n) (hle : n ≤ 1000) :
    Header.tempos c.tree.metadata =
      [⟨.zero, .info (.tempo (Midi.Tempo.ofBeats n.toInt.toNat))⟩] := by
  obtain ⟨hbeats, hpos⟩ := takesTempo_iff.1 h
  rw [Header.tempos_eq, hbeats, Option.bind_some, Header.tempo?, if_pos ⟨hpos, hle⟩]
  rfl

/-- Feed and file go by one tempo exactly if the entry asks for no more than a thousand beats a
minute. -/
theorem tempos_agree_iff (c : Compilation) :
    c.TemposAgree ↔
      ∀ n, Header.beats? c.tree.metadata = some n → n ≤ 1000 := by
  constructor
  · intro h n hn
    by_contra hlarge
    have hpos : 0 < n := Int64.lt_trans (by decide) (Int64.not_le.1 hlarge)
    have hnone : Header.tempos c.tree.metadata = [] := by
      rw [Header.tempos_eq, hn, Option.bind_some, Header.tempo?_eq_none fun hle => hlarge hle.2]
      rfl
    exact h.taken_iff.1 ⟨n, takesTempo_iff.2 ⟨hn, hpos⟩⟩ hnone
  · intro h
    refine ⟨⟨fun ⟨n, hn⟩ => ?_, fun hne => ?_⟩, fun n hn => ⟨_, hn.tempos_eq (h n hn.1), ?_⟩,
      fun hnone => ⟨bpm_of_not_pos fun n hn hpos => hnone ⟨n, takesTempo_iff.2 ⟨hn, hpos⟩⟩,
        tempos_eq_nil hnone⟩⟩
    · rw [hn.tempos_eq (h n hn.1)]
      exact List.cons_ne_nil _ _
    · by_contra hnone
      exact hne (tempos_eq_nil hnone)
    · have hpos := Int64.lt_iff_toInt_lt.1 (takesTempo_iff.1 hn).2
      have hle := Int64.le_iff_toInt_le.1 (h n hn.1)
      change 0 < n.toInt at hpos
      change n.toInt ≤ 1000 at hle
      intro beats
      constructor
      · intro hbeats
        obtain rfl := Midi.Tempo.eq_of_ofBeats_eq (by omega) (by omega) hbeats
        omega
      · intro hbeats
        rw [← hbeats, Int.toNat_natCast]

/-- A note with a tempo of a thousand and one beats a minute. -/
def thousandOne : Bytes := Bytes.ofString "0, \x7b'tempo' = 1001\x7d"

/-- The feed plays at a thousand and one beats a minute and the file has no tempo. -/
theorem not_tempos_agree_thousandOne :
    (compile thousandOne).error? = none ∧ (compile thousandOne).TakesTempo 1001 ∧
      Header.tempos (compile thousandOne).tree.metadata = [] ∧
      ¬(compile thousandOne).TemposAgree := by
  have hbeats : Header.beats? (compile thousandOne).tree.metadata = some 1001 := by
    decide +kernel
  have hnone : Header.tempos (compile thousandOne).tree.metadata = [] := by
    rw [Header.tempos_eq, hbeats]
    rfl
  have htakes : (compile thousandOne).TakesTempo 1001 :=
    takesTempo_iff.2 ⟨hbeats, by decide⟩
  exact ⟨by decide +kernel, htakes, hnone, fun h => h.taken_iff.1 ⟨1001, htakes⟩ hnone⟩

end Compilation

end DegreeScore
