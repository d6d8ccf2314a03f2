import DegreeScore.Plan.Performance

/-!
# Headers

Four entries of the metadata block become meta events at the start of the file: `title`,
`copyright`, `tempo` in beats a minute and `time` as a pair of beats and a power of two. An entry of
the wrong form is ignored with a warning, and other entries are not looked at.
-/

namespace DegreeScore

/-- An entry that is ignored, with what was wanted. -/
structure IgnoredEntry where
  key : String
  value : Metadata
  want : String
deriving Repr

/-- The warning about an ignored entry. -/
def IgnoredEntry.warning (e : IgnoredEntry) : Bytes :=
  Bytes.ofString ("ignoring " ++ e.key ++ " metadata ") ++ e.value.shown ++
    Bytes.ofString (": " ++ e.want)

namespace Header

/-- A text of some kind. -/
def text? (kind : UInt8) : Metadata → Option Midi.MetaEvent
  | .text t => some (.text kind t)
  | _ => none

/-- A tempo from 1 to 1000 beats a minute. -/
def tempo? : Metadata → Option Midi.MetaEvent
  | .number n =>
    if 0 < n ∧ n ≤ 1000 then some (.tempo (Midi.Tempo.ofBeats n.toInt.toNat)) else none
  | _ => none

/-- A time signature of at most 255 beats, over a power of two up to 128. -/
def timeSignature? : Metadata → Option Midi.MetaEvent
  | .list [.number num, .number den] =>
    if 1 ≤ num ∧ num ≤ 255 ∧ 1 ≤ den ∧ den ≤ 128 ∧ den &&& (den - 1) = 0 then
      some (.timeSignature (UInt8.ofNat num.toInt.toNat) (UInt8.ofNat den.toInt.toNat.log2) 24 8)
    else none
  | _ => none

/-- An entry that is looked at: its key, its event, and what is wanted of it. -/
structure Entry where
  key : String
  event? : Metadata → Option Midi.MetaEvent
  want : String

/-- The entries that are looked at, in the order of their events. -/
def known : List Entry :=
  [⟨"title", text? Midi.MetaEvent.trackName, "not text"⟩,
    ⟨"copyright", text? Midi.MetaEvent.copyright, "not text"⟩,
    ⟨"tempo", tempo?, "want beats per minute"⟩,
    ⟨"time", timeSignature?, "want [beats, power of two]"⟩]

/-- What an entry says in a table, if it is there. -/
def Entry.find (t : Table) (e : Entry) : Option (Except IgnoredEntry Midi.MetaEvent) :=
  (t.get? (Bytes.ofString e.key)).map fun v =>
    match e.event? v with
    | some event => .ok event
    | none => .error ⟨e.key, v, e.want⟩

/-- What the known entries say. -/
def entries (metadata : Option Table) : List (Except IgnoredEntry Midi.MetaEvent) :=
  known.filterMap (Entry.find (metadata.getD []))

/-- The header events, all at time zero. -/
def events (metadata : Option Table) : List TimedEvent :=
  (entries metadata).filterMap fun
    | .ok e => some ⟨.zero, .info e⟩
    | .error _ => none

/-- The warnings about ignored entries. -/
def warnings (metadata : Option Table) : List Bytes :=
  (entries metadata).filterMap fun
    | .ok _ => none
    | .error e => some e.warning

end Header

end DegreeScore
