import DegreeScore.Midi.File
import DegreeScore.Midi.Sounding

/-!
# Chords

What sounds in a file after each tick at which a note starts or stops. Releases come before attacks
of the same tick; a note-on without velocity is a release.
-/

namespace DegreeScore

/-- The keys that sound from a tick on until the next start or stop of a note. -/
structure Chord where
  tick : UInt32
  /-- In ascending order. -/
  keys : List UInt8
  /-- In ascending order. -/
  channels : List UInt8
  /-- Whether a note starts at the tick. -/
  attacked : Bool
deriving Repr, DecidableEq

namespace Chord

/-- The keys in ascending order with hyphens between them. -/
def keyText (keys : List UInt8) : String :=
  "-".intercalate ((keys.mergeSort fun a b => a ≤ b).map fun k => toString k.toNat)

end Chord

/-- The start or stop of a note. -/
structure NoteChange where
  tick : UInt32
  attack : Bool
  channel : UInt8
  key : UInt8
deriving Repr, DecidableEq

namespace NoteChange

/-- The change that an event at a tick makes, if any. -/
def ofEvent? (tick : UInt32) : Option Midi.Event → Option NoteChange
  | some (.channel c (.noteOn k v)) => some ⟨tick, 0 < v, c, k⟩
  | some (.channel c (.noteOff k _)) => some ⟨tick, false, c, k⟩
  | _ => none

/-- Adds the changes of an event at the end of a track read so far, which lasts `acc.1` ticks. -/
def collect (acc : UInt32 × Array NoteChange) (e : Midi.TrackEvent) : UInt32 × Array NoteChange :=
  let now := acc.1 + e.delta
  (now, match ofEvent? now e.event with
    | some change => acc.2.push change
    | none => acc.2)

/-- The changes of a track. -/
def ofTrack (t : Midi.Track) : List NoteChange := (t.foldl collect (0, #[])).2.toList

/-- Whether a change may stay before another: it is not later, nor an attack before a release. -/
def notAfter (a b : NoteChange) : Bool :=
  a.tick < b.tick || (a.tick = b.tick && (!a.attack || b.attack))

/-- The changes of all tracks in order. -/
def ofFile (f : Midi.File) : List NoteChange := (f.tracks.flatMap ofTrack).mergeSort notAfter

end NoteChange

namespace Chord

/-- What sounds after a change. -/
def change (s : Midi.Sounding) (c : NoteChange) : Midi.Sounding :=
  if c.attack then s.start c.channel c.key else s.stop c.channel c.key

/-- Goes on by the changes of one tick and adds the chord they lead to, unless it is silence. -/
def advance (acc : Midi.Sounding × Array Chord) (changes : List NoteChange) :
    Midi.Sounding × Array Chord :=
  match changes with
  | [] => acc
  | c :: _ =>
    let s := changes.foldl change acc.1
    if s.isSilent then (s, acc.2)
    else (s, acc.2.push ⟨c.tick, s.keys, s.channels, changes.any fun c => c.attack⟩)

end Chord

/-- The chords of a file in order of time. -/
def Midi.File.chords (f : Midi.File) : List Chord :=
  let byTick := (NoteChange.ofFile f).splitBy fun a b => a.tick = b.tick
  (byTick.foldl Chord.advance ({}, #[])).2.toList

end DegreeScore
