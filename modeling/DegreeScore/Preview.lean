import DegreeScore.Midi.File
import DegreeScore.Midi.Sounding

/-!
# Previews

A preview starts a file at a later tick and keeps a limited number of notes on each track. Setup
events from before the start are kept at time zero; notes from before it are dropped. A release is
kept when its attack is.
-/

namespace DegreeScore

/-- What to keep of each track. -/
structure PreviewLimits where
  /-- The tick at which the preview starts. -/
  start : UInt32
  /-- The most notes to keep; zero or less means all. -/
  notes : Int
deriving Repr, DecidableEq

/-- A track of a preview as far as it has been made. -/
structure Clip where
  /-- The tick in the file. -/
  now : UInt32 := 0
  /-- The tick of the last event kept, counted from the start. -/
  last : UInt32 := 0
  /-- The number of attacks kept. -/
  attacks : Nat := 0
  /-- The notes kept whose releases are to come. -/
  sounding : Midi.Sounding := {}
  kept : Array Midi.TrackEvent := #[]
deriving Repr

namespace Clip

/-- Keeps an event at the present tick; ticks before the start count as the start. -/
def keep (limits : PreviewLimits) (c : Clip) (e : Option Midi.Event) : Clip :=
  let tick := if limits.start < c.now then c.now - limits.start else 0
  { c with kept := c.kept.push ⟨tick - c.last, e⟩, last := tick }

/-- Whether no more notes may be kept. -/
def isFull (limits : PreviewLimits) (c : Clip) : Bool :=
  0 < limits.notes && limits.notes ≤ c.attacks

/-- Takes the next event of a track. -/
def step (limits : PreviewLimits) (c : Clip) (e : Midi.TrackEvent) : Clip :=
  let c := { c with now := c.now + e.delta }
  match e.event with
  | some (.channel ch (.noteOn key _)) =>
    if c.now < limits.start || c.isFull limits then c
    else
      { c with
        attacks := c.attacks + 1
        sounding := c.sounding.start ch key }.keep limits e.event
  | some (.channel ch (.noteOff key _)) =>
    if c.sounding.contains ch key then
      { c with sounding := c.sounding.stop ch key }.keep limits e.event
    else c
  | _ => if c.isFull limits && limits.start ≤ c.now then c else c.keep limits e.event

end Clip

/-- Whether an event ends its track. -/
def Midi.TrackEvent.isEnding (e : Midi.TrackEvent) : Bool := e.event = some (.info .endOfTrack)

/-- The preview of a track: its events up to the first that ends it, as far as they are kept. -/
def Midi.Track.preview (limits : PreviewLimits) (t : Midi.Track) : Midi.Track :=
  let body := t.takeWhile fun e => !e.isEnding
  (body.foldl (Clip.step limits) {}).kept.toList ++ [.ending 0]

/-- The preview of a file. -/
def Midi.File.preview (limits : PreviewLimits) (f : Midi.File) : Midi.File :=
  { f with tracks := f.tracks.map (Midi.Track.preview limits) }

end DegreeScore
