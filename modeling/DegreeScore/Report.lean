import DegreeScore.Chord
import DegreeScore.Word

/-!
# Reports

A readable listing of a MIDI file: a line about the file, its tracks event by event with the tick of
each, and on demand the chords.
-/

namespace DegreeScore.Report

/-- A number at the right end of so many columns. -/
def right (width n : Nat) : String := Text.Numeral.alignRight width ' ' (toString n)

/-- The line about the file. -/
def heading (f : Midi.File) : String :=
  "format " ++ toString f.format.toNat ++ ", " ++ toString f.tracks.length ++ " tracks, " ++
    f.describeTiming ++ ", " ++
    toString (Word.total (f.tracks.map fun t => Int64.ofNat t.length)).toNat ++ " events\n"

/-- The line of an event at a tick. -/
def eventLine (tick : UInt32) (e : Midi.TrackEvent) : String :=
  "  " ++ right 8 tick.toNat ++ "  +" ++ Text.Numeral.alignLeft 6 (toString e.delta.toNat) ++ " " ++
    (match e.event with
      | some event => event.describe
      | none => Midi.absent) ++ "\n"

/-- Adds the line of the next event of a track. -/
def addEvent (acc : UInt32 × String) (e : Midi.TrackEvent) : UInt32 × String :=
  let now := acc.1 + e.delta
  (now, acc.2 ++ eventLine now e)

/-- The lines of a track. -/
def trackLines (index : Nat) (t : Midi.Track) : String :=
  (t.foldl addEvent (0, "track " ++ toString index ++ ":\n")).2

/-- The line of a chord; a star marks one in which a note starts. -/
def chordLine (c : Chord) : String :=
  "  " ++ right 8 c.tick.toNat ++ (if c.attacked then " * " else "   ") ++ Chord.keyText c.keys ++
    " channels [" ++ " ".intercalate (c.channels.map fun ch => toString ch.toNat) ++ "]\n"

/-- The report on a file, with its chords if `chords` is set. -/
def ofFile (f : Midi.File) (chords : Bool) : String :=
  heading f ++ String.join (f.tracks.zipIdx.map fun p => trackLines p.2 p.1) ++
    (if chords then "chords:\n" ++ String.join (f.chords.map chordLine) else "")

end DegreeScore.Report
