import DegreeScore.Midi.Event

/-!
# Standard MIDI files

A file is a header, which names the format and the timing, and a list of tracks. `File.encode` gives
its bytes: every message carries its own status byte.
-/

namespace DegreeScore.Midi

/-- What a tick is. -/
inductive Timing
  /-- So many ticks a quarter note. -/
  | metric (ticks : UInt16)
  /-- So many frames a second and ticks a frame. -/
  | smpte (framesPerSecond subframes : UInt8)
deriving Repr, DecidableEq

/-- An event and the ticks since the one before it. A place may be left without an event; such a
track has no byte form. -/
structure TrackEvent where
  delta : UInt32
  event : Option Event
deriving Repr, DecidableEq

/-- The events of one track in order. -/
abbrev Track := List TrackEvent

/-- The event that closes a track, so many ticks after the one before it. -/
def TrackEvent.ending (delta : UInt32) : TrackEvent := ⟨delta, some (.info .endOfTrack)⟩

/-- A file. One without a timing has no byte form. -/
structure File where
  format : UInt16
  timing : Option Timing
  tracks : List Track
deriving Repr, DecidableEq

/-- How a missing value is shown. -/
def absent : String := "%!s(<nil>)"

/-- Why a track has no byte form; the first event at fault is named. -/
inductive TrackFault
  | delta (index : Nat) (ticks : UInt32)
  | missing (index : Nat)
  | event (index : Nat) (fault : EventFault)
deriving Repr, DecidableEq

/-- The text shown for a track without a byte form. -/
def TrackFault.message : TrackFault → String
  | .delta i n => "event " ++ toString i ++ ": bad delta time: " ++ Quantity.tooLarge n
  | .missing i => "event " ++ toString i ++ ": missing event"
  | .event i fault => "event " ++ toString i ++ ": " ++ fault.message

/-- Why a file has no byte form. -/
inductive FileFault
  | format (n : UInt16)
  | trackCount (n : Nat)
  | missingTiming
  | timecodeBit (ticks : UInt16)
  | framesPerSecond (n : UInt8)
  | track (index : Nat) (fault : TrackFault)
deriving Repr, DecidableEq

/-- The text shown for a file without a byte form. -/
def FileFault.message : FileFault → String
  | .format n => "unsupported format " ++ toString n.toNat
  | .trackCount n => "too many tracks (" ++ toString n ++ "), limited to 65535"
  | .missingTiming => "missing timing"
  | .timecodeBit n => "ticks per quarter note " ++ toString n.toNat ++ " sets the timecode bit"
  | .framesPerSecond n => "bad frames per second: " ++ toString n.toNat
  | .track i fault => "track " ++ toString i ++ ": " ++ fault.message

namespace Timing

/-- The division word of a header. Its high bit tells a frame rate, stored as a negative byte, from
a number of ticks. -/
def division : Timing → Except FileFault UInt16
  | .metric n => if n &&& 0x8000 ≠ 0 then .error (.timecodeBit n) else .ok n
  | .smpte fps sub =>
    if fps = 0 ∨ 0x80 < fps then .error (.framesPerSecond fps)
    else .ok ((-fps).toUInt16 <<< 8 ||| sub.toUInt16)

/-- The timing that a division word stands for. -/
def ofDivision (d : UInt16) : Timing :=
  if d &&& 0x8000 = 0 then .metric d else .smpte (-(d >>> 8).toUInt8) d.toUInt8

/-- The timing in words. -/
def describe : Timing → String
  | .metric n => toString n.toNat ++ " ticks per quarter note"
  | .smpte fps sub =>
    toString fps.toNat ++ " frames per second, " ++ toString sub.toNat ++ " ticks per frame"

end Timing

namespace TrackEvent

/-- The bytes of the event at `index` of a track: its delta time and the event itself. -/
def encode (index : Nat) (e : TrackEvent) : Except TrackFault Bytes :=
  match Quantity.encode? e.delta with
  | none => .error (.delta index e.delta)
  | some delta =>
    match e.event with
    | none => .error (.missing index)
    | some event =>
      match event.encode with
      | .error fault => .error (.event index fault)
      | .ok body => .ok (delta ++ body)

end TrackEvent

namespace Track

/-- The tag before a track. -/
def tag : Bytes := [0x4d, 0x54, 0x72, 0x6b]

/-- The events of a track as bytes. -/
def body (t : Track) : Except TrackFault Bytes :=
  (List.mapM (fun p => TrackEvent.encode p.2 p.1) t.zipIdx).map List.flatten

/-- A track chunk: tag, length and body. -/
def encode (t : Track) : Except TrackFault Bytes :=
  (body t).map fun b => tag ++ fixedWidth 4 (UInt32.ofNat b.length) ++ b

end Track

namespace File

/-- The tag before the header. -/
def tag : Bytes := [0x4d, 0x54, 0x68, 0x64]

/-- The length of the header: three words of two bytes. -/
def headerLength : Bytes := [0, 0, 0, 6]

/-- The header chunk. -/
def header (format : UInt16) (tracks : Nat) (division : UInt16) : Bytes :=
  tag ++ headerLength ++ fixedWidth 2 format.toUInt32 ++ fixedWidth 2 (UInt32.ofNat tracks) ++
    fixedWidth 2 division.toUInt32

/-- The chunk of the track at `index`. -/
def chunk (index : Nat) (t : Track) : Except FileFault Bytes :=
  match Track.encode t with
  | .error fault => .error (.track index fault)
  | .ok bytes => .ok bytes

/-- The track chunks in order. -/
def chunks (tracks : List Track) : Except FileFault Bytes :=
  (List.mapM (fun p => chunk p.2 p.1) tracks.zipIdx).map List.flatten

/-- The bytes of a file. -/
def encode (f : File) : Except FileFault Bytes :=
  if 2 < f.format then .error (.format f.format)
  else if 0xffff < f.tracks.length then .error (.trackCount f.tracks.length)
  else match f.timing with
    | none => .error .missingTiming
    | some timing =>
      match timing.division with
      | .error fault => .error fault
      | .ok division =>
        (chunks f.tracks).map (header f.format f.tracks.length division ++ ·)

/-- The timing of a file in words. -/
def describeTiming (f : File) : String :=
  match f.timing with
  | some t => t.describe
  | none => absent

/-- One line about a file. -/
def describe (f : File) : String :=
  "format " ++ toString f.format.toNat ++ ", " ++ toString f.tracks.length ++ " track(s), " ++
    f.describeTiming

end File

end DegreeScore.Midi
