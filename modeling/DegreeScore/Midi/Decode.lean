import DegreeScore.Midi.File
import DegreeScore.Midi.Reader

/-!
# Reading MIDI files

`File.decode` reads a whole file. Messages may leave out a status byte that repeats the one before
it. System-exclusive data and meta events of unknown types are skipped, and the time they took is
added to the next event that is kept. Bytes after the last track are ignored.
-/

namespace DegreeScore.Midi

namespace Reader

/-- A byte with a clear high bit. -/
def dataByte : Reader UInt8 := do
  let at_ ← offset
  let b ← byte
  if b &&& 0x80 ≠ 0 then failAt at_ (.notData b) else return b

/-- The message that the high half of a status byte announces. -/
def channelMessage (status : UInt8) : Reader ChannelMessage := do
  match (status >>> 4).toNat with
  | 8 => return .noteOff (← dataByte) (← dataByte)
  | 9 => return .noteOn (← dataByte) (← dataByte)
  | 10 => return .polyPressure (← dataByte) (← dataByte)
  | 11 => return .controller (← dataByte) (← dataByte)
  | 12 => return .programChange (← dataByte)
  | 13 => return .channelPressure (← dataByte)
  | _ => do
    let low ← dataByte
    let high ← dataByte
    return .pitchBend (high.toUInt16 <<< 7 ||| low.toUInt16)

/-- A message to the channel in the low half of the status byte. -/
def channelEvent (status : UInt8) : Reader Event :=
  return .channel (status &&& 0x0f) (← channelMessage status)

/-- What a meta event of type `kind` says whose length stands at `lengthAt`; `none` for a type that
is not known. -/
def metaEvent (kind : UInt8) (lengthAt : Nat) (data : Bytes) : Reader (Option MetaEvent) :=
  let wrongLength (expected : Nat) : Reader (Option MetaEvent) :=
    failAt lengthAt (.metaLength kind data.length expected)
  if kind = 0x00 then
    match data with
    | [a, b] => return some (.sequenceNumber (a.toUInt16 <<< 8 ||| b.toUInt16))
    | _ => wrongLength 2
  else if MetaEvent.isTextKind kind then return some (.text kind data)
  else if kind = 0x20 then
    match data with
    | [c] => return some (.channelPrefix c)
    | _ => wrongLength 1
  else if kind = 0x2f then
    match data with
    | [] => return some .endOfTrack
    | _ => wrongLength 0
  else if kind = 0x51 then
    match data with
    | [_, _, _] => return some (.tempo (word data))
    | _ => wrongLength 3
  else if kind = 0x54 then
    match data with
    | [h, m, s, f, d] => return some (.smpteOffset h m s f d)
    | _ => wrongLength 5
  else if kind = 0x58 then
    match data with
    | [n, p, c, t] => return some (.timeSignature n p c t)
    | _ => wrongLength 4
  else if kind = 0x59 then
    match data with
    | [s, mode] =>
      let sharps := s.toInt8
      if sharps < -7 ∨ 7 < sharps ∨ 1 < mode then
        failAt (lengthAt + 1) (.badKeySignature sharps mode)
      else return some (.keySignature sharps (mode = 1))
    | _ => wrongLength 2
  else if kind = 0x7f then return some (.sequencerSpecific data)
  else return none

/-- The event after a delta time, or `none` for one that is skipped, and the status byte that the
next message may leave out, zero being none. -/
def event (running : UInt8) : Reader (Option Event × UInt8) := do
  let start ← get
  let status ← byte
  if status = 0xff then
    let kind ← byte
    let lengthAt ← offset
    let data ← prefixed
    let e ← metaEvent kind lengthAt data
    return (e.map Event.info, 0)
  else if status = 0xf0 ∨ status = 0xf7 then
    let _ ← prefixed
    return (none, 0)
  else if 0xf0 ≤ status then failAt start.offset (.systemMessage status)
  else if status < 0x80 then
    if running = 0 then failAt start.offset (.noRunningStatus status)
    else
      set start
      return (some (← channelEvent running), running)
  else return (some (← channelEvent status), status)

/-- The events of a track body up to its end, after those in `kept`, which are in reverse. `carry`
is the time of the events skipped since the last one kept. An event takes at least one byte, so
`fuel` need not exceed the length of the body. -/
def trackEvents : Nat → UInt8 → UInt32 → List TrackEvent → Reader Track
  | 0, _, _, kept => return kept.reverse
  | fuel + 1, running, carry, kept => do
    if (← get).rest.isEmpty then return kept.reverse
    else
      let delta ← quantity
      let (e, running) ← event running
      match e with
      | none => trackEvents fuel running (carry + delta) kept
      | some e => trackEvents fuel running 0 (⟨carry + delta, some e⟩ :: kept)

/-- A track chunk. Its events have to end where the chunk ends. -/
def track : Reader Track := do
  expectAll Track.tag
  let length ← fixed 4
  let c ← get
  let body := c.rest.take length.toNat
  if body.length < length.toNat then failAt (c.offset - 4) (.trackPastEnd length)
  else
    set (Cursor.mk c.offset body)
    let events ← trackEvents body.length 0 0 []
    set (Cursor.mk (c.offset + length.toNat) (c.rest.drop length.toNat))
    return events

/-- So many tracks, after those in `done`, which are in reverse. -/
def tracks : Nat → List Track → Reader (List Track)
  | 0, done => return done.reverse
  | count + 1, done => do
    let t ← track
    tracks count (t :: done)

/-- A file. -/
def file : Reader File := do
  expectAll File.tag
  expectAll File.headerLength
  let format ← fixed 2
  if 2 < format then failAt ((← offset) - 2) (.unsupportedFormat format)
  let count ← fixed 2
  let division ← fixed 2
  let tracks ← tracks count.toNat []
  return { format := format.toUInt16, timing := some (.ofDivision division.toUInt16), tracks }

end Reader

/-- Reads a file from the front of the bytes. -/
def File.decode (bytes : Bytes) : Except ReadError File := (Reader.file.runOn bytes).1

end DegreeScore.Midi
