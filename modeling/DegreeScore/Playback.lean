import DegreeScore.Compilation
import DegreeScore.Text.Hex

/-!
# Playback

The messages of a performance as a player gets them: raw bytes, due so many milliseconds after the
start. Fields that are out of range are moved to the nearest value in range.
-/

namespace DegreeScore

/-- A message as a player gets it. -/
structure PlaybackMessage where
  /-- Milliseconds after the start. -/
  millis : Float
  bytes : Bytes
  text : String

namespace Playback

/-- Milliseconds in a time at so many quarter notes a minute. -/
def millis (t : Ratio) (bpm : Float) : Float := t.toFloat * 4 * 60000 / bpm

/-- The nearest channel. -/
def channel (c : UInt8) : UInt8 := if 15 < c then 15 else c

/-- The nearest data byte. -/
def data (b : UInt8) : UInt8 := if 127 < b then 127 else b

/-- A bend counted from the centre. The difference wraps round in sixteen bits before it is moved
into range. -/
def bend (value : UInt16) : Int :=
  let relative := (value - 0x2000).toInt16.toInt
  if relative < -8192 then -8192 else if 8191 < relative then 8191 else relative

/-- The bytes and the text of a message. -/
def render (c : UInt8) (m : Midi.ChannelMessage) : Bytes × String :=
  let c := channel c
  let name (what : String) : String := what ++ " channel: " ++ toString c.toNat
  let part (what : String) (b : UInt8) : String := " " ++ what ++ ": " ++ toString b.toNat
  let status := m.status c
  match m with
  | .noteOn k v =>
    ([status, data k, data v], name "NoteOn" ++ part "key" (data k) ++ part "velocity" (data v))
  | .noteOff k v =>
    ([status, data k, data v],
      name "NoteOff" ++ part "key" (data k) ++ (if 0 < v then part "velocity" (data v) else ""))
  | .programChange p => ([status, data p], name "ProgramChange" ++ part "program" (data p))
  | .controller n v =>
    ([status, data n, data v],
      name "ControlChange" ++ part "controller" (data n) ++ part "value" (data v))
  | .polyPressure k p =>
    ([status, data k, data p],
      name "PolyAfterTouch" ++ part "key" (data k) ++ part "pressure" (data p))
  | .channelPressure p => ([status, data p], name "AfterTouch" ++ part "pressure" (data p))
  | .pitchBend v =>
    let absolute := (bend v + 0x2000).toNat
    ([status, UInt8.ofNat (absolute % 128), UInt8.ofNat (absolute / 128)],
      name "PitchBend" ++ " pitch: " ++ toString (bend v) ++ " (" ++ toString absolute ++ ")")

/-- The message of an event, unless it is a meta event. -/
def message? (bpm : Float) (e : TimedEvent) : Option PlaybackMessage :=
  match e.event with
  | .channel c m =>
    let (bytes, text) := render c m
    some { millis := millis e.time bpm, bytes, text }
  | .info _ => none

/-- The messages of events in order. A tempo that is not above zero stands for the default. -/
def messages (env : Environment) (events : List TimedEvent) (bpm : Float) : List PlaybackMessage :=
  events.filterMap (message? (if bpm ≤ 0 then env.defaultBpm else bpm))

end Playback

/-- One line about a message: its time, its bytes and its text. -/
def PlaybackMessage.describe (m : PlaybackMessage) : String :=
  Text.Numeral.alignRight 10 ' ' (Decimal.fixed 2 m.millis) ++ "ms " ++
    Text.Hex.spaced .upper m.bytes ++ " " ++ m.text

end DegreeScore
