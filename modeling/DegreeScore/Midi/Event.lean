import DegreeScore.Decimal.Fixed
import DegreeScore.Midi.Quantity
import DegreeScore.Text.Quoted

/-!
# MIDI events

A track holds messages to one of sixteen channels and meta events about the piece. Each has a
one-line description and a byte form; a byte form fails where a field does not fit its place.
Channel and data bytes are cut down to their four and seven bits without complaint.
-/

namespace DegreeScore.Midi

/-- A message to a channel. -/
inductive ChannelMessage
  | noteOff (key velocity : UInt8)
  | noteOn (key velocity : UInt8)
  | polyPressure (key pressure : UInt8)
  | controller (number value : UInt8)
  | programChange (program : UInt8)
  | channelPressure (pressure : UInt8)
  /-- A bend of fourteen bits, centred at `0x2000`. -/
  | pitchBend (value : UInt16)
deriving Repr, DecidableEq

/-- An event that is not sent to an instrument. -/
inductive MetaEvent
  | sequenceNumber (number : UInt16)
  /-- A text of one of the kinds `0x01` to `0x0f`. -/
  | text (kind : UInt8) (contents : Bytes)
  | channelPrefix (channel : UInt8)
  | endOfTrack
  /-- The length of a quarter note in microseconds. -/
  | tempo (microseconds : UInt32)
  | smpteOffset (hours minutes seconds frames hundredths : UInt8)
  /-- The denominator is given as a power of two. -/
  | timeSignature (numerator power clocks thirtySeconds : UInt8)
  /-- Sharps count up and flats down. -/
  | keySignature (sharps : Int8) (minor : Bool)
  | sequencerSpecific (data : Bytes)
deriving Repr, DecidableEq

/-- An event of a track without its time. -/
inductive Event
  | channel (channel : UInt8) (message : ChannelMessage)
  | info (event : MetaEvent)
deriving Repr, DecidableEq

/-- The kinds of text that the program writes. -/
def MetaEvent.plainText : UInt8 := 0x01

@[inherit_doc MetaEvent.plainText] def MetaEvent.copyright : UInt8 := 0x02

@[inherit_doc MetaEvent.plainText] def MetaEvent.trackName : UInt8 := 0x03

namespace Tempo

/-- Microseconds in a minute. -/
def minute : Nat := 60000000

/-- The whole number of microseconds of a quarter note at a whole number of beats a minute. -/
def ofBeats (bpm : Nat) : UInt32 := UInt32.ofNat (minute / bpm)

/-- The low word of a double cut down to a whole number. What has no 64-bit whole part counts as the
least 64-bit number, whose low word is zero. -/
def lowWord (x : Float) : UInt32 :=
  match Binary64.ofFloat x with
  | .finite negative m q =>
    let whole : Nat := if 0 ≤ q then m <<< q.toNat else m >>> (-q).toNat
    if 0x8000000000000000 ≤ whole then 0
    else if negative then -UInt32.ofNat whole else UInt32.ofNat whole
  | _ => 0

/-- Microseconds of a quarter note, cut down to a whole number. -/
def ofBpm (bpm : Float) : UInt32 := lowWord (60000000 / bpm)

/-- Beats a minute; a tempo of zero stands for none. -/
def bpm (microseconds : UInt32) : Float :=
  if microseconds = 0 then 0 else 60000000 / microseconds.toFloat

end Tempo

/-- Why an event has no byte form. -/
inductive EventFault
  | pitchBendRange (value : UInt16)
  | textKind (kind : UInt8)
  | tempoRange (microseconds : UInt32)
  | keySignatureRange (sharps : Int8)
  | payloadTooLong (kind : UInt8) (length : UInt32)
deriving Repr, DecidableEq

/-- The text shown for an event without a byte form. -/
def EventFault.message : EventFault → String
  | .pitchBendRange v =>
    "pitch bend value 0x" ++ Text.Hex.padded 4 v.toNat ++ " does not fit in 14 bits"
  | .textKind k => "meta type 0x" ++ Text.Hex.padded 2 k.toNat ++ " is not a text event"
  | .tempoRange t => "tempo " ++ toString t.toNat ++ " does not fit in 3 bytes"
  | .keySignatureRange s => "bad sharp or flat count in key signature: " ++ toString s.toInt
  | .payloadTooLong k n =>
    "meta event 0x" ++ Text.Hex.padded 2 k.toNat ++ " too long: " ++ Quantity.tooLarge n

namespace ChannelMessage

/-- The number of a message type; the status byte is `0x80` plus sixteen times it plus the
channel. -/
def index : ChannelMessage → Nat
  | .noteOff .. => 0
  | .noteOn .. => 1
  | .polyPressure .. => 2
  | .controller .. => 3
  | .programChange .. => 4
  | .channelPressure .. => 5
  | .pitchBend .. => 6

/-- The status byte of a message to `channel`. -/
def status (channel : UInt8) (m : ChannelMessage) : UInt8 :=
  UInt8.ofNat (0x80 + 0x10 * m.index + channel.toNat % 16)

/-- The low seven bits of a data byte. -/
def dataByte (b : UInt8) : UInt8 := b &&& 0x7f

/-- The data bytes of a message. A bend is sent low half first. -/
def data : ChannelMessage → Except EventFault Bytes
  | .noteOff k v | .noteOn k v | .polyPressure k v | .controller k v =>
    .ok [dataByte k, dataByte v]
  | .programChange p | .channelPressure p => .ok [dataByte p]
  | .pitchBend v =>
    if 0x3fff < v then .error (.pitchBendRange v)
    else .ok [UInt8.ofNat (v.toNat % 128), UInt8.ofNat (v.toNat / 128)]

/-- What a message to `channel` does. -/
def describe (channel : UInt8) (m : ChannelMessage) : String :=
  let line (what first : String) (a : UInt8) (rest : String) : String :=
    what ++ ": channel " ++ toString channel.toNat ++ ", " ++ first ++ " " ++ toString a.toNat ++ rest
  let also (name : String) (b : UInt8) : String := ", " ++ name ++ " " ++ toString b.toNat
  match m with
  | .noteOff k v => line "note off" "key" k (also "velocity" v)
  | .noteOn k v => line "note on" "key" k (also "velocity" v)
  | .polyPressure k p => line "poly pressure" "key" k (also "pressure" p)
  | .controller c v => line "controller" "controller" c (also "value" v)
  | .programChange p => line "program change" "program" p ""
  | .channelPressure p => line "channel pressure" "pressure" p ""
  | .pitchBend v =>
    "pitch bend: channel " ++ toString channel.toNat ++ ", value " ++ toString v.toNat

end ChannelMessage

namespace MetaEvent

/-- The type byte of a meta event. -/
def kindByte : MetaEvent → UInt8
  | .sequenceNumber _ => 0x00
  | .text kind _ => kind
  | .channelPrefix _ => 0x20
  | .endOfTrack => 0x2f
  | .tempo _ => 0x51
  | .smpteOffset .. => 0x54
  | .timeSignature .. => 0x58
  | .keySignature .. => 0x59
  | .sequencerSpecific _ => 0x7f

/-- Whether texts of this kind exist. -/
def isTextKind (kind : UInt8) : Bool := 0x01 ≤ kind && kind ≤ 0x0f

/-- The bytes after the length of a meta event. -/
def payload : MetaEvent → Except EventFault Bytes
  | .sequenceNumber n => .ok (fixedWidth 2 n.toUInt32)
  | .text kind contents => if isTextKind kind then .ok contents else .error (.textKind kind)
  | .channelPrefix c => .ok [c]
  | .endOfTrack => .ok []
  | .tempo t => if 0xffffff < t then .error (.tempoRange t) else .ok (fixedWidth 3 t)
  | .smpteOffset h m s f d => .ok [h, m, s, f, d]
  | .timeSignature n p c t => .ok [n, p, c, t]
  | .keySignature s minor =>
    if s < -7 ∨ 7 < s then .error (.keySignatureRange s)
    else .ok [s.toUInt8, if minor then 1 else 0]
  | .sequencerSpecific data => .ok data

/-- The name of a kind of text. -/
def textName (kind : UInt8) : String :=
  match kind with
  | 0x01 => "text"
  | 0x02 => "copyright"
  | 0x03 => "track name"
  | 0x04 => "instrument name"
  | 0x05 => "lyric"
  | 0x06 => "marker"
  | 0x07 => "cue point"
  | k => "text 0x" ++ Text.Hex.padded 2 k.toNat

/-- A number of at least two digits. -/
def twoDigits (b : UInt8) : String := Text.Numeral.alignRight 2 '0' (toString b.toNat)

/-- What a meta event says. The denominator of a time signature is shown as a 64-bit power of two. -/
def describe : MetaEvent → String
  | .sequenceNumber n => "sequence number: " ++ toString n.toNat
  | .text kind contents => textName kind ++ ": " ++ Text.Quoted.text contents
  | .channelPrefix c => "channel prefix: " ++ toString c.toNat
  | .endOfTrack => "end of track"
  | .tempo t =>
    "tempo: " ++ toString t.toNat ++ " us per quarter (" ++ Decimal.fixed 2 (Tempo.bpm t) ++ " bpm)"
  | .smpteOffset h m s f d =>
    "smpte offset: " ++ twoDigits h ++ ":" ++ twoDigits m ++ ":" ++ twoDigits s ++
      ", frame " ++ toString f.toNat ++ "." ++ twoDigits d
  | .timeSignature n p _ _ =>
    "time signature: " ++ toString n.toNat ++ "/" ++ toString (Int64.ofNat (1 <<< p.toNat)).toInt
  | .keySignature s minor =>
    "key signature: " ++ toString s.toInt ++ ", " ++ (if minor then "minor" else "major")
  | .sequencerSpecific data => "sequencer specific: " ++ Text.Hex.spaced .lower data

end MetaEvent

namespace Event

/-- Whether the event is a meta event. -/
def isMeta : Event → Bool
  | .channel .. => false
  | .info _ => true

/-- The bytes of an event in a track. A message carries its status byte; a meta event its type and
the length of its payload. -/
def encode : Event → Except EventFault Bytes
  | .channel c m => (m.data).map (m.status c :: ·)
  | .info .endOfTrack => .ok [0xff, 0x2f, 0]
  | .info e =>
    match e.payload with
    | .error fault => .error fault
    | .ok data =>
      match Quantity.prefixed? data with
      | some body => .ok (0xff :: e.kindByte :: body)
      | none => .error (.payloadTooLong e.kindByte (UInt32.ofNat data.length))

/-- One line about an event. -/
def describe : Event → String
  | .channel c m => m.describe c
  | .info e => e.describe

end Event

end DegreeScore.Midi
