import DegreeScore.Json.Basic
import DegreeScore.Playback

/-!
# The playback feed

Playback messages as JSON: one object a message, with its time in milliseconds, its bytes in
hexadecimal and its text.
-/

namespace DegreeScore

/-- A message as an entry of the feed. -/
def PlaybackMessage.entry (m : PlaybackMessage) : Except Json.NoNumeral Json.Value :=
  (Json.Value.ofFloat m.millis).map fun millis =>
    .object [("millis", millis), ("bytes", .text (Text.Hex.ofBytes m.bytes)), ("message", .text m.text)]

/-- The feed of messages, unless the time of one has no numeral. -/
def Playback.feed (messages : List PlaybackMessage) : Except Json.NoNumeral Json.Value :=
  (messages.mapM PlaybackMessage.entry).map .array

end DegreeScore
