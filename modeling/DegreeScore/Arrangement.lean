import DegreeScore.Midi.File
import DegreeScore.Plan.Performance

/-!
# Arranging a performance as tracks

A performance becomes a file of two tracks: meta events on the first, messages on the second. Times
are cut down to ticks one by one, so rounding does not add up, and both tracks end with the piece.
-/

namespace DegreeScore

/-- Ticks in a whole note. -/
def pulsesPerWhole : Int64 := 384

/-- Ticks in a quarter note. -/
def ticksPerQuarter : UInt16 := 96

/-- A time that lies beyond the last tick a track can reach. -/
structure TooLong where
  time : Ratio
  ticks : Int64
deriving Repr, DecidableEq

/-- The text shown for a time that lies too far out. -/
def TooLong.message (e : TooLong) : String :=
  e.time.toText ++ " whole notes is " ++ toString e.ticks.toInt ++ " ticks: score is too long"

/-- The tick of a time, cut down; times before zero count as zero. -/
def Ratio.pulses (t : Ratio) : Except TooLong UInt32 :=
  let p := t.floor pulsesPerWhole
  if p < 0 then .ok 0
  else if Int64.ofNat Midi.Quantity.maxValue.toNat < p then .error ⟨t, p⟩
  else .ok (UInt32.ofNat p.toInt.toNat)

namespace Arrangement

/-- The ticks from each event to the next, the first counted from zero. -/
def steps (ticks : List UInt32) : List UInt32 :=
  ticks.zipWith (fun now before => now - before) (0 :: ticks)

/-- A track of events in order of time, closed at `stop` or at the last event if that is later. -/
def track (events : List TimedEvent) (stop : Ratio) : Except TooLong Midi.Track :=
  match events.mapM fun e => e.time.pulses with
  | .error e => .error e
  | .ok ticks =>
    match stop.pulses with
    | .error e => .error e
    | .ok closing =>
      let last := ticks.getLastD 0
      let placed := events.zipWith (fun e delta => Midi.TrackEvent.mk delta (some e.event)) (steps ticks)
      .ok (placed ++ [.ending ((if closing < last then last else closing) - last)])

end Arrangement

/-- The file of a performance. The meta events in `extra` come first among those of their time. -/
def Performance.arrange (p : Performance) (extra : List TimedEvent) : Except TooLong Midi.File :=
  let info := Sorting.sort TimedEvent.notAfter (extra ++ p.events.filter fun e => e.event.isMeta)
  let messages := p.events.filter fun e => !e.event.isMeta
  match Arrangement.track info p.duration with
  | .error e => .error e
  | .ok first =>
    match Arrangement.track messages p.duration with
    | .error e => .error e
    | .ok second =>
      .ok { format := 1, timing := some (.metric ticksPerQuarter), tracks := [first, second] }

end DegreeScore
