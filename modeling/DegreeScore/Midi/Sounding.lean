import DegreeScore.Tally

/-!
# Sounding notes

The notes that have been started and not stopped. A note is a key on a channel; one that was started
twice has to be stopped twice.
-/

namespace DegreeScore.Midi

/-- The order of notes: by channel, then by key. -/
def compareNotes : UInt8 × UInt8 → UInt8 × UInt8 → Ordering :=
  compareLex (compareOn Prod.fst) (compareOn Prod.snd)

/-- The notes that sound, together with how many of them sound on each channel and each key. -/
structure Sounding where
  /-- By channel and key. -/
  notes : Tally (UInt8 × UInt8) compareNotes := {}
  byChannel : Tally UInt8 compare := {}
  byKey : Tally UInt8 compare := {}
deriving Repr

namespace Sounding

/-- Whether a note sounds. -/
def contains (s : Sounding) (channel key : UInt8) : Bool := 0 < s.notes.count (channel, key)

/-- What sounds after a note was started. -/
def start (s : Sounding) (channel key : UInt8) : Sounding where
  notes := s.notes.more (channel, key)
  byChannel := s.byChannel.more channel
  byKey := s.byKey.more key

/-- What sounds after a note was stopped. One that does not sound makes no difference. -/
def stop (s : Sounding) (channel key : UInt8) : Sounding :=
  if s.contains channel key then
    { notes := s.notes.less (channel, key)
      byChannel := s.byChannel.less channel
      byKey := s.byKey.less key }
  else s

/-- The keys that sound, in ascending order. -/
def keys (s : Sounding) : List UInt8 := s.byKey.toList

/-- The channels that sound, in ascending order. -/
def channels (s : Sounding) : List UInt8 := s.byChannel.toList

/-- Whether nothing sounds. -/
def isSilent (s : Sounding) : Bool := s.notes.isEmpty

end Sounding

end DegreeScore.Midi
