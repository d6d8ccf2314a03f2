/-!
# Channels and programs

Each program gets a channel of its own, the highest that is free; the two percussion channels are
never given out. A program keeps its channel for the whole score.
-/

namespace DegreeScore

/-- The program that each channel is bound to; `none` means that the channel is free. -/
structure Channels where
  program : Fin 16 → Option UInt8

namespace Channels

/-- All channels are free. -/
def free : Channels := ⟨fun _ => none⟩

/-- The channels that are given out, in order of preference. -/
def playable : List (Fin 16) := [15, 14, 13, 12, 11, 8, 7, 6, 5, 4, 3, 2, 1, 0]

/-- Binds a channel to a program. -/
def bind (t : Channels) (c : Fin 16) (p : UInt8) : Channels :=
  ⟨fun d => if d = c then some p else t.program d⟩

/-- The channel that already plays a program. -/
def playing? (t : Channels) (p : UInt8) : Option (Fin 16) :=
  playable.find? fun c => t.program c = some p

/-- The highest free channel. -/
def highestFree? (t : Channels) : Option (Fin 16) := playable.find? fun c => (t.program c).isNone

/-- A channel for a program. -/
inductive Allocation
  /-- The program had this channel already. -/
  | kept (c : Fin 16)
  /-- The program was bound to this channel, which was free. -/
  | fresh (c : Fin 16) (t : Channels)
  /-- No channel is left. -/
  | exhausted

/-- Finds or binds a channel for a program. -/
def allocate (t : Channels) (p : UInt8) : Allocation :=
  match t.playing? p with
  | some c => .kept c
  | none =>
    match t.highestFree? with
    | some c => .fresh c (t.bind c p)
    | none => .exhausted

/-- The number of a channel as a byte. -/
def number (c : Fin 16) : UInt8 := UInt8.ofNat c.val

/-- The programs of all channels, from channel 0 up. -/
def toList (t : Channels) : List (Option UInt8) := (List.finRange 16).map t.program

/-- The complaint about a program for which no channel is left. -/
def exhaustedMessage (p : UInt8) : String :=
  "no channel left for program " ++ toString p.toNat ++ ": out of channels"

end Channels

end DegreeScore
