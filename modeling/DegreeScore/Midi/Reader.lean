import DegreeScore.Midi.Quantity

/-!
# Reading MIDI data

A reader consumes bytes from a cursor that knows how far into the file it stands. It fails with the
offset at which the data went wrong, and leaves the cursor where it was when it noticed.
-/

namespace DegreeScore.Midi

/-- What is wrong with MIDI data. -/
inductive ReadFault
  | unexpectedEnd
  | unexpectedByte (want got : UInt8)
  | shortfall (need : Int) (left : Nat)
  | quantityTooLong
  | unsupportedFormat (n : UInt32)
  | trackPastEnd (length : UInt32)
  | systemMessage (status : UInt8)
  | noRunningStatus (byte : UInt8)
  | notData (byte : UInt8)
  | metaLength (kind : UInt8) (length expected : Nat)
  | badKeySignature (sharps : Int8) (mode : UInt8)
deriving Repr, DecidableEq

/-- A byte as `0x` and two digits. -/
def hexByte (b : UInt8) : String := "0x" ++ Text.Hex.padded 2 b.toNat

/-- The text shown for bad data. -/
def ReadFault.message : ReadFault → String
  | .unexpectedEnd => "unexpected end of data"
  | .unexpectedByte want got => "expected byte " ++ hexByte want ++ ", got " ++ hexByte got
  | .shortfall need left => "need " ++ toString need ++ " bytes, " ++ toString left ++ " left"
  | .quantityTooLong => "variable-length quantity longer than 4 bytes"
  | .unsupportedFormat n => "unsupported format " ++ toString n.toNat
  | .trackPastEnd n => "track length " ++ toString n.toNat ++ " runs past end of data"
  | .systemMessage s => "unexpected system message " ++ hexByte s ++ " in track"
  | .noRunningStatus b => "data byte " ++ hexByte b ++ " without running status"
  | .notData b => "expected data byte, got " ++ hexByte b
  | .metaLength kind length expected =>
    "meta event " ++ hexByte kind ++ " has length " ++ toString length ++ ", expected " ++
      toString expected
  | .badKeySignature sharps mode =>
    "bad key signature " ++ toString sharps.toInt ++ "/" ++ toString mode.toNat

/-- Bad data and the offset at which it stands. -/
structure ReadError where
  offset : Nat
  fault : ReadFault
deriving Repr, DecidableEq

/-- The text shown for bad data at its offset. -/
def ReadError.message (e : ReadError) : String :=
  "offset " ++ toString e.offset ++ ": " ++ e.fault.message

/-- The unread bytes and the offset of the first of them. -/
structure Cursor where
  offset : Nat
  rest : Bytes
deriving Repr, DecidableEq

/-- A computation that consumes bytes or fails. -/
abbrev Reader := EStateM ReadError Cursor

namespace Reader

/-- Fails with a fault at `offset`. -/
def failAt {α : Type} (offset : Nat) (fault : ReadFault) : Reader α := throw ⟨offset, fault⟩

/-- The offset of the next byte. -/
def offset : Reader Nat := return (← get).offset

/-- The next byte. -/
def byte : Reader UInt8 := do
  match ← get with
  | ⟨at_, b :: rest⟩ =>
    set (Cursor.mk (at_ + 1) rest)
    return b
  | ⟨at_, []⟩ => failAt at_ .unexpectedEnd

/-- A byte that has to be `want`. -/
def expect (want : UInt8) : Reader Unit := do
  let at_ ← offset
  let got ← byte
  if got ≠ want then failAt at_ (.unexpectedByte want got)

/-- Bytes that have to be these. -/
def expectAll : Bytes → Reader Unit
  | [] => return
  | want :: rest => do
    expect want
    expectAll rest

/-- The next `n` bytes, all of them or none. -/
def take (n : Int) : Reader Bytes := do
  let c ← get
  let bytes := c.rest.take n.toNat
  if n < 0 ∨ bytes.length < n then failAt c.offset (.shortfall n c.rest.length)
  else
    set (Cursor.mk (c.offset + n.toNat) (c.rest.drop n.toNat))
    return bytes

/-- The number that big-endian bytes stand for, in the low 32 bits. -/
def word (bytes : Bytes) : UInt32 := bytes.foldl (fun n b => n <<< 8 ||| b.toUInt32) 0

/-- A big-endian number of `size` bytes. -/
def fixed (size : Int) : Reader UInt32 := return word (← take size)

/-- The groups of a quantity that started at `start`, of which at most `tries` are to come; those
before are worth `n`. -/
def groups (start : Nat) : Nat → UInt32 → Reader UInt32
  | 0, _ => failAt start .quantityTooLong
  | tries + 1, n => do
    let b ← byte
    let n := n <<< 7 ||| (b &&& 0x7f).toUInt32
    if b &&& 0x80 = 0 then return n else groups start tries n

/-- A variable-length quantity. -/
def quantity : Reader UInt32 := do groups (← offset) 4 0

/-- A byte string after its length. -/
def prefixed : Reader Bytes := do
  let n ← quantity
  take n.toNat

/-- A reader run on all of `bytes`: its result or error, and the number of bytes it consumed. -/
def runOn {α : Type} (r : Reader α) (bytes : Bytes) : Except ReadError α × Nat :=
  match r.run ⟨0, bytes⟩ with
  | .ok a c => (.ok a, c.offset)
  | .error e c => (.error e, c.offset)

end Reader

end DegreeScore.Midi
