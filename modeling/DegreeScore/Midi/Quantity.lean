import DegreeScore.Text.Hex

/-!
# Numbers in a MIDI file

Variable-length quantities carry seven bits a byte, most significant first, and mark every byte but
the last with the high bit; four bytes are the most. Fixed-width numbers are big-endian.
-/

namespace DegreeScore.Midi

namespace Quantity

/-- The largest variable-length quantity: four groups of seven bits. -/
def maxValue : UInt32 := 0x0fffffff

/-- The last byte of a quantity: its low seven bits. -/
def last (n : Nat) : UInt8 := UInt8.ofNat (n % 128)

/-- A byte of a quantity that more bytes follow. -/
def more (n : Nat) : UInt8 := UInt8.ofNat (n % 128 + 128)

/-- The shortest encoding of a quantity; `none` above `maxValue`. -/
def encode? (n : UInt32) : Option Bytes :=
  let v := n.toNat
  if v < 0x80 then some [last v]
  else if v < 0x4000 then some [more (v >>> 7), last v]
  else if v < 0x200000 then some [more (v >>> 14), more (v >>> 7), last v]
  else if v < 0x10000000 then
    some [more (v >>> 21), more (v >>> 14), more (v >>> 7), last v]
  else none

/-- The complaint about a number above `maxValue`. -/
def tooLarge (n : UInt32) : String :=
  "integer 0x" ++ Text.Hex.padded 8 n.toNat ++ " is too large for a variable-length quantity"

/-- The groups of a number before the bytes that follow them, the lowest group last. There is room for
so many bytes. -/
def above : Nat → Nat → Bytes → Bytes
  | 0, _, below => below
  | room + 1, n, below => if n = 0 then below else above room (n >>> 7) (more n :: below)

/-- Bytes with a quantity after them. A number above `maxValue` is complained about, and the bytes are
left as they are. The four bytes of a quantity are filled from the last one upwards. -/
def append (dst : Bytes) (n : UInt32) : Bytes × Option String :=
  if maxValue < n then (dst, some (tooLarge n))
  else (dst ++ above 3 (n.toNat >>> 7) [last n.toNat], none)

/-- A byte string after its length. -/
def prefixed? (bs : Bytes) : Option Bytes := (encode? (UInt32.ofNat bs.length)).map (· ++ bs)

end Quantity

/-- The byte of a number after which `i` bytes follow. A number has four bytes. -/
def byteAt (n : UInt32) (i : Nat) : UInt8 := if i < 4 then UInt8.ofNat (n.toNat >>> (8 * i)) else 0

/-- The low `size` bytes of a number, most significant first. -/
def fixedWidth (size : Nat) (n : UInt32) : Bytes := (List.range size).reverse.map (byteAt n)

end DegreeScore.Midi
