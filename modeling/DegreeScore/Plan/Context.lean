import DegreeScore.Score.Basic

/-!
# Performance contexts

What a note needs to know beyond its degree: channel, duration, key and velocity. A context is
handed down the tree and changed by the options of each node on the way.
-/

namespace DegreeScore

/-- What a node takes over from the node around it. -/
structure Context where
  channel : UInt8
  duration : Ratio
  key : Int64
  velocity : UInt8
deriving Repr, DecidableEq

/-- The velocities that dynamics stand for. -/
def dynamics : List (Bytes × UInt8) :=
  [("pppp", 8), ("ppp", 20), ("pp", 31), ("p", 42), ("mp", 53), ("mf", 64), ("f", 80), ("ff", 96),
    ("fff", 112), ("ffff", 127)].map fun (name, v) => (Bytes.ofString name, v)

/-- The velocity of a label that is a dynamic. -/
def dynamic? (label : Bytes) : Option UInt8 := dynamics.lookup label

/-- What a program label begins with. -/
def programWord : Bytes := Bytes.ofString "program_"

/-- The program of a label of the form `program_<n>`, where `n` is at most 127. -/
def program? (label : Bytes) : Option UInt8 :=
  if programWord.isPrefixOf label then
    match Text.Numeral.int? 127 (label.drop programWord.length) with
    | some n => if 0 ≤ n then some (UInt8.ofNat n.toNat) else none
    | none => none
  else none

namespace Context

/-- The context of a whole score: quarter notes, no sharps or flats, mezzo forte. -/
def initial : Context := { channel := 0, duration := ⟨1, 4⟩, key := 0, velocity := 64 }

/-- Applies the dynamics among the labels; the last one counts. -/
def withDynamics (c : Context) (labels : List Bytes) : Context :=
  labels.foldl (fun c l => match dynamic? l with
    | some v => { c with velocity := v }
    | none => c) c

/-- The context overridden by the duration, key and dynamics of a node. -/
def override (c : Context) : Option Options → Context
  | none => c
  | some o =>
    { c with duration := o.duration.getD c.duration, key := o.key.getD c.key }.withDynamics o.labels

end Context

/-- The MIDI key of a scale degree: degrees are stacked fifths folded into a scale, so that the
degree `0` in the key `0` is middle C, 60, and a sharp raises one degree of seven. Keys are kept
within 0 to 127. -/
def pitch (degree accidental key : Int64) : UInt8 :=
  let p := Int64.ofInt ((425 + 12 * degree + key).toInt.fdiv 7) + accidental
  if p < 0 then 0 else if 127 < p then 127 else UInt8.ofNat p.toInt.toNat

end DegreeScore
