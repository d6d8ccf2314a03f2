import DegreeScore.Decimal.Reading

/-!
# Settings

Defaults that the environment may override. A variable that is not set counts as empty.
-/

namespace DegreeScore

/-- The environment variables `DEGREEC_OUT_PATH`, `DEGREEC_ADDR` and `DEGREEC_BPM`. -/
structure Environment where
  outPath : String := ""
  address : String := ""
  bpm : String := ""
deriving Repr, DecidableEq

namespace Environment

/-- The directory for compiled files. -/
def outputDir (env : Environment) : String := if env.outPath ≠ "" then env.outPath else "./out"

/-- The address to serve at. -/
def serveAddress (env : Environment) : String := if env.address ≠ "" then env.address else ":8080"

/-- The tempo of a score that sets none. What is not a number above zero counts as 120. -/
def defaultBpm (env : Environment) : Float :=
  match Decimal.read (Bytes.ofString env.bpm) with
  | .ok x => if x ≤ 0 then 120 else x
  | .error _ => 120

end Environment

/-- The most bytes that a source may have. -/
def maxSourceSize : Nat := 1048576

/-- What the name of a source ends with. -/
def sourceExtension : String := ".dn"

end DegreeScore
