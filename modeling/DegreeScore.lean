import DegreeScore.Main
import DegreeScore.Proofs.ByteForm
import DegreeScore.Proofs.Chord
import DegreeScore.Proofs.Chord.Naming
import DegreeScore.Proofs.Command.Outputs
import DegreeScore.Proofs.Decimal.Binary64
import DegreeScore.Proofs.Feed
import DegreeScore.Proofs.Midi.Layout
import DegreeScore.Proofs.Midi.Numbers
import DegreeScore.Proofs.Midi.Parsing
import DegreeScore.Proofs.Midi.Rewriting
import DegreeScore.Proofs.Midi.RoundTrip
import DegreeScore.Proofs.Midi.Truncation
import DegreeScore.Proofs.Midi.Waiting
import DegreeScore.Proofs.Placing
import DegreeScore.Proofs.Plan.Allocation
import DegreeScore.Proofs.Plan.Declarations
import DegreeScore.Proofs.Plan.Exact
import DegreeScore.Proofs.Plan.Grouping
import DegreeScore.Proofs.Plan.Invariants
import DegreeScore.Proofs.Plan.Pitch
import DegreeScore.Proofs.Plan.Programs
import DegreeScore.Proofs.Plan.Sharing
import DegreeScore.Proofs.Plan.Voicing
import DegreeScore.Proofs.Playback
import DegreeScore.Proofs.Positions
import DegreeScore.Proofs.Preview
import DegreeScore.Proofs.Preview.Composition
import DegreeScore.Proofs.Preview.Selection
import DegreeScore.Proofs.Quotation
import DegreeScore.Proofs.Ratio.Arithmetic
import DegreeScore.Proofs.Ratio.Order
import DegreeScore.Proofs.Relaying
import DegreeScore.Proofs.Score.Faults
import DegreeScore.Proofs.Score.Recovery
import DegreeScore.Proofs.Score.Scoping
import DegreeScore.Proofs.Tempo
import DegreeScore.Proofs.Timing
import DegreeScore.Service.Router
