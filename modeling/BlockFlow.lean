import BlockFlow.Main
import BlockFlow.Table
import BlockFlow.Proofs.Ascent
import BlockFlow.Proofs.FlowEquations
import BlockFlow.Proofs.CallEquations
import BlockFlow.Proofs.Discovery
import BlockFlow.Proofs.Preorder
import BlockFlow.Proofs.NestedWalks
import BlockFlow.Proofs.Procedures
import BlockFlow.Proofs.Arena
import BlockFlow.Proofs.Frame
import BlockFlow.Proofs.Uniform
import BlockFlow.Proofs.Cycles
import BlockFlow.Proofs.RingPrograms
import BlockFlow.Proofs.RingTours
import BlockFlow.Proofs.RingReports
import BlockFlow.Proofs.Effort
import BlockFlow.Proofs.Refusals
import BlockFlow.Proofs.Nesting
import BlockFlow.Proofs.Regions
import BlockFlow.Proofs.Repeats
import BlockFlow.Proofs.Forgetting
import BlockFlow.Proofs.Counters
import BlockFlow.Proofs.Rows
import BlockFlow.Proofs.RoundTrips
