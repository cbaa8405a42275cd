import MarkedChain.Fault
import MarkedChain.Misuse
import MarkedChain.Contention
import MarkedChain.Tuning
import MarkedChain.Register
import MarkedChain.Link
import MarkedChain.Link.Packed
import MarkedChain.Limbo
import MarkedChain.Roster
import MarkedChain.Epochs
import MarkedChain.Hazards
import MarkedChain.Hazards.Snapshot
import MarkedChain.Halt
import MarkedChain.Epochs.Packed
import MarkedChain.Epochs.Session
import MarkedChain.Hazards.Session
import MarkedChain.Memory
import MarkedChain.Scheme
import MarkedChain.SharedSet
import MarkedChain.Operation
import MarkedChain.Operation.Step
import MarkedChain.World
import MarkedChain.Key
import MarkedChain.Script
import MarkedChain.Script.Run
import MarkedChain.Proofs.Books
import MarkedChain.Proofs.ChainOrder
import MarkedChain.Proofs.Lifetime
import MarkedChain.Proofs.Linearization
import MarkedChain.Proofs.Placement
import MarkedChain.Proofs.Removals
import MarkedChain.Proofs.GracePeriod
import MarkedChain.Proofs.Payloads
import MarkedChain.Proofs.Closing
import MarkedChain.Proofs.Deliveries
import MarkedChain.Proofs.Headroom
import MarkedChain.Proofs.Completion
import MarkedChain.Proofs.Atomicity
import MarkedChain.Proofs.Retirements
import MarkedChain.Proofs.Holders
import MarkedChain.Proofs.Reclaiming
import MarkedChain.Proofs.Backlog
import MarkedChain.Proofs.Quota
import MarkedChain.Proofs.Unstalled
import MarkedChain.Proofs.Descent
import MarkedChain.Proofs.Interposition
import MarkedChain.Proofs.Retries
import MarkedChain.Proofs.Windows
import MarkedChain.Proofs.Listings
import MarkedChain.Proofs.Coverage
import MarkedChain.Proofs.Sweeps
import MarkedChain.Proofs.Enrollment
import MarkedChain.Proofs.Thresholds
import MarkedChain.Proofs.Separation
import MarkedChain.Proofs.Nesting
import MarkedChain.Proofs.PackedEpochs
import MarkedChain.Proofs.PackedLinks
import MarkedChain.Proofs.Recycling
import MarkedChain.Proofs.Contention
