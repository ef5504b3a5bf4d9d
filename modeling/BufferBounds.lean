import BufferBounds.Json.Reader
import BufferBounds.Json.Report
import BufferBounds.Json.Settings
import BufferBounds.Settings.Document
import BufferBounds.Proofs.Verdicts
import BufferBounds.Proofs.Reachability
import BufferBounds.Proofs.Joins
import BufferBounds.Proofs.AssignedValues
import BufferBounds.Proofs.Visits
import BufferBounds.Proofs.Stability
import BufferBounds.Proofs.Termination
import BufferBounds.Proofs.Descriptions
import BufferBounds.Proofs.Simulation
import BufferBounds.Proofs.Soundness
import BufferBounds.Proofs.Determinacy
import BufferBounds.Proofs.Exactness
import BufferBounds.Proofs.Normality
import BufferBounds.Proofs.JoinLaws
import BufferBounds.Proofs.Lockstep
import BufferBounds.Proofs.Subgraph
import BufferBounds.Proofs.Sorting
import BufferBounds.Proofs.Straddling
import BufferBounds.Proofs.Entrances
import BufferBounds.Proofs.Paths
import BufferBounds.Proofs.Undetermined
import BufferBounds.Proofs.Limits
import BufferBounds.Proofs.OnePass
import BufferBounds.Proofs.Sites
import BufferBounds.Proofs.NormalForms
import BufferBounds.Proofs.Revisits
import BufferBounds.Proofs.Programs
import BufferBounds.Proofs.Overlays
import BufferBounds.Proofs.Overrides
import BufferBounds.Proofs.Documents
import BufferBounds.Proofs.Sums
import BufferBounds.Proofs.Guards
import BufferBounds.Proofs.Spellings
import BufferBounds.Proofs.ExactVerdicts
import BufferBounds.Proofs.LeastUpperBounds
import BufferBounds.Proofs.LoopHeaders
import BufferBounds.Proofs.Definedness
import BufferBounds.Proofs.Reporters
import BufferBounds.Proofs.Replays
import BufferBounds.Proofs.Convergence
import BufferBounds.Proofs.Widenings
