import AndOrFlow.Dataflow.ChannelSplit
import AndOrFlow.Dataflow.Compilation
import AndOrFlow.Graph.Build
import AndOrFlow.Graph.Outline
import AndOrFlow.Graph.Validity
import AndOrFlow.Memory.Search
import AndOrFlow.Proofs.Memory.Guarantee
import AndOrFlow.Proofs.Memory.Safety
import AndOrFlow.Proofs.Unfolding
import AndOrFlow.Proofs.Memory.Arrival
import AndOrFlow.Proofs.Memory.Peak
import AndOrFlow.Proofs.Memory.Once
import AndOrFlow.Proofs.Memory.Respect
import AndOrFlow.Proofs.Validity
import AndOrFlow.Proofs.Acceptance
import AndOrFlow.Proofs.Dataflow.Binding
import AndOrFlow.Proofs.Dataflow.Steps
import AndOrFlow.Proofs.Dataflow.Channels
import AndOrFlow.Proofs.Memory.Course
import AndOrFlow.Proofs.Memory.Greedy
import AndOrFlow.Proofs.Concurrent.Build
import AndOrFlow.Proofs.Memory.Completion
import AndOrFlow.Proofs.Memory.Enlargement
import AndOrFlow.Proofs.Memory.Verdict
import AndOrFlow.Proofs.Decision
import AndOrFlow.Proofs.Derivation
import AndOrFlow.Proofs.Dataflow.Refinement
import AndOrFlow.Proofs.Exploration
import AndOrFlow.Proofs.Form
import AndOrFlow.Proofs.Order
import AndOrFlow.Proofs.Canonical
import AndOrFlow.Proofs.Memory.PeakBounds
import AndOrFlow.Proofs.PostOrder
import AndOrFlow.Proofs.Dataflow.Composition
import AndOrFlow.Proofs.Dataflow.Refusal
import AndOrFlow.Proofs.Dataflow.Storage
import AndOrFlow.Proofs.Memory.Closure
import AndOrFlow.Proofs.Memory.Limit
import AndOrFlow.Proofs.Memory.Block
import AndOrFlow.Proofs.Memory.Chain
import AndOrFlow.Proofs.Memory.Scaling
import AndOrFlow.Proofs.Memory.Workers
import AndOrFlow.Proofs.Dataflow.Consumers
import AndOrFlow.Proofs.Outline.Reading
import AndOrFlow.Proofs.Statistics
import AndOrFlow.Proofs.Hollow
import AndOrFlow.Proofs.Parents
import AndOrFlow.Proofs.Concurrent.Calls
import AndOrFlow.Proofs.Memory.Ranking
