import FlowLint.Dataflow.Bundled
import FlowLint.Fact.Scalar
import FlowLint.Pipeline.Run
import FlowLint.Plan.File
import FlowLint.Report.Basic
import FlowLint.Proofs.Fact.Constants
import FlowLint.Proofs.Fact.Semilattice
import FlowLint.Proofs.Words
import FlowLint.Proofs.Fact.Set
import FlowLint.Proofs.Graph.Adjacency
import FlowLint.Proofs.Graph.Flow
import FlowLint.Proofs.Graph.Walks
import FlowLint.Proofs.Dataflow.Solution
import FlowLint.Proofs.Dataflow.ConstantPropagation
import FlowLint.Proofs.Dataflow.Liveness
import FlowLint.Proofs.Dataflow.Visits
import FlowLint.Proofs.Dataflow.PostFixpoint
import FlowLint.Proofs.Dataflow.LeastSolution
import FlowLint.Proofs.Execution
import FlowLint.Proofs.Feasible
import FlowLint.Proofs.Soundness
import FlowLint.Proofs.Machine
import FlowLint.Proofs.Effects
import FlowLint.Proofs.Removal
import FlowLint.Proofs.Dataflow.OrderIndependence
import FlowLint.Proofs.Pipeline.Run
import FlowLint.Proofs.Dataflow.Convergence
import FlowLint.Proofs.Dataflow.LivePaths
import FlowLint.Proofs.DeadCode
import FlowLint.Proofs.Pipeline.Detection
import FlowLint.Proofs.Pipeline.Truncation
import FlowLint.Proofs.Dataflow.FactInvariants
import FlowLint.Proofs.Dataflow.Monotonicity
import FlowLint.Proofs.Pipeline.Schedule
import FlowLint.Proofs.Pipeline.Writes
import FlowLint.Proofs.Graph.DepthFirst
import FlowLint.Proofs.Graph.Orders
import FlowLint.Proofs.Listing
import FlowLint.Proofs.Verdicts
import FlowLint.Proofs.Pruning
import FlowLint.Proofs.Dataflow.SinglePass
import FlowLint.Proofs.Plan.File
import FlowLint.Proofs.Report
import FlowLint.Proofs.Graph.Dot
import FlowLint.Proofs.Fact.Defaults
import FlowLint.Proofs.Graph.Registration
import FlowLint.Proofs.Dataflow.Agenda
