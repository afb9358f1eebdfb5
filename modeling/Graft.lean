import Graft.CorePasses
import Graft.Decimal.Significant
import Graft.Main
import Graft.Proofs.Agreement
import Graft.Proofs.Slots
import Graft.Proofs.Simulation
import Graft.Proofs.Trees
import Graft.Proofs.Lowering
import Graft.Proofs.Correspondence
import Graft.Proofs.Depth
import Graft.Proofs.Linking
import Graft.Proofs.Bindings
import Graft.Proofs.Passes
import Graft.Proofs.Substituting
import Graft.Proofs.Specializing
import Graft.Proofs.Finished
import Graft.Proofs.Undoing
import Graft.Proofs.Rollback
import Graft.Proofs.Renumbering
import Graft.Proofs.Operations
import Graft.Proofs.Replacements
import Graft.Proofs.Nesting
import Graft.Proofs.Lockstep
import Graft.Proofs.Gateways
import Graft.Proofs.LockstepCalls
import Graft.Proofs.Reaching
import Graft.Proofs.Records
import Graft.Proofs.Keys
import Graft.Proofs.Caching
import Graft.Proofs.Engines
import Graft.Proofs.Requests
import Graft.Proofs.EngineCalls
import Graft.Proofs.EngineModules
import Graft.Proofs.Sessions
import Graft.Proofs.Isolation
import Graft.Proofs.Scanning
import Graft.Proofs.Cursors
import Graft.Proofs.Reading
import Graft.Proofs.Extraction
import Graft.Proofs.Strictness
import Graft.Proofs.Idle
import Graft.Proofs.Staleness
import Graft.Proofs.Components
import Graft.Proofs.Cycles
import Graft.Proofs.Exploring
import Graft.Proofs.Detection
import Graft.Proofs.Observing
import Graft.Proofs.Activations
import Graft.Proofs.Spelling
import Graft.Proofs.Printing
import Graft.Proofs.Rereading
import Graft.Proofs.Naming
import Graft.Proofs.Precedence
import Graft.Proofs.Layout
import Graft.Proofs.Unambiguity
import Graft.Proofs.Fingerprints
import Graft.Proofs.Declaring
import Graft.Proofs.ClosedWalks
import Graft.Proofs.Redirecting
import Graft.Proofs.Unsigned
import Graft.Proofs.Leveling
import Graft.Proofs.Roundtrip
import Graft.Proofs.Restoring
import Graft.Proofs.Lines
import Graft.Proofs.Accepting
import Graft.Proofs.Parameters
import Graft.Proofs.Reprinting
import Graft.Proofs.Arguments
import Graft.Proofs.Registering
import Graft.Proofs.EarlyReads
import Graft.Proofs.Coinciding
import Graft.Proofs.Captures
import Graft.Proofs.Reporting
import Graft.Proofs.Cutting
import Graft.Proofs.Partition
import Graft.Proofs.Strays
import Graft.Proofs.Retention
import Graft.Proofs.Indexed
import Graft.Proofs.Pacing
import Graft.Proofs.Bounded
import Graft.Proofs.Outlines
import Graft.Proofs.Spans
import Graft.Proofs.Chains
import Graft.Proofs.Emitting
import Graft.Proofs.Hooks
import Graft.Proofs.Relayout
import Graft.Proofs.Fields
import Graft.Proofs.Callees
import Graft.Proofs.EvaluationOrder
import Graft.Proofs.StatefulSource
import Graft.Proofs.StatefulWindows
import Graft.Proofs.Nodes
import Graft.Proofs.StatefulHooks
import Graft.Proofs.Walks
import Graft.Proofs.Allocation
import Graft.Proofs.Spanless
import Graft.Proofs.Relinking
import Graft.Proofs.Computations
