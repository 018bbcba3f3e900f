import TypeRecovery.Assoc
import TypeRecovery.CommandLine.Arguments
import TypeRecovery.CommandLine.Execute
import TypeRecovery.CommandLine.FileTree
import TypeRecovery.CommandLine.Style
import TypeRecovery.DataType.Basic
import TypeRecovery.DataType.Layout
import TypeRecovery.DataType.Order
import TypeRecovery.Decimal.Range
import TypeRecovery.Decimal.Shortest
import TypeRecovery.Description.Basic
import TypeRecovery.Description.Build
import TypeRecovery.Description.Json
import TypeRecovery.Description.TypeExpr
import TypeRecovery.Error
import TypeRecovery.Graph.Basic
import TypeRecovery.Graph.Mask
import TypeRecovery.Json.Basic
import TypeRecovery.Json.Decode
import TypeRecovery.Json.Printer
import TypeRecovery.Json.Reader
import TypeRecovery.Main
import TypeRecovery.Opcode
import TypeRecovery.Proofs.Checked.Basic
import TypeRecovery.Proofs.Checked.DataType
import TypeRecovery.Proofs.Checked.Edge
import TypeRecovery.Proofs.Checked.Flow
import TypeRecovery.Proofs.Checked.Local
import TypeRecovery.Proofs.Checked.Mask
import TypeRecovery.Proofs.Checked.Phases
import TypeRecovery.Proofs.Checked.Report
import TypeRecovery.Proofs.Checked.Round
import TypeRecovery.Proofs.DataType.BestField
import TypeRecovery.Proofs.DataType.Bounds
import TypeRecovery.Proofs.DataType.Component
import TypeRecovery.Proofs.DataType.Construction
import TypeRecovery.Proofs.DataType.Descent
import TypeRecovery.Proofs.DataType.Growth
import TypeRecovery.Proofs.DataType.Interning
import TypeRecovery.Proofs.DataType.Layout
import TypeRecovery.Proofs.DataType.Order
import TypeRecovery.Proofs.DataType.PointerDepth
import TypeRecovery.Proofs.DataType.Size
import TypeRecovery.Proofs.Description.Acceptance
import TypeRecovery.Proofs.Description.Assembly
import TypeRecovery.Proofs.Description.Build
import TypeRecovery.Proofs.Description.Declarations
import TypeRecovery.Proofs.Description.Exact
import TypeRecovery.Proofs.Description.Grammar
import TypeRecovery.Proofs.Description.Meaning
import TypeRecovery.Proofs.Description.References
import TypeRecovery.Proofs.Description.RoundTrip
import TypeRecovery.Proofs.Description.TypeNames
import TypeRecovery.Proofs.Description.Valid
import TypeRecovery.Proofs.Graph.Consistency
import TypeRecovery.Proofs.Graph.Construction
import TypeRecovery.Proofs.Graph.Execution
import TypeRecovery.Proofs.Graph.LeastMask
import TypeRecovery.Proofs.Graph.Links
import TypeRecovery.Proofs.Graph.Locations
import TypeRecovery.Proofs.Graph.Mask
import TypeRecovery.Proofs.Graph.Range
import TypeRecovery.Proofs.Graph.References
import TypeRecovery.Proofs.Graph.SweepOrder
import TypeRecovery.Proofs.Graph.WideMask
import TypeRecovery.Proofs.Json.Reader
import TypeRecovery.Proofs.Json.RoundTrip
import TypeRecovery.Proofs.Recovery.Account
import TypeRecovery.Proofs.Recovery.Agreement
import TypeRecovery.Proofs.Recovery.Annotations
import TypeRecovery.Proofs.Recovery.Boolean
import TypeRecovery.Proofs.Recovery.Closure
import TypeRecovery.Proofs.Recovery.Counters
import TypeRecovery.Proofs.Recovery.Exceeded
import TypeRecovery.Proofs.Recovery.Fitting
import TypeRecovery.Proofs.Recovery.Fixpoint
import TypeRecovery.Proofs.Recovery.Flow
import TypeRecovery.Proofs.Recovery.Frame
import TypeRecovery.Proofs.Recovery.Monotone
import TypeRecovery.Proofs.Recovery.OpenEdges
import TypeRecovery.Proofs.Recovery.Outcome
import TypeRecovery.Proofs.Recovery.Replay
import TypeRecovery.Proofs.Recovery.Returns
import TypeRecovery.Proofs.Recovery.Round
import TypeRecovery.Proofs.Recovery.Run
import TypeRecovery.Proofs.Recovery.Size
import TypeRecovery.Proofs.Recovery.Stability
import TypeRecovery.Proofs.Recovery.StackFrame
import TypeRecovery.Proofs.Recovery.Trace
import TypeRecovery.Proofs.Recovery.Traversal
import TypeRecovery.Proofs.Recovery.UnionChoice
import TypeRecovery.Proofs.Report.Cycles
import TypeRecovery.Proofs.Report.Verify
import TypeRecovery.Proofs.Routine
import TypeRecovery.Proofs.Safety
import TypeRecovery.Proofs.Space
import TypeRecovery.Proofs.Transfer.Advance
import TypeRecovery.Proofs.Transfer.Carried
import TypeRecovery.Proofs.Transfer.Edge
import TypeRecovery.Proofs.Transfer.Hints
import TypeRecovery.Proofs.Transfer.Local
import TypeRecovery.Proofs.Transfer.Settled
import TypeRecovery.Recovery.Config
import TypeRecovery.Recovery.ConfigFile
import TypeRecovery.Recovery.Flow
import TypeRecovery.Recovery.Round
import TypeRecovery.Report.Basic
import TypeRecovery.Report.Flow
import TypeRecovery.Report.Verify
import TypeRecovery.Routine
import TypeRecovery.Scan
import TypeRecovery.Space
import TypeRecovery.Toml.Basic
import TypeRecovery.Toml.Reader
import TypeRecovery.Toml.Scalar
import TypeRecovery.Transfer.Edge
import TypeRecovery.Transfer.Local
import TypeRecovery.Word
