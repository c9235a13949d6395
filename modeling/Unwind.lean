import Unwind.Span
import Unwind.Fault
import Unwind.Log
import Unwind.Source.Program
import Unwind.Ir.Printer
import Unwind.Json.Writer
import Unwind.Json.Reader
import Unwind.Source.Codec.Program
import Unwind.Ir.Codec
import Unwind.Options
import Unwind.Diagnostic
import Unwind.Hierarchy.Overrides
import Unwind.LabelScopes
import Unwind.Registry
import Unwind.Dispatch.Expansion
import Unwind.Lowering.Method
import Unwind.Compilation
import Unwind.Main
import Unwind.Proofs.Hierarchy.SubtypeIndex
import Unwind.Proofs.Hierarchy.Overrides
import Unwind.Proofs.Hierarchy.Implementations
import Unwind.Proofs.Hierarchy.Reachability
import Unwind.Proofs.Hierarchy.DeclarationOrder
import Unwind.Proofs.Hierarchy.NewSlots
import Unwind.Proofs.Machine
import Unwind.Proofs.Names
import Unwind.Proofs.Execution
import Unwind.Proofs.Paths
import Unwind.Proofs.Scopes
import Unwind.Proofs.Lowering.Steps
import Unwind.Proofs.Lowering.Leaf
import Unwind.Proofs.Lowering.Expressions
import Unwind.Proofs.Lowering.Listing
import Unwind.Proofs.Lowering.Sound
import Unwind.Proofs.Lowering.Laid
import Unwind.Proofs.Lowering.Labels
import Unwind.Proofs.Lowering.Regions
import Unwind.Proofs.Lowering.Sites
import Unwind.Proofs.Lowering.Tags
import Unwind.Proofs.JumpTargets
import Unwind.Proofs.FinallyJumps
import Unwind.Proofs.Modes.Operands
import Unwind.Proofs.Modes.Pairing
import Unwind.Proofs.Modes.Expressions
import Unwind.Proofs.Modes.Rest
import Unwind.Proofs.Modes.Running
import Unwind.Proofs.Modes.Stages
import Unwind.Proofs.Modes.Jumps
import Unwind.Proofs.Modes.Statements
import Unwind.Proofs.Modes.Agreement
import Unwind.Proofs.Returns
import Unwind.Proofs.Structured
import Unwind.Proofs.Accepts
import Unwind.Proofs.Simulation
import Unwind.Proofs.Unwinding
import Unwind.Proofs.Instrumentation
import Unwind.Proofs.Lowering.Landing
import Unwind.Proofs.GotoUnwinding
import Unwind.Proofs.Compilation.Isolation
import Unwind.Proofs.Compilation.Declarations
import Unwind.Proofs.Json.RoundTrip
import Unwind.Proofs.Literals.Compilation
import Unwind.Proofs.Compilation.HelperCalls
import Unwind.Proofs.Compilation.MarkNumbers
import Unwind.Proofs.Dispatch.Idempotence
import Unwind.Proofs.Dispatch.Receivers
import Unwind.Proofs.Dispatch.Selection
import Unwind.Proofs.Modules.Compilation
import Unwind.Proofs.Evaluation.Effects
import Unwind.Proofs.Evaluation.Soundness
import Unwind.Proofs.Evaluation.Acceptance
import Unwind.Proofs.Evaluation.Operands
import Unwind.Proofs.Evaluation.Places
import Unwind.Proofs.Operands.Bodies
import Unwind.Proofs.Operands.Methods
import Unwind.Proofs.Pinned.Statements
import Unwind.Proofs.Hierarchy.DirectSubtypes
import Unwind.Proofs.Enclosing
import Unwind.Proofs.Dispatch.Landmarks
import Unwind.Proofs.Lowering.Balance
import Unwind.Proofs.Lowering.Allocation
import Unwind.Proofs.Text.Readable
import Unwind.Proofs.Variables.Methods
import Unwind.Proofs.Variables.Recorded
import Unwind.Proofs.Bookkeeping.Bodies
import Unwind.Proofs.Switch.Running
