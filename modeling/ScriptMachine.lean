import ScriptMachine.Bytecode.Assembly
import ScriptMachine.Bytecode.Constant
import ScriptMachine.Bytecode.Coverage
import ScriptMachine.Bytecode.Cursor
import ScriptMachine.Bytecode.Image.Basic
import ScriptMachine.Bytecode.Image.Reader
import ScriptMachine.Bytecode.Link
import ScriptMachine.Bytecode.Listing
import ScriptMachine.Bytecode.LoadError
import ScriptMachine.Bytecode.Module
import ScriptMachine.Bytecode.Opcode
import ScriptMachine.Bytecode.Word
import ScriptMachine.Bytes
import ScriptMachine.Command.Options
import ScriptMachine.Command.Report
import ScriptMachine.Document.Basic
import ScriptMachine.Document.Reader
import ScriptMachine.Document.Text
import ScriptMachine.Document.Token
import ScriptMachine.Embedding
import ScriptMachine.Execution
import ScriptMachine.Fault
import ScriptMachine.Heap
import ScriptMachine.Host.Functions
import ScriptMachine.Host.Program
import ScriptMachine.Host.Script
import ScriptMachine.Iteration
import ScriptMachine.Library
import ScriptMachine.Machine.Access
import ScriptMachine.Machine.Calls
import ScriptMachine.Machine.Closures
import ScriptMachine.Machine.Dispatch
import ScriptMachine.Machine.Frame
import ScriptMachine.Machine.Load
import ScriptMachine.Machine.Loops
import ScriptMachine.Machine.State
import ScriptMachine.Machine.Step
import ScriptMachine.Main
import ScriptMachine.Number.Basic
import ScriptMachine.Number.Decimal
import ScriptMachine.Number.Numeral
import ScriptMachine.Number.Shortest
import ScriptMachine.Operator.Basic
import ScriptMachine.Operator.Evaluation
import ScriptMachine.Proofs.Bytecode.Acceptance
import ScriptMachine.Proofs.Bytecode.Amplification
import ScriptMachine.Proofs.Bytecode.Blocks
import ScriptMachine.Proofs.Bytecode.Buffers
import ScriptMachine.Proofs.Bytecode.Counts
import ScriptMachine.Proofs.Bytecode.CoverageReports
import ScriptMachine.Proofs.Bytecode.Drafts
import ScriptMachine.Proofs.Bytecode.Economy
import ScriptMachine.Proofs.Bytecode.Extent
import ScriptMachine.Proofs.Bytecode.Fields
import ScriptMachine.Proofs.Bytecode.Images
import ScriptMachine.Proofs.Bytecode.Imports
import ScriptMachine.Proofs.Bytecode.Jumps
import ScriptMachine.Proofs.Bytecode.Lines
import ScriptMachine.Proofs.Bytecode.Loading
import ScriptMachine.Proofs.Bytecode.Parts
import ScriptMachine.Proofs.Bytecode.Paths
import ScriptMachine.Proofs.Bytecode.Reading
import ScriptMachine.Proofs.Bytecode.Respelling
import ScriptMachine.Proofs.Bytecode.RoundTrip
import ScriptMachine.Proofs.Bytecode.Spelling
import ScriptMachine.Proofs.Bytecode.Validity
import ScriptMachine.Proofs.Bytecode.Walks
import ScriptMachine.Proofs.Calls.Arguments
import ScriptMachine.Proofs.Calls.Declining
import ScriptMachine.Proofs.Calls.Depth
import ScriptMachine.Proofs.Calls.HookCounts
import ScriptMachine.Proofs.Calls.Isolation
import ScriptMachine.Proofs.Calls.OpenArity
import ScriptMachine.Proofs.Calls.Unaware
import ScriptMachine.Proofs.Calls.Waiting
import ScriptMachine.Proofs.Capture.Arity
import ScriptMachine.Proofs.Capture.Closures
import ScriptMachine.Proofs.Capture.Frames
import ScriptMachine.Proofs.Capture.Lifetime
import ScriptMachine.Proofs.Capture.Scopes
import ScriptMachine.Proofs.Capture.Sessions
import ScriptMachine.Proofs.Capture.Sharing
import ScriptMachine.Proofs.Flow.Counters
import ScriptMachine.Proofs.Flow.Failures
import ScriptMachine.Proofs.Flow.Imports
import ScriptMachine.Proofs.Flow.Interrupts
import ScriptMachine.Proofs.Flow.Runs
import ScriptMachine.Proofs.Flow.Slots
import ScriptMachine.Proofs.Flow.Versions
import ScriptMachine.Proofs.Flow.Ways
import ScriptMachine.Proofs.Loops.Agreement
import ScriptMachine.Proofs.Loops.Bridges
import ScriptMachine.Proofs.Loops.Continuation
import ScriptMachine.Proofs.Loops.Counting
import ScriptMachine.Proofs.Loops.Laps
import ScriptMachine.Proofs.Loops.Leading
import ScriptMachine.Proofs.Loops.Rounds
import ScriptMachine.Proofs.Loops.Traversals
import ScriptMachine.Proofs.Machine.Blindness
import ScriptMachine.Proofs.Machine.Closing
import ScriptMachine.Proofs.Machine.Commuting
import ScriptMachine.Proofs.Machine.Divergence
import ScriptMachine.Proofs.Machine.Endings
import ScriptMachine.Proofs.Machine.Hosts
import ScriptMachine.Proofs.Machine.Keeping
import ScriptMachine.Proofs.Machine.Looking
import ScriptMachine.Proofs.Machine.Operations
import ScriptMachine.Proofs.Machine.Outcomes
import ScriptMachine.Proofs.Machine.Patches
import ScriptMachine.Proofs.Machine.Raising
import ScriptMachine.Proofs.Machine.Registers
import ScriptMachine.Proofs.Machine.Reports
import ScriptMachine.Proofs.Machine.Sightings
import ScriptMachine.Proofs.Machine.Sparing
import ScriptMachine.Proofs.Machine.Steps
import ScriptMachine.Proofs.Machine.Transparency
import ScriptMachine.Proofs.Machine.Worlds
import ScriptMachine.Proofs.Number.Bases
import ScriptMachine.Proofs.Number.Hexadecimal
import ScriptMachine.Proofs.Number.Integers
import ScriptMachine.Proofs.Number.Packing
import ScriptMachine.Proofs.Number.Printing
import ScriptMachine.Proofs.Number.Products
import ScriptMachine.Proofs.Number.Values
import ScriptMachine.Proofs.Settings.Updates
import ScriptMachine.Proofs.Table.Border
import ScriptMachine.Proofs.Table.Compaction
import ScriptMachine.Proofs.Table.FiniteMap
import ScriptMachine.Proofs.Table.Invariant
import ScriptMachine.Proofs.Table.Keyed
import ScriptMachine.Proofs.Table.Keys
import ScriptMachine.Proofs.Table.Order
import ScriptMachine.Proofs.Table.Representation
import ScriptMachine.Proofs.Table.Retrieval
import ScriptMachine.Proofs.Table.Slots
import ScriptMachine.Proofs.Table.Store
import ScriptMachine.Proofs.Table.Traversal
import ScriptMachine.Settings
import ScriptMachine.Settings.Document
import ScriptMachine.Table.Basic
import ScriptMachine.Table.Key
import ScriptMachine.Upvalue
import ScriptMachine.Value
import ScriptMachine.World
