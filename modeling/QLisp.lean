import QLisp.Eval.Apply
import QLisp.Eval.Formals
import QLisp.Eval.Listing
import QLisp.Eval.Reduce
import QLisp.Eval.Scalar
import QLisp.Eval.World
import QLisp.File
import QLisp.Form.Basic
import QLisp.Form.Cursor
import QLisp.Form.ParseError
import QLisp.Form.Parser
import QLisp.Form.Position
import QLisp.Form.Token
import QLisp.Main
import QLisp.Number.Arithmetic
import QLisp.Number.Basic
import QLisp.Number.Decimal
import QLisp.Number.Numeral
import QLisp.Number.Rounding
import QLisp.Primitive
import QLisp.Program.CommandLine
import QLisp.Program.Library
import QLisp.Program.Repl
import QLisp.Program.Script
import QLisp.Program.Session
import QLisp.Proofs.BigStep
import QLisp.Proofs.Brackets
import QLisp.Proofs.Caller
import QLisp.Proofs.Censoring
import QLisp.Proofs.Chain
import QLisp.Proofs.Comparison
import QLisp.Proofs.Congruence
import QLisp.Proofs.Currying
import QLisp.Proofs.Form.Completion
import QLisp.Proofs.Form.Cursor
import QLisp.Proofs.Form.Descent
import QLisp.Proofs.Form.Enclosure
import QLisp.Proofs.Form.Grammar
import QLisp.Proofs.Form.InFile
import QLisp.Proofs.Form.Place
import QLisp.Proofs.Form.Printing
import QLisp.Proofs.Form.Progress
import QLisp.Proofs.Form.Reading
import QLisp.Proofs.Form.Scan
import QLisp.Proofs.Form.Shift
import QLisp.Proofs.Form.Token
import QLisp.Proofs.Form.Unclosed
import QLisp.Proofs.Formals
import QLisp.Proofs.Framing
import QLisp.Proofs.Functions
import QLisp.Proofs.Growth
import QLisp.Proofs.Guarding
import QLisp.Proofs.Likeness
import QLisp.Proofs.Loading
import QLisp.Proofs.Normal
import QLisp.Proofs.Number.Decimal
import QLisp.Proofs.Number.Numeral
import QLisp.Proofs.Number.Order
import QLisp.Proofs.Number.Remainder
import QLisp.Proofs.Number.Rounding
import QLisp.Proofs.Number.Whole
import QLisp.Proofs.Operations
import QLisp.Proofs.Passing
import QLisp.Proofs.Program.Bypass
import QLisp.Proofs.Program.Bypassing
import QLisp.Proofs.Program.BypassingSession
import QLisp.Proofs.Program.Capture
import QLisp.Proofs.Program.Chunk
import QLisp.Proofs.Program.Computing
import QLisp.Proofs.Program.Definition
import QLisp.Proofs.Program.Furnished
import QLisp.Proofs.Program.Hygiene
import QLisp.Proofs.Program.Library
import QLisp.Proofs.Program.Lists
import QLisp.Proofs.Program.Partition
import QLisp.Proofs.Program.Segment
import QLisp.Proofs.Program.Visits
import QLisp.Proofs.Program.Walks
import QLisp.Proofs.Refusal
import QLisp.Proofs.Resuming
import QLisp.Proofs.Rooted
import QLisp.Proofs.Scope
import QLisp.Proofs.Selection
import QLisp.Proofs.Settling
import QLisp.Proofs.Shared.Act
import QLisp.Proofs.Shared.Agreement
import QLisp.Proofs.Shared.Apart
import QLisp.Proofs.Shared.Applying
import QLisp.Proofs.Shared.Arithmetic
import QLisp.Proofs.Shared.Atomicity
import QLisp.Proofs.Shared.Binding
import QLisp.Proofs.Shared.Capture
import QLisp.Proofs.Shared.Container
import QLisp.Proofs.Shared.Contents
import QLisp.Proofs.Shared.Copying
import QLisp.Proofs.Shared.Currying
import QLisp.Proofs.Shared.Definition
import QLisp.Proofs.Shared.Depth
import QLisp.Proofs.Shared.Edit
import QLisp.Proofs.Shared.Entering
import QLisp.Proofs.Shared.Equality
import QLisp.Proofs.Shared.FileDiagnostics
import QLisp.Proofs.Shared.Follow
import QLisp.Proofs.Shared.FollowCall
import QLisp.Proofs.Shared.FollowLambda
import QLisp.Proofs.Shared.FollowList
import QLisp.Proofs.Shared.FollowReduce
import QLisp.Proofs.Shared.FollowScalar
import QLisp.Proofs.Shared.FollowStore
import QLisp.Proofs.Shared.Footprint
import QLisp.Proofs.Shared.Frame
import QLisp.Proofs.Shared.Given
import QLisp.Proofs.Shared.Glance
import QLisp.Proofs.Shared.Harmless
import QLisp.Proofs.Shared.Heap
import QLisp.Proofs.Shared.History
import QLisp.Proofs.Shared.HostIsolation
import QLisp.Proofs.Shared.IsolatingApply
import QLisp.Proofs.Shared.IsolatingEval
import QLisp.Proofs.Shared.IsolatingStore
import QLisp.Proofs.Shared.Isolation
import QLisp.Proofs.Shared.Keeping
import QLisp.Proofs.Shared.Library
import QLisp.Proofs.Shared.Limit
import QLisp.Proofs.Shared.Line
import QLisp.Proofs.Shared.Loading
import QLisp.Proofs.Shared.Mirror
import QLisp.Proofs.Shared.NormalForms
import QLisp.Proofs.Shared.Ordering
import QLisp.Proofs.Shared.Ownership
import QLisp.Proofs.Shared.Parallel
import QLisp.Proofs.Shared.Partition
import QLisp.Proofs.Shared.Path
import QLisp.Proofs.Shared.Reachable
import QLisp.Proofs.Shared.Refusal
import QLisp.Proofs.Shared.Repl
import QLisp.Proofs.Shared.Rereading
import QLisp.Proofs.Shared.ReservedNames
import QLisp.Proofs.Shared.Script
import QLisp.Proofs.Shared.Selection
import QLisp.Proofs.Shared.Session
import QLisp.Proofs.Shared.Source
import QLisp.Proofs.Shared.Termination
import QLisp.Proofs.Shared.Walks
import QLisp.Proofs.Shared.Within
import QLisp.Proofs.Source
import QLisp.Proofs.Symbols
import QLisp.Proofs.Text.ByteOrder
import QLisp.Proofs.Text.Quoted
import QLisp.Proofs.Text.Utf8
import QLisp.Proofs.Value.Alike
import QLisp.Proofs.Value.Diagnostic
import QLisp.Proofs.Value.Equality
import QLisp.Proofs.Value.Related
import QLisp.Proofs.Value.Spelling
import QLisp.Scope
import QLisp.Shared.Apply
import QLisp.Shared.Capacity
import QLisp.Shared.Command
import QLisp.Shared.Container
import QLisp.Shared.Handle
import QLisp.Shared.Heap
import QLisp.Shared.Host
import QLisp.Shared.ListOp
import QLisp.Shared.Machine
import QLisp.Shared.Reduce
import QLisp.Shared.Script
import QLisp.Shared.Session
import QLisp.Text.DecimalDigit
import QLisp.Text.Letter
import QLisp.Text.Printable
import QLisp.Text.Quoted
import QLisp.Text.Ranges
import QLisp.Text.Space
import QLisp.Text.Utf8
import QLisp.Value.Basic
import QLisp.Value.Failure
import QLisp.Value.OfForm
