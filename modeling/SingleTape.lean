import SingleTape.Catalogue
import SingleTape.CommandLine.Options
import SingleTape.CommandLine.Session
import SingleTape.Config
import SingleTape.Direction
import SingleTape.Encoding
import SingleTape.Engine
import SingleTape.Error
import SingleTape.Files
import SingleTape.Job
import SingleTape.Json
import SingleTape.Json.Parser
import SingleTape.Json.Printer
import SingleTape.Json.Quoted
import SingleTape.Json.Record
import SingleTape.Json.Token
import SingleTape.Listeners
import SingleTape.Loader
import SingleTape.Machine
import SingleTape.Main
import SingleTape.Position
import SingleTape.Program
import SingleTape.Program.Compile
import SingleTape.Program.Line
import SingleTape.Snapshot
import SingleTape.StateId
import SingleTape.Symbol
import SingleTape.Table
import SingleTape.Table.Check
import SingleTape.Table.Reachable
import SingleTape.Tape
import SingleTape.Text
import SingleTape.World
import SingleTape.Proofs.ForStd.ExtTreeMap
import SingleTape.Proofs.ForStd.List
import SingleTape.Proofs.Program.LineFormat
import SingleTape.Proofs.Program.Placement
import SingleTape.Proofs.Table.Listing
import SingleTape.Proofs.Table.Exploration
import SingleTape.Proofs.Table.Traversal
import SingleTape.Proofs.Program.Validity
import SingleTape.Proofs.Program.Diagnostics
import SingleTape.Proofs.Program.Writing
import SingleTape.Proofs.Program.Grammar
import SingleTape.Proofs.Tape.Symbols
import SingleTape.Proofs.Tape.Shift
import SingleTape.Proofs.Tape.Sides
import SingleTape.Proofs.Tape.FiniteMap
import SingleTape.Proofs.Tape.Contents
import SingleTape.Proofs.Machine.Steps
import SingleTape.Proofs.Machine.Symbols
import SingleTape.Proofs.Machine.Operations
import SingleTape.Proofs.Machine.Restored
import SingleTape.Proofs.Machine.Textbook
import SingleTape.Proofs.Machine.Checked
import SingleTape.Proofs.Machine.Shift
import SingleTape.Proofs.Machine.Sides
import SingleTape.Proofs.Machine.Stretch
import SingleTape.Proofs.Json.Text
import SingleTape.Proofs.Json.Order
import SingleTape.Proofs.Encoding.RoundTrip
import SingleTape.Proofs.Job.Protocol
import SingleTape.Proofs.Machine.Halting
import SingleTape.Proofs.Job.Progress
import SingleTape.Proofs.Job.Chunks
import SingleTape.Proofs.Engine.Calls
import SingleTape.Proofs.Engine.Listeners
import SingleTape.Proofs.Engine.Subscriptions
import SingleTape.Proofs.Engine.Channels
import SingleTape.Proofs.World.Run
import SingleTape.Proofs.World.Reached
import SingleTape.Proofs.World.Schedule
import SingleTape.Proofs.World.Computation
import SingleTape.Proofs.World.Preconditions
import SingleTape.Proofs.World.Refusals
import SingleTape.Proofs.World.Survival
import SingleTape.Proofs.World.Notices
import SingleTape.Proofs.CommandLine.Lines
import SingleTape.Proofs.CommandLine.Play
import SingleTape.Proofs.CommandLine.Modes
import SingleTape.Proofs.Job.Cancellation
import SingleTape.Proofs.Job.Stepwise
import SingleTape.Proofs.Job.Stopping
import SingleTape.Proofs.Text.Trim
import SingleTape.Proofs.Program.Offset
import SingleTape.Proofs.World.Requests
import SingleTape.Proofs.Program.Statements
import SingleTape.Proofs.Program.Layout
import SingleTape.Proofs.Program.Headers
