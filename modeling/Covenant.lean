import Covenant.Alias.Name
import Covenant.Alias.Table
import Covenant.Bridge.Client
import Covenant.Bridge.Host
import Covenant.Bridge.Message
import Covenant.Bridge.Worker
import Covenant.Channel.Endpoint
import Covenant.Channel.Segment
import Covenant.Command.Arguments
import Covenant.Command.Run
import Covenant.Data.NameMap
import Covenant.Encoding.Basic
import Covenant.Encoding.Body
import Covenant.Encoding.Expression
import Covenant.Files.Path
import Covenant.Files.Tree
import Covenant.Json.Number
import Covenant.Json.Parse
import Covenant.Json.Print
import Covenant.Json.Reader
import Covenant.Json.Tree
import Covenant.Json.Value
import Covenant.Main
import Covenant.Model.Class
import Covenant.Model.Expression
import Covenant.Model.Json
import Covenant.Model.Location
import Covenant.Model.NameTable
import Covenant.Model.Statement
import Covenant.Model.TypeRef
import Covenant.Model.Variable
import Covenant.Operator
import Covenant.Proofs.Alias.Family
import Covenant.Proofs.Alias.Text
import Covenant.Proofs.Bridge.Host
import Covenant.Proofs.Bridge.Message
import Covenant.Proofs.Bridge.Transparency
import Covenant.Proofs.Channel.Endpoint
import Covenant.Proofs.Channel.Exchange
import Covenant.Proofs.Channel.Queue
import Covenant.Proofs.Data.Except
import Covenant.Proofs.Data.NameMap
import Covenant.Proofs.Encoding.Definitions
import Covenant.Proofs.Encoding.Entry
import Covenant.Proofs.Encoding.Errors
import Covenant.Proofs.Encoding.Expression
import Covenant.Proofs.Encoding.Growth
import Covenant.Proofs.Encoding.Run
import Covenant.Proofs.Encoding.Simulation
import Covenant.Proofs.Encoding.Steps
import Covenant.Proofs.Execution.Calls
import Covenant.Proofs.Json.Parse
import Covenant.Proofs.Json.Print
import Covenant.Proofs.Json.Reader
import Covenant.Proofs.Model.Unsupported
import Covenant.Proofs.Search.Candidate
import Covenant.Proofs.Search.Counterexample
import Covenant.Proofs.Search.Plan
import Covenant.Proofs.Search.Soundness
import Covenant.Proofs.Term.Eval
import Covenant.Proofs.Term.Json
import Covenant.Proofs.Text.Utf8
import Covenant.Proofs.Verify.Answers
import Covenant.Proofs.Verify.Clause
import Covenant.Proofs.Verify.Gate
import Covenant.Proofs.Verify.Genuine
import Covenant.Proofs.Verify.Ghosts
import Covenant.Proofs.Verify.Initial
import Covenant.Proofs.Verify.Method
import Covenant.Proofs.Verify.Queries
import Covenant.Proofs.Verify.Query
import Covenant.Proofs.Verify.Report
import Covenant.Proofs.Verify.SolvingOrder
import Covenant.Proofs.Verify.Sorts
import Covenant.Proofs.Verify.Soundness
import Covenant.Report.Basic
import Covenant.Report.Counterexample
import Covenant.Report.Json
import Covenant.Report.Text
import Covenant.Report.Violation
import Covenant.Search.Cursor
import Covenant.Search.Plan
import Covenant.Search.Run
import Covenant.Search.Window
import Covenant.Settings.Basic
import Covenant.Settings.Discovery
import Covenant.Settings.Toml
import Covenant.Solver
import Covenant.Term.Basic
import Covenant.Term.Eval
import Covenant.Term.Json
import Covenant.Term.Smt
import Covenant.Text.Printable
import Covenant.Text.Quoted
import Covenant.Text.Utf8
import Covenant.Toml.Document
import Covenant.Toml.Number
import Covenant.Toml.Scan
import Covenant.Toml.Text
import Covenant.Toml.Value
import Covenant.Verify.Engine
import Covenant.Verify.Goal
import Covenant.Verify.Obligation
import Covenant.Proofs.Channel.Delivery
import Covenant.Proofs.Channel.Capacity
import Covenant.Proofs.Channel.Closing
import Covenant.Proofs.Channel.Ends
import Covenant.Proofs.Bridge.Session
import Covenant.Proofs.Bridge.Log
import Covenant.Proofs.Bridge.Schedule
import Covenant.Proofs.Bridge.Agreement
import Covenant.Proofs.Bridge.Frame
import Covenant.Proofs.Search.Exhaustive
import Covenant.Proofs.Model.NameTable
import Covenant.Proofs.Model.Json
import Covenant.Proofs.Bridge.Peer
import Covenant.Proofs.Model.File
import Covenant.Proofs.Bridge.Blame
import Covenant.Proofs.Bridge.Failure
import Covenant.Proofs.Search.Widening
import Covenant.Proofs.Alias.Merge
import Covenant.Proofs.Alias.Forks
import Covenant.Proofs.Encoding.Typing
import Covenant.Proofs.Encoding.Acceptance
import Covenant.Proofs.Encoding.Setup
import Covenant.Proofs.Execution.Faults
import Covenant.Proofs.Verify.InitialValues
import Covenant.Proofs.Model.Index
import Covenant.Proofs.Model.Tables
import Covenant.Proofs.Encoding.Boundary
import Covenant.Proofs.Bridge.Reply
import Covenant.Proofs.Report.Mapping
import Covenant.Proofs.Verify.Counterexamples
import Covenant.Proofs.Alias.Reading
import Covenant.Proofs.Term.Definedness
import Covenant.Proofs.Term.Sexp
import Covenant.Proofs.Term.Readability
import Covenant.Proofs.Files.Path
import Covenant.Proofs.Files.Tree
import Covenant.Proofs.Settings.Discovery
