import CallReach.CallGraph.Basic
import CallReach.CallGraph.Build
import CallReach.CallGraph.Components
import CallReach.CallGraph.Dot
import CallReach.CallGraph.Reach
import CallReach.CallGraph.Statistics
import CallReach.CommandLine.Arguments
import CallReach.CommandLine.Run
import CallReach.CommandLine.Usage
import CallReach.Decimal.Binary64
import CallReach.Decimal.Numeral
import CallReach.Decimal.Shortest
import CallReach.Files.Fault
import CallReach.Files.Path
import CallReach.Files.System
import CallReach.Files.Tree
import CallReach.Json.Basic
import CallReach.Json.Printer
import CallReach.Json.Reader
import CallReach.Log
import CallReach.Main
import CallReach.Model.Basic
import CallReach.Model.Describe
import CallReach.Model.Edit
import CallReach.Model.FunctionSet
import CallReach.Options.Basic
import CallReach.Options.File
import CallReach.Pass
import CallReach.Reachability.Analysis
import CallReach.Reachability.Closure
import CallReach.Reachability.Result
import CallReach.Reachability.Walk
import CallReach.Reachability.Workspace
import CallReach.Report
import CallReach.Resolution
import CallReach.Sexpr.Basic
import CallReach.Sexpr.Format
import CallReach.Sexpr.Reader
import CallReach.Source.Basic
import CallReach.Source.Fault
import CallReach.Source.Install
import CallReach.Source.Reader
import CallReach.Text.Blank
import CallReach.Text.Digit
import CallReach.Text.Printable
import CallReach.Text.Quoted
import CallReach.Text.Utf8
import CallReach.Text.Wide
import CallReach.Ty.Basic
import CallReach.Ty.Spelling
import CallReach.TypeIndex
import CallReach.Proofs.Outcome
import CallReach.Proofs.Model.History
import CallReach.Proofs.Model.Members
import CallReach.Proofs.Resolution
import CallReach.Proofs.Candidates
import CallReach.Proofs.Reachability.Walk
import CallReach.Proofs.Reachability.Closure
import CallReach.Proofs.Reachability.LeastClosure
import CallReach.Proofs.CallGraph.Growth
import CallReach.Proofs.CallGraph.Mirror
import CallReach.Proofs.CallGraph.Components
import CallReach.Proofs.CallGraph.Building
import CallReach.Proofs.CallGraph.Reach
import CallReach.Proofs.Reachability.Refresh
import CallReach.Proofs.CallGraph.Annotated
import CallReach.Proofs.Reachability.Session
import CallReach.Proofs.Reachability.Review
import CallReach.Proofs.Report
import CallReach.Proofs.Reachability.Figures
import CallReach.Proofs.Source.Install
import CallReach.Proofs.Source.Reading
import CallReach.Proofs.Source.Analysable
import CallReach.Proofs.Source.Grammar
import CallReach.Proofs.Source.Surplus
import CallReach.Proofs.Source.Faithful
import CallReach.Proofs.CallGraph.Faithful
import CallReach.Proofs.Model.Revisions
import CallReach.Proofs.Reachability.Monotone
import CallReach.Proofs.CallGraph.Statistics
import CallReach.Proofs.CallGraph.Dot
import CallReach.Proofs.CallGraph.Lookups
import CallReach.Proofs.Reachability.Exploration
import CallReach.Proofs.Reachability.Preorder
import CallReach.Proofs.Reachability.Rounds
import CallReach.Proofs.Pass
import CallReach.Proofs.Text.Utf8
import CallReach.Proofs.Text.Words
import CallReach.Proofs.Ty.Layout
import CallReach.Proofs.Ty.Printing
import CallReach.Proofs.Json.Limits
import CallReach.Proofs.Options.Precedence
import CallReach.Proofs.Options.Loading
import CallReach.Proofs.Files.Homes
import CallReach.Proofs.Files.Writing
import CallReach.Proofs.CommandLine.Words
import CallReach.Proofs.CommandLine.Commands
import CallReach.Proofs.CommandLine.Options
import CallReach.Proofs.CommandLine.Endings
import CallReach.Proofs.CommandLine.Run
import CallReach.Proofs.CommandLine.OptionsFile
