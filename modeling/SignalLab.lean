import SignalLab.Main
import SignalLab.Proofs.Vocabulary.Binding
import SignalLab.Proofs.Expr.Meaning
import SignalLab.Proofs.Program.Simulation
import SignalLab.Proofs.Series.Window
import SignalLab.Proofs.Vocabulary.LookBack
import SignalLab.Proofs.Expr.Alignment
import SignalLab.Proofs.Compile.Evaluation
import SignalLab.Proofs.Compile.LookAhead
import SignalLab.Proofs.Backtest.Prefix
import SignalLab.Proofs.Compile.Extension
import SignalLab.Proofs.Grammar.Derivation
import SignalLab.Proofs.Grammar.Unambiguity
import SignalLab.Proofs.Grammar.Parsing
import SignalLab.Proofs.Backtest.Cost
import SignalLab.Proofs.Program.Substitution
import SignalLab.Proofs.Expr.Places
import SignalLab.Proofs.Expr.Printing
import SignalLab.Proofs.Vocabulary.Overlay
import SignalLab.Proofs.Compile.Faults
import SignalLab.Proofs.Trial.Outcome
import SignalLab.Proofs.Trial.Yearly
import SignalLab.Proofs.CommandLine.DryRun
import SignalLab.Proofs.CommandLine.Reading
import SignalLab.Proofs.Disk.Writing
import SignalLab.Proofs.CommandLine.Reporting
import SignalLab.Proofs.Token.Partition
import SignalLab.Proofs.Token.Lines
import SignalLab.Proofs.Compile.Layout
import SignalLab.Proofs.Grammar.FirstFault
import SignalLab.Proofs.Program.FirstViolation
import SignalLab.Proofs.Program.OperandGraph
import SignalLab.Proofs.Backtest.Textbook
import SignalLab.Proofs.Backtest.Bounds
import SignalLab.Proofs.Backtest.Reproduction
import SignalLab.Proofs.Backtest.Flat
import SignalLab.Proofs.Vocabulary.Aggregates
import SignalLab.Proofs.Series.Textbook
import SignalLab.Proofs.Number.Canonical
import SignalLab.Proofs.Vocabulary.Level
import SignalLab.Proofs.Compile.Composition
import SignalLab.Proofs.Number.Whole
import SignalLab.Proofs.Vocabulary.Derived
import SignalLab.Proofs.Market.Rows
import SignalLab.Proofs.Market.Latest
import SignalLab.Proofs.Market.Walk
import SignalLab.Proofs.Csv.Lines
import SignalLab.Proofs.Disk.Folders
import SignalLab.Proofs.Market.Lines
import SignalLab.Proofs.Market.Listing
import SignalLab.Proofs.Csv.Unquoted
import SignalLab.Proofs.Decimal.Nearest
import SignalLab.Proofs.Decimal.Plain
import SignalLab.Proofs.Report.Table
import SignalLab.Proofs.Diagnostic.Excerpt
import SignalLab.Proofs.Docstring.Comments
import SignalLab.Proofs.CommandLine.Requests
import SignalLab.Proofs.Settings.Acceptance
import SignalLab.Proofs.Market.Frequency
import SignalLab.Proofs.Program.Emission
import SignalLab.Proofs.Grammar.Conservation
import SignalLab.Proofs.Program.Listing
import SignalLab.Proofs.Grammar.Forward
import SignalLab.Proofs.Vocabulary.Indexed
import SignalLab.Proofs.Series.Length
