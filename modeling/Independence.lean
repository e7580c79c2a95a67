import Independence.Source.Span
import Independence.Source.Position
import Independence.Source.Lines
import Independence.Text.Unprintable
import Independence.Text.Extending
import Independence.Text.Quoted
import Independence.Text.Blank
import Independence.Text.ZeroWidth
import Independence.Decimal.Binary64
import Independence.Decimal.Shortest
import Independence.Decimal.Numeral
import Independence.Heap.Ident
import Independence.Heap.Value
import Independence.Heap.Effects
import Independence.Heap.Store
import Independence.Program.Signature
import Independence.Program.Placeholder
import Independence.Program.Body
import Independence.Program.Model
import Independence.Evaluation.Event
import Independence.Evaluation.Run
import Independence.Evaluation.Evaluator
import Independence.Evaluation.Playback
import Independence.Report.Diagnostic
import Independence.Report.Reporter
import Independence.Report.Rule
import Independence.Report.Mark
import Independence.Report.Drawing
import Independence.Report.Excerpt
import Independence.Settings
import Independence.Analysis.Record
import Independence.Analysis.Table
import Independence.Analysis.Traversal
import Independence.Analysis.Failure
import Independence.Analysis.Session
import Independence.Analysis.Capture
import Independence.Analysis.Discovery
import Independence.Analysis.Interference
import Independence.Analysis.Checker
import Independence.Document
import Independence.Proofs.Heap.Commit
import Independence.Proofs.Program.Objects
import Independence.Proofs.Program.Placeholder
import Independence.Proofs.Program.Supply
import Independence.Proofs.Source.Position
import Independence.Proofs.Source.Lines
import Independence.Proofs.Evaluation.Renaming
import Independence.Proofs.Evaluation.Simulation
import Independence.Proofs.Evaluation.Trace
import Independence.Proofs.Evaluation.Progress
import Independence.Proofs.Report.Reporter
import Independence.Proofs.Report.References
import Independence.Proofs.Evaluation.Announcement
import Independence.Proofs.Evaluation.Freshness
import Independence.Proofs.Evaluation.Reproduction
import Independence.Proofs.Evaluation.Baseline
import Independence.Proofs.Evaluation.Obedience
import Independence.Proofs.Evaluation.Agreement
import Independence.Proofs.Evaluation.ScopedCommit
import Independence.Proofs.Evaluation.DirectExecution
import Independence.Proofs.Evaluation.Chronicle
import Independence.Proofs.Evaluation.Course
import Independence.Proofs.Evaluation.CallStack
import Independence.Proofs.Evaluation.Endings
import Independence.Proofs.Analysis.Ancestry
import Independence.Proofs.Analysis.Walks
import Independence.Proofs.Analysis.Steps
import Independence.Proofs.Analysis.Completions
import Independence.Proofs.Analysis.Alike
import Independence.Proofs.Analysis.Discovery
import Independence.Proofs.Analysis.Accesses
import Independence.Proofs.Analysis.Replay
import Independence.Proofs.Analysis.Conflicts
import Independence.Proofs.Analysis.Soundness
import Independence.Proofs.Analysis.Order
import Independence.Proofs.Analysis.Processing
import Independence.Proofs.Analysis.Telling
import Independence.Proofs.Analysis.Restoration
import Independence.Proofs.Analysis.Forest
import Independence.Proofs.Analysis.Pairwise
import Independence.Proofs.Analysis.Reporting
import Independence.Proofs.Analysis.Accounts
import Independence.Proofs.Analysis.Displacement
import Independence.Proofs.Analysis.Lockstep
import Independence.Proofs.Analysis.Correspondence
import Independence.Proofs.Analysis.Phases
import Independence.Proofs.Analysis.Counting
import Independence.Proofs.Analysis.Verdict
import Independence.Proofs.Analysis.Repetition
import Independence.Proofs.Analysis.Extension
import Independence.Proofs.Analysis.RootOrder
import Independence.Proofs.Analysis.Disclosure
import Independence.Proofs.Analysis.Discipline
import Independence.Proofs.Analysis.Levels
import Independence.Proofs.Analysis.Nesting
import Independence.Proofs.Analysis.Turns
import Independence.Proofs.Analysis.Classification
import Independence.Proofs.Analysis.Concord
import Independence.Proofs.Analysis.Outcomes
import Independence.Proofs.Analysis.Redundancy
import Independence.Proofs.Analysis.Leniency
import Independence.Proofs.Analysis.Naming
import Independence.Proofs.Analysis.Attribution
import Independence.Proofs.Evaluation.Unrolling
import Independence.Proofs.Analysis.Translation
import Independence.Proofs.Analysis.Unrolling
import Independence.Proofs.Report.Deciding
import Independence.Proofs.Analysis.Scopes
import Independence.Proofs.Evaluation.Ledger
import Independence.Proofs.Analysis.Journal
import Independence.Proofs.Analysis.Identities
