import SsaOpt.Cbor.Access
import SsaOpt.Cbor.Item
import SsaOpt.Cbor.Reader
import SsaOpt.Checker
import SsaOpt.Command
import SsaOpt.Config.Basic
import SsaOpt.Config.Load
import SsaOpt.Config.Reader
import SsaOpt.Diagnostic.Basic
import SsaOpt.Diagnostic.Draft
import SsaOpt.Diagnostic.Printer
import SsaOpt.Disk.Basic
import SsaOpt.Disk.Tree
import SsaOpt.Error
import SsaOpt.Flow.CallGraph
import SsaOpt.Flow.Components
import SsaOpt.Flow.Dominators
import SsaOpt.Flow.Graph
import SsaOpt.Flow.Loops
import SsaOpt.Flow.Search
import SsaOpt.Flow.UseDef
import SsaOpt.Interchange.Codec
import SsaOpt.Interchange.Record
import SsaOpt.Ir.Builder
import SsaOpt.Ir.Defect
import SsaOpt.Ir.Edit
import SsaOpt.Ir.Fingerprint
import SsaOpt.Ir.Instr
import SsaOpt.Ir.Listing
import SsaOpt.Ir.Module
import SsaOpt.Ir.Printer
import SsaOpt.Literal
import SsaOpt.Main
import SsaOpt.Pass.Basic
import SsaOpt.Pass.Builtin
import SsaOpt.Pass.Cache
import SsaOpt.Pass.ConstEval
import SsaOpt.Pass.ConstFold
import SsaOpt.Pass.DeadCode
import SsaOpt.Pass.Inline
import SsaOpt.Pass.Manager
import SsaOpt.Pass.Registry
import SsaOpt.Pass.Script
import SsaOpt.Pass.Splice
import SsaOpt.Path
import SsaOpt.Phase
import SsaOpt.Pipeline.Basic
import SsaOpt.Pipeline.Files
import SsaOpt.Pipeline.Summary
import SsaOpt.Proofs.Addresses
import SsaOpt.Proofs.Arithmetic
import SsaOpt.Proofs.BuiltinRuns
import SsaOpt.Proofs.CachedCalls
import SsaOpt.Proofs.CallGraph
import SsaOpt.Proofs.CallReplacement
import SsaOpt.Proofs.CallSite
import SsaOpt.Proofs.Canonical
import SsaOpt.Proofs.CanonicalInlining
import SsaOpt.Proofs.CanonicalPasses
import SsaOpt.Proofs.CanonicalRuns
import SsaOpt.Proofs.ChainUpdates
import SsaOpt.Proofs.ChangeCounts
import SsaOpt.Proofs.Coherence
import SsaOpt.Proofs.Components
import SsaOpt.Proofs.Counters
import SsaOpt.Proofs.CoupledRuns
import SsaOpt.Proofs.CriticalInstrs
import SsaOpt.Proofs.DeadCode
import SsaOpt.Proofs.DeadCodeFailures
import SsaOpt.Proofs.DeadCodeRuns
import SsaOpt.Proofs.Dominance
import SsaOpt.Proofs.Dominators
import SsaOpt.Proofs.Execution
import SsaOpt.Proofs.FileCalls
import SsaOpt.Proofs.FileRuns
import SsaOpt.Proofs.FlowGraph
import SsaOpt.Proofs.Folding
import SsaOpt.Proofs.FoldingFailures
import SsaOpt.Proofs.FoldingFixpoint
import SsaOpt.Proofs.FoldingRuns
import SsaOpt.Proofs.FreshNumbers
import SsaOpt.Proofs.FunctionRuns
import SsaOpt.Proofs.History
import SsaOpt.Proofs.InlineDefects
import SsaOpt.Proofs.InlineRuns
import SsaOpt.Proofs.InlineScan
import SsaOpt.Proofs.Inlining
import SsaOpt.Proofs.IntegerArithmetic
import SsaOpt.Proofs.IntegerConstants
import SsaOpt.Proofs.Invocations
import SsaOpt.Proofs.ItemBytes
import SsaOpt.Proofs.KeptRules
import SsaOpt.Proofs.Legible
import SsaOpt.Proofs.LiteralValues
import SsaOpt.Proofs.Literals
import SsaOpt.Proofs.LostReads
import SsaOpt.Proofs.ManagerRuns
import SsaOpt.Proofs.ModifiedFlag
import SsaOpt.Proofs.NaturalLoops
import SsaOpt.Proofs.Numbering
import SsaOpt.Proofs.PassEffects
import SsaOpt.Proofs.PassRuns
import SsaOpt.Proofs.PhiCompleteness
import SsaOpt.Proofs.PrintedLines
import SsaOpt.Proofs.Records
import SsaOpt.Proofs.Refusals
import SsaOpt.Proofs.Registration
import SsaOpt.Proofs.ReversePostorder
import SsaOpt.Proofs.RoundLimit
import SsaOpt.Proofs.RoundTrip
import SsaOpt.Proofs.RunOrder
import SsaOpt.Proofs.Schedule
import SsaOpt.Proofs.Search
import SsaOpt.Proofs.Simulation
import SsaOpt.Proofs.Splice
import SsaOpt.Proofs.Splitting
import SsaOpt.Proofs.StructuralRules
import SsaOpt.Proofs.TextRuns
import SsaOpt.Proofs.UnreportedChanges
import SsaOpt.Proofs.Walks
import SsaOpt.Proofs.WellFormed
import SsaOpt.Text.Blank
import SsaOpt.Text.Color
import SsaOpt.Text.Directive
import SsaOpt.Text.Hex
import SsaOpt.Text.Numeral
import SsaOpt.Text.Printable
import SsaOpt.Text.Quoted
import SsaOpt.Text.Utf8
import SsaOpt.Toml.Document
import SsaOpt.Toml.Number
import SsaOpt.Toml.Parser
import SsaOpt.Toml.Syntax
import SsaOpt.Ty
