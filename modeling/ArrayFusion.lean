import ArrayFusion.Command.Files
import ArrayFusion.Command.Directory
import ArrayFusion.Command.Invocation
import ArrayFusion.Syntax.Name
import ArrayFusion.Text.Visibility
import ArrayFusion.Text.Quoted
import ArrayFusion.Syntax.Ty
import ArrayFusion.Decimal.Shortest
import ArrayFusion.Decimal.Layout
import ArrayFusion.Syntax.Operator
import ArrayFusion.Eval.Error
import ArrayFusion.Json.Basic
import ArrayFusion.Json.Decode
import ArrayFusion.Eval.Value
import ArrayFusion.Eval.Env
import ArrayFusion.Eval.Arrays
import ArrayFusion.Eval.Operator
import ArrayFusion.Source.Span
import ArrayFusion.Syntax.Exp
import ArrayFusion.Eval.Evaluator
import ArrayFusion.Eval.Session
import ArrayFusion.Fusion.Config
import ArrayFusion.Syntax.Printer
import ArrayFusion.Fusion.Error
import ArrayFusion.Syntax.Traverse
import ArrayFusion.Syntax.Freshen
import ArrayFusion.Syntax.FreeVars
import ArrayFusion.Fusion.Stage
import ArrayFusion.Fusion.Kernel
import ArrayFusion.Fusion.Composition
import ArrayFusion.Fusion.Decision
import ArrayFusion.Data.Table
import ArrayFusion.Fusion.Registry
import ArrayFusion.Fusion.Emission
import ArrayFusion.Syntax.Occurrence
import ArrayFusion.Fusion.Analysis
import ArrayFusion.Fusion.Report
import ArrayFusion.Fusion.Pass
import ArrayFusion.Json.Number
import ArrayFusion.Json.Token
import ArrayFusion.Json.Document
import ArrayFusion.Json.Printer
import ArrayFusion.Syntax.Encoding
import ArrayFusion.Syntax.Decoding
import ArrayFusion.Command.Run
import ArrayFusion.Main
import ArrayFusion.Syntax.Equality
import ArrayFusion.Syntax.Symbol
import ArrayFusion.Proofs.Outcome
import ArrayFusion.Proofs.Scope
import ArrayFusion.Proofs.Agreement
import ArrayFusion.Proofs.Emission
import ArrayFusion.Proofs.Composites
import ArrayFusion.Proofs.CoherentPass
import ArrayFusion.Proofs.NormalPass
import ArrayFusion.Proofs.Sharing
import ArrayFusion.Proofs.Escaping
import ArrayFusion.Proofs.Reporting
import ArrayFusion.Proofs.Sessions
import ArrayFusion.Proofs.DecisionLog
import ArrayFusion.Proofs.CertificatesKept
import ArrayFusion.Proofs.Exposure
import ArrayFusion.Proofs.Faithful
import ArrayFusion.Proofs.Gluing
import ArrayFusion.Proofs.Simulation
import ArrayFusion.Proofs.FreeNames
import ArrayFusion.Proofs.FusedKernels
import ArrayFusion.Proofs.SavedPrograms
import ArrayFusion.Proofs.GluedComposites
import ArrayFusion.Proofs.Preservation
import ArrayFusion.Proofs.Hygiene
import ArrayFusion.Proofs.Uncalled
import ArrayFusion.Proofs.PulledTransposes
import ArrayFusion.Proofs.FreshNames
import ArrayFusion.Proofs.Recipes
import ArrayFusion.Proofs.ClosedComposites
import ArrayFusion.Proofs.Prefixes
import ArrayFusion.Proofs.Updates
import ArrayFusion.Proofs.ResultShapes
import ArrayFusion.Proofs.Coalescing
import ArrayFusion.Proofs.Unfused
import ArrayFusion.Proofs.Traversal
import ArrayFusion.Proofs.Interning
import ArrayFusion.Proofs.Hazards
import ArrayFusion.Proofs.Finality
