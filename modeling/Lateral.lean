import Lateral.Main
import Lateral.Proofs.Expr.Evaluation
import Lateral.Proofs.Expr.Extraction
import Lateral.Proofs.Expr.Occurrences
import Lateral.Proofs.Expr.Placeholders
import Lateral.Proofs.Naming
import Lateral.Proofs.Plan.Structure
import Lateral.Proofs.Plan.Validity
import Lateral.Proofs.Expr.Substitution
import Lateral.Proofs.Expr.Restoration
import Lateral.Proofs.Expr.Strictness
import Lateral.Proofs.Expr.Lookups
import Lateral.Proofs.Plan.Execution
import Lateral.Proofs.Plan.Merging
import Lateral.Proofs.DialectSplit.RightSide
import Lateral.Proofs.DialectSplit.Basic
import Lateral.Proofs.DialectSplit.Validity
import Lateral.Proofs.Optimizer.Step
import Lateral.Proofs.Optimizer.Run
import Lateral.Proofs.DialectSplit.Step
import Lateral.Proofs.DialectSplit.ValidRuns
import Lateral.Proofs.DialectSplit.Execution
import Lateral.Proofs.DialectSplit.Sites
import Lateral.Proofs.DialectSplit.Agreement
import Lateral.Proofs.DialectSplit.Results
import Lateral.Proofs.DialectSplit.Splittable
import Lateral.Proofs.DialectSplit.Conditions
import Lateral.Proofs.DialectSplit.Dangling
import Lateral.Proofs.Optimizer.Firings
import Lateral.Proofs.Optimizer.Trials
import Lateral.Proofs.Optimizer.Histories
import Lateral.Proofs.DialectSplit.Completion
import Lateral.Proofs.Optimizer.BottomUp
import Lateral.Proofs.Plan.Progress
import Lateral.Proofs.DialectSplit.BottomUp
import Lateral.Proofs.Plan.Unread
import Lateral.Proofs.Numbering
import Lateral.Proofs.Function.Catalog
import Lateral.Proofs.Text.Pieces
import Lateral.Proofs.Text.Bytes
import Lateral.Proofs.Function.Split
import Lateral.Proofs.Function.Range
import Lateral.Proofs.Plan.Joining
import Lateral.Proofs.CommandLine.Options
import Lateral.Proofs.Expr.Equality
import Lateral.Proofs.Plan.Explain
import Lateral.Proofs.Expr.Composition
import Lateral.Proofs.Plan.MergeOrder
import Lateral.Proofs.Text.Lines
import Lateral.Proofs.Relation
import Lateral.Proofs.Number.Rounding
import Lateral.Proofs.Number.Operations
import Lateral.Proofs.Number.Integers
import Lateral.Proofs.Function.Arithmetic
