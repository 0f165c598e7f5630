import FieldSelection.AliasTable
import FieldSelection.Config.Basic
import FieldSelection.Config.Compile
import FieldSelection.Config.Inspect
import FieldSelection.Config.Resolve
import FieldSelection.Defaults
import FieldSelection.Defaults.Json
import FieldSelection.Entries
import FieldSelection.Event
import FieldSelection.Expansion
import FieldSelection.Expansion.Basic
import FieldSelection.Expansion.Selection
import FieldSelection.Expr.Basic
import FieldSelection.Expr.Json
import FieldSelection.Facet
import FieldSelection.Json.Basic
import FieldSelection.Json.Document
import FieldSelection.Json.Numeral
import FieldSelection.Json.Spelling
import FieldSelection.Json.Text
import FieldSelection.Json.Token
import FieldSelection.Name
import FieldSelection.Normalization
import FieldSelection.Tree.Basic
import FieldSelection.Tree.Json
import FieldSelection.Tree.Outline
import FieldSelection.Proofs.Config.Coherence
import FieldSelection.Proofs.Config.Compile
import FieldSelection.Proofs.Config.History
import FieldSelection.Proofs.Config.Memoization
import FieldSelection.Proofs.Config.Resolve
import FieldSelection.Proofs.Config.Union
import FieldSelection.Proofs.Entries
import FieldSelection.Proofs.Expansion.Aggregate
import FieldSelection.Proofs.Expansion.Computation
import FieldSelection.Proofs.Expansion.Meaning
import FieldSelection.Proofs.Expansion.Selection
import FieldSelection.Proofs.Expansion.Views
import FieldSelection.Proofs.Expr.CacheKey
import FieldSelection.Proofs.Normalization
import FieldSelection.Proofs.Tree.Paths
import FieldSelection.Proofs.AliasTable
import FieldSelection.Proofs.Expr.Distinct
import FieldSelection.Proofs.Expansion.Depth
import FieldSelection.Proofs.Expansion.Success
import FieldSelection.Proofs.Config.Validation
import FieldSelection.Proofs.Expansion.Fields
import FieldSelection.Proofs.Config.Fields
import FieldSelection.Proofs.Config.Distinct
import FieldSelection.Proofs.Expansion.Alike
import FieldSelection.Proofs.Config.Independence
import FieldSelection.Proofs.Expr.Completion
import FieldSelection.Proofs.Expansion.Completion
import FieldSelection.Proofs.Expr.Arrangement
import FieldSelection.Proofs.Config.Arrangement
import FieldSelection.Proofs.Config.Procedure
import FieldSelection.Proofs.Config.Course
import FieldSelection.Proofs.Config.Family
import FieldSelection.Proofs.Expr.RoundTrip
import FieldSelection.Proofs.Expansion.Failure
import FieldSelection.Proofs.Expansion.InPlace
import FieldSelection.Proofs.Expansion.Limit
import FieldSelection.Proofs.Expansion.Cycle
import FieldSelection.Proofs.Expansion.Locality
import FieldSelection.Proofs.Expansion.Sequence
import FieldSelection.Proofs.Config.Passes
import FieldSelection.Proofs.Tree.Merge
import FieldSelection.Proofs.Tree.Union
import FieldSelection.Proofs.Tree.RoundTrip
import FieldSelection.Proofs.Expansion.Events
import FieldSelection.Proofs.Config.Reports
import FieldSelection.Proofs.Config.Remembered
import FieldSelection.Proofs.Entries.Extension
import FieldSelection.Proofs.Json.Kinds
import FieldSelection.Proofs.Expr.Reading
import FieldSelection.Proofs.AliasTable.Reading
import FieldSelection.Proofs.Config.Inheritance
import FieldSelection.Proofs.Expansion.Ending
import FieldSelection.Proofs.Config.Attributes
import FieldSelection.Proofs.Tree.Outline
