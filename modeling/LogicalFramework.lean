import LogicalFramework.Text.Blank
import LogicalFramework.Text.Quoted
import LogicalFramework.Text.Split
import LogicalFramework.Decimal
import LogicalFramework.Identifier
import LogicalFramework.Identifier.Fresh
import LogicalFramework.Term
import LogicalFramework.Term.Variables
import LogicalFramework.Term.Substitution
import LogicalFramework.Term.Alpha
import LogicalFramework.Term.Reduction
import LogicalFramework.Term.Printer
import LogicalFramework.Bindings
import LogicalFramework.Conversion
import LogicalFramework.Environment
import LogicalFramework.Outcome
import LogicalFramework.SortError
import LogicalFramework.Sorting
import LogicalFramework.Validation
import LogicalFramework.Union
import LogicalFramework.Report
import LogicalFramework.Reader.Token
import LogicalFramework.Reader
import LogicalFramework.Proofs.Identifiers
import LogicalFramework.Proofs.Variables
import LogicalFramework.Proofs.FreeOccurrences
import LogicalFramework.Proofs.Fresh
import LogicalFramework.Proofs.FreshIndex
import LogicalFramework.Proofs.RecursionDepth
import LogicalFramework.Proofs.Nameless
import LogicalFramework.Proofs.NamelessForm
import LogicalFramework.Proofs.Alpha
import LogicalFramework.Proofs.Substitution
import LogicalFramework.Proofs.Congruence
import LogicalFramework.Proofs.Reduction
import LogicalFramework.Proofs.Confluence
import LogicalFramework.Proofs.Conversion
import LogicalFramework.Proofs.Typing
import LogicalFramework.Proofs.SubjectReduction
import LogicalFramework.Proofs.Sorting
import LogicalFramework.Proofs.Soundness
import LogicalFramework.Proofs.NormalForm
import LogicalFramework.Proofs.NamelessReduction
import LogicalFramework.Proofs.NamelessConversion
import LogicalFramework.Proofs.Symmetry
import LogicalFramework.Proofs.LazyComparison
import LogicalFramework.Proofs.Stratification
import LogicalFramework.Proofs.AlphaInvariance
import LogicalFramework.Proofs.Dependence
import LogicalFramework.Proofs.ErrorTrace
import LogicalFramework.Proofs.Bounds
import LogicalFramework.Proofs.Shapes
import LogicalFramework.Proofs.StrongNormalization
import LogicalFramework.Proofs.Termination
import LogicalFramework.Proofs.WeakHead
import LogicalFramework.Proofs.Invariance
import LogicalFramework.Proofs.EtaExpansion
import LogicalFramework.Proofs.EtaReduction
import LogicalFramework.Proofs.UniqueSorts
import LogicalFramework.Proofs.TypedComparison
import LogicalFramework.Proofs.Completeness
import LogicalFramework.Proofs.Scoping
import LogicalFramework.Proofs.Decidability
import LogicalFramework.Proofs.Validation
import LogicalFramework.Proofs.NewestFault
import LogicalFramework.Proofs.Normalization
import LogicalFramework.Proofs.Unfolding
import LogicalFramework.Proofs.DeltaComparison
import LogicalFramework.Proofs.Tokens
import LogicalFramework.Proofs.ReaderProgress
import LogicalFramework.Proofs.Grammar
import LogicalFramework.Proofs.WrittenTerms
import LogicalFramework.Proofs.PrintedForms
import LogicalFramework.Proofs.PrintedTerms
import LogicalFramework.Proofs.Union
import LogicalFramework.Proofs.UnionValidity
