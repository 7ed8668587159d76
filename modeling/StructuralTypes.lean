import StructuralTypes.Assignability.Rule
import StructuralTypes.Assignability.Search
import StructuralTypes.Assoc
import StructuralTypes.Companion
import StructuralTypes.Declarations
import StructuralTypes.Fault
import StructuralTypes.Finding.Basic
import StructuralTypes.Finding.Ledger
import StructuralTypes.Finding.Wording
import StructuralTypes.Literal
import StructuralTypes.Log
import StructuralTypes.Names
import StructuralTypes.Narrowing.Alternatives
import StructuralTypes.Narrowing.Selection
import StructuralTypes.Narrowing.Test
import StructuralTypes.Number.Basic
import StructuralTypes.Number.Binary64
import StructuralTypes.Number.Decimal
import StructuralTypes.Number.Shortest
import StructuralTypes.Policy
import StructuralTypes.Published
import StructuralTypes.Proofs.Inside
import StructuralTypes.Proofs.WellFormed
import StructuralTypes.Text.Joined
import StructuralTypes.Text.Printable
import StructuralTypes.Text.Quoted
import StructuralTypes.Ty.Basic
import StructuralTypes.Ty.Blueprint
import StructuralTypes.Ty.Build
import StructuralTypes.Ty.Equality
import StructuralTypes.Ty.Key
import StructuralTypes.Ty.Mapped
import StructuralTypes.Ty.Object
import StructuralTypes.Ty.Readonly
import StructuralTypes.Ty.Text
import StructuralTypes.Verdict
import StructuralTypes.Proofs.Equality
import StructuralTypes.Proofs.KeyDomain
import StructuralTypes.Proofs.KeyDomainReturns
import StructuralTypes.Proofs.DomainInclusion
import StructuralTypes.Proofs.Assignable
import StructuralTypes.Proofs.Obligations
import StructuralTypes.Proofs.Correspondence
import StructuralTypes.Proofs.AssignableEquality
import StructuralTypes.Proofs.Origins
import StructuralTypes.Proofs.Runs
import StructuralTypes.Proofs.Exactness
import StructuralTypes.Proofs.Reachable
import StructuralTypes.Proofs.Termination
import StructuralTypes.Proofs.Certificate
import StructuralTypes.Proofs.UnionTarget
import StructuralTypes.Proofs.Build
import StructuralTypes.Proofs.Members
import StructuralTypes.Proofs.Alternatives
import StructuralTypes.Proofs.UnionAlternatives
import StructuralTypes.Proofs.UnionMembers
import StructuralTypes.Proofs.Plain
import StructuralTypes.Proofs.Transitivity
import StructuralTypes.Proofs.Values
import StructuralTypes.Proofs.Reordering
import StructuralTypes.Proofs.Relaxation
import StructuralTypes.Proofs.Unfolding
import StructuralTypes.Proofs.Containment
import StructuralTypes.Proofs.Transparency
import StructuralTypes.Proofs.Shortcuts
import StructuralTypes.Proofs.Thawing
import StructuralTypes.Proofs.UnionSource
import StructuralTypes.Proofs.ObjectRuns
import StructuralTypes.Proofs.DerivedObjects
import StructuralTypes.Proofs.Width
import StructuralTypes.Proofs.Selection
import StructuralTypes.Proofs.Branches
import StructuralTypes.Proofs.Tags
import StructuralTypes.Proofs.LedgerRuns
import StructuralTypes.Proofs.SelectionOrder
import StructuralTypes.Proofs.Locality
import StructuralTypes.Proofs.Resolvable
import StructuralTypes.Proofs.TagMatching
import StructuralTypes.Proofs.TagNames
import StructuralTypes.Proofs.Findings
import StructuralTypes.Proofs.Exclusion
import StructuralTypes.Proofs.NarrowingReturns
import StructuralTypes.Proofs.NestedTags
import StructuralTypes.Proofs.StructuralEquality
import StructuralTypes.Proofs.ReadonlyAlgebra
import StructuralTypes.Proofs.MappedObjects
import StructuralTypes.Proofs.FlatUnion
import StructuralTypes.Proofs.ShortestDecimal
import StructuralTypes.Proofs.NumericNames
import StructuralTypes.Proofs.QuotedText
import StructuralTypes.Proofs.ReadonlyMarks
import StructuralTypes.Proofs.TextReading
import StructuralTypes.Proofs.ObjectEdits
import StructuralTypes.Proofs.CompanionDrift
import StructuralTypes.Proofs.Traversal
import StructuralTypes.Proofs.Rollback
import StructuralTypes.Proofs.AliasChains
import StructuralTypes.Proofs.IntegerRange
import StructuralTypes.Proofs.NumeralLanguage
