import IncrementalSyntax.Cache.Recency
import IncrementalSyntax.Cache.Versioned
import IncrementalSyntax.Document.Id
import IncrementalSyntax.Document.Registry
import IncrementalSyntax.Document.Snapshot
import IncrementalSyntax.Document.Store
import IncrementalSyntax.Edit.Basic
import IncrementalSyntax.Edit.Sequence
import IncrementalSyntax.Edit.Set
import IncrementalSyntax.Error
import IncrementalSyntax.Fault
import IncrementalSyntax.Offset
import IncrementalSyntax.Proofs.Cache.Recency
import IncrementalSyntax.Proofs.Cache.Superseding
import IncrementalSyntax.Proofs.Cache.Timestamps
import IncrementalSyntax.Proofs.Document.Catalog
import IncrementalSyntax.Proofs.Document.Changes
import IncrementalSyntax.Proofs.Document.Refusals
import IncrementalSyntax.Proofs.Document.Registry
import IncrementalSyntax.Proofs.Edit.Composition
import IncrementalSyntax.Proofs.Edit.Concurrent
import IncrementalSyntax.Proofs.Edit.Cut
import IncrementalSyntax.Proofs.Edit.Distance
import IncrementalSyntax.Proofs.Edit.Movement
import IncrementalSyntax.Proofs.Edit.Order
import IncrementalSyntax.Proofs.Edit.Recomposition
import IncrementalSyntax.Proofs.Edit.Rewriting
import IncrementalSyntax.Proofs.Edit.Separation
import IncrementalSyntax.Proofs.Edit.Smallest
import IncrementalSyntax.Proofs.Edit.Splicing
import IncrementalSyntax.Proofs.Edit.Walk
import IncrementalSyntax.Proofs.Service.Accounting
import IncrementalSyntax.Proofs.Service.Failures
import IncrementalSyntax.Proofs.Service.Registration
import IncrementalSyntax.Proofs.Service.Reopening
import IncrementalSyntax.Proofs.Service.Replacement
import IncrementalSyntax.Proofs.Service.Results
import IncrementalSyntax.Proofs.Service.Starts
import IncrementalSyntax.Proofs.Service.Versions
import IncrementalSyntax.Proofs.Session
import IncrementalSyntax.Proofs.Syntax.Acceptance
import IncrementalSyntax.Proofs.Syntax.Builder
import IncrementalSyntax.Proofs.Syntax.Checked
import IncrementalSyntax.Proofs.Syntax.Dependence
import IncrementalSyntax.Proofs.Syntax.Dump
import IncrementalSyntax.Proofs.Syntax.Expression
import IncrementalSyntax.Proofs.Syntax.Lexicon
import IncrementalSyntax.Proofs.Syntax.Lookahead
import IncrementalSyntax.Proofs.Syntax.Lossless
import IncrementalSyntax.Proofs.Syntax.Places
import IncrementalSyntax.Proofs.Syntax.Precedence
import IncrementalSyntax.Proofs.Syntax.Production
import IncrementalSyntax.Proofs.Syntax.Reading
import IncrementalSyntax.Proofs.Syntax.Reparse
import IncrementalSyntax.Proofs.Syntax.Reports
import IncrementalSyntax.Proofs.Syntax.Resynchronisation
import IncrementalSyntax.Proofs.Syntax.Sentence
import IncrementalSyntax.Proofs.Syntax.Shape
import IncrementalSyntax.Proofs.Syntax.Trivia
import IncrementalSyntax.Proofs.Syntax.Truthfulness
import IncrementalSyntax.Proofs.Text.Bounds
import IncrementalSyntax.Proofs.Text.Inverse
import IncrementalSyntax.Proofs.Text.Lines
import IncrementalSyntax.Proofs.Text.Positions
import IncrementalSyntax.Proofs.Text.Quotes
import IncrementalSyntax.Service.Basic
import IncrementalSyntax.Service.Computation
import IncrementalSyntax.Service.Parser
import IncrementalSyntax.Session
import IncrementalSyntax.Syntax.Grammar
import IncrementalSyntax.Syntax.Item
import IncrementalSyntax.Syntax.Kind
import IncrementalSyntax.Syntax.Parse
import IncrementalSyntax.Syntax.Reuse
import IncrementalSyntax.Syntax.Source
import IncrementalSyntax.Syntax.Token
import IncrementalSyntax.Syntax.Tree
import IncrementalSyntax.Text.Basic
import IncrementalSyntax.Text.LineIndex
import IncrementalSyntax.Text.Quoted
import IncrementalSyntax.Text.Range
import IncrementalSyntax.Text.Visible
