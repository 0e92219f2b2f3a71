import Fluxion.Arithmetic
import Fluxion.BuildError
import Fluxion.Derivative.Rule
import Fluxion.Derivative.Tree
import Fluxion.Expr
import Fluxion.Expr.Outline
import Fluxion.Expr.Rendering
import Fluxion.Expr.Walk
import Fluxion.Graph
import Fluxion.Graph.Derivative
import Fluxion.Graph.Equality
import Fluxion.Graph.Numbering
import Fluxion.Notation
import Fluxion.Number.Binary64
import Fluxion.Number.Decimal
import Fluxion.Number.Layout
import Fluxion.Number.Numeral
import Fluxion.Operator
import Fluxion.Operator.Arity
import Fluxion.Operator.Primitive
import Fluxion.ParseError
import Fluxion.Reader
import Fluxion.Reading.Grammar
import Fluxion.Reading.SignFirst
import Fluxion.Reading.SignLast
import Fluxion.Session
import Fluxion.Term
import Fluxion.Text.Blank
import Fluxion.Text.Excerpt
import Fluxion.Text.Outline
import Fluxion.Text.Utf8
import Fluxion.Token
import Fluxion.Variable
import Fluxion.Proofs.Derivative.Dual
import Fluxion.Proofs.Derivative.Mixed
import Fluxion.Proofs.Derivative.Places
import Fluxion.Proofs.Derivative.Reference
import Fluxion.Proofs.Derivative.Rules
import Fluxion.Proofs.Derivative.Slope
import Fluxion.Proofs.Expr.Position
import Fluxion.Proofs.Expr.Walk
import Fluxion.Proofs.Formed
import Fluxion.Proofs.Graph.Account
import Fluxion.Proofs.Graph.Acyclic
import Fluxion.Proofs.Graph.Blocks
import Fluxion.Proofs.Graph.Building
import Fluxion.Proofs.Graph.Congruence
import Fluxion.Proofs.Graph.Cost
import Fluxion.Proofs.Graph.Differentiation
import Fluxion.Proofs.Graph.Equality
import Fluxion.Proofs.Graph.Filling
import Fluxion.Proofs.Graph.Fitting
import Fluxion.Proofs.Graph.Footprint
import Fluxion.Proofs.Graph.Formed
import Fluxion.Proofs.Graph.Frame
import Fluxion.Proofs.Graph.Growth
import Fluxion.Proofs.Graph.Identity
import Fluxion.Proofs.Graph.Links
import Fluxion.Proofs.Graph.Memo
import Fluxion.Proofs.Graph.Numbering
import Fluxion.Proofs.Graph.Plans
import Fluxion.Proofs.Graph.Products
import Fluxion.Proofs.Graph.Recursion
import Fluxion.Proofs.Graph.Renaming
import Fluxion.Proofs.Graph.Requests
import Fluxion.Proofs.Graph.Shape
import Fluxion.Proofs.Graph.Tasks
import Fluxion.Proofs.Graph.Truth
import Fluxion.Proofs.Number.Layout
import Fluxion.Proofs.Number.Numeral
import Fluxion.Proofs.Number.Pattern
import Fluxion.Proofs.Number.Rounding
import Fluxion.Proofs.Outcome
import Fluxion.Proofs.Reading.Bytes
import Fluxion.Proofs.Reading.Cause
import Fluxion.Proofs.Reading.Completion
import Fluxion.Proofs.Reading.Depth
import Fluxion.Proofs.Reading.Language
import Fluxion.Proofs.Reading.Location
import Fluxion.Proofs.Reading.Nesting
import Fluxion.Proofs.Reading.Rendering
import Fluxion.Proofs.Reading.Run
import Fluxion.Proofs.Reading.Runs
import Fluxion.Proofs.Reading.Scan
import Fluxion.Proofs.Reading.SignFirst
import Fluxion.Proofs.Reading.SignLast
import Fluxion.Proofs.Reading.Spelling
import Fluxion.Proofs.Reading.Word
import Fluxion.Proofs.Reading.Words
import Fluxion.Proofs.Session.Composition
import Fluxion.Proofs.Session.Cycles
import Fluxion.Proofs.Session.Derivative
import Fluxion.Proofs.Session.Equality
import Fluxion.Proofs.Session.Footprint
import Fluxion.Proofs.Session.Formed
import Fluxion.Proofs.Session.Order
import Fluxion.Proofs.Session.RoundTrip
import Fluxion.Proofs.Session.Sharing
import Fluxion.Proofs.Session.Soundness
import Fluxion.Proofs.Term
import Fluxion.Proofs.Text.Encoding
import Fluxion.Proofs.Text.Utf8
