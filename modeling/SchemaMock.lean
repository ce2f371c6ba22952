import SchemaMock.Arena
import SchemaMock.Builtin
import SchemaMock.Builtin.Call
import SchemaMock.Command
import SchemaMock.Constraint
import SchemaMock.Decimal.Binary
import SchemaMock.Decimal.Layout
import SchemaMock.Decimal.Reading
import SchemaMock.Decimal.Shortest
import SchemaMock.Eval.Choice
import SchemaMock.Eval.Export
import SchemaMock.Eval.Process
import SchemaMock.Eval.Query
import SchemaMock.Eval.Reference
import SchemaMock.Eval.Structure
import SchemaMock.Expr
import SchemaMock.Expr.Host
import SchemaMock.Expr.Literal
import SchemaMock.Expr.Parser
import SchemaMock.Fault
import SchemaMock.Invocation
import SchemaMock.Json.Basic
import SchemaMock.Json.Reader
import SchemaMock.Json.Writer
import SchemaMock.Kinds
import SchemaMock.Limits
import SchemaMock.Main
import SchemaMock.Malformed
import SchemaMock.Mock
import SchemaMock.Mock.Base
import SchemaMock.Mock.Call
import SchemaMock.Mock.Fault
import SchemaMock.Mock.Ledger
import SchemaMock.Mock.Registry
import SchemaMock.Mock.Typed
import SchemaMock.Operator
import SchemaMock.Path
import SchemaMock.Scalar
import SchemaMock.Span
import SchemaMock.Text.Blank
import SchemaMock.Text.CaseData
import SchemaMock.Text.Casing
import SchemaMock.Text.CharSet
import SchemaMock.Text.GraphemeExtend
import SchemaMock.Text.Printable
import SchemaMock.Text.Quoted
import SchemaMock.Text.Search
import SchemaMock.Token
import SchemaMock.Token.Cursor
import SchemaMock.Token.Lexer
import SchemaMock.Val
import SchemaMock.Value
import SchemaMock.Proofs.Mock.Resolution
import SchemaMock.Proofs.Mock.Run
import SchemaMock.Proofs.Mock.Compiled
import SchemaMock.Proofs.Mock.Accounting
import SchemaMock.Proofs.Mock.Quota
import SchemaMock.Proofs.Json.Nesting
import SchemaMock.Proofs.Eval.Computation
import SchemaMock.Proofs.Eval.Export
import SchemaMock.Proofs.Value
import SchemaMock.Proofs.Eval.Reading
import SchemaMock.Proofs.Eval.Growth
import SchemaMock.Proofs.Lattice
import SchemaMock.Proofs.Folding
import SchemaMock.Proofs.Eval.Definition
import SchemaMock.Proofs.Eval.Step
import SchemaMock.Proofs.Eval.Unify
import SchemaMock.Proofs.Eval.Conjunct
import SchemaMock.Proofs.Eval.Pursuit
import SchemaMock.Proofs.Eval.Finish
import SchemaMock.Proofs.Eval.Decision
import SchemaMock.Proofs.Eval.Processing
import SchemaMock.Proofs.Eval.Lookup
import SchemaMock.Proofs.Eval.Inputs
import SchemaMock.Proofs.Eval.Patterns
import SchemaMock.Proofs.Mock.Containment
import SchemaMock.Proofs.Mock.Independence
import SchemaMock.Proofs.Eval.Intact
import SchemaMock.Proofs.Eval.Parts
import SchemaMock.Proofs.Eval.Data
import SchemaMock.Proofs.Eval.Walk
import SchemaMock.Proofs.Eval.Withholding
import SchemaMock.Proofs.Condition
import SchemaMock.Proofs.Eval.Turn
import SchemaMock.Proofs.Eval.Elements
import SchemaMock.Proofs.Eval.Gathering
import SchemaMock.Proofs.Eval.Narrowing
import SchemaMock.Proofs.HostData
import SchemaMock.Proofs.Eval.Alternatives
import SchemaMock.Proofs.Eval.Assembly
import SchemaMock.Proofs.Eval.Reference
import SchemaMock.Proofs.Eval.Filling
import SchemaMock.Proofs.Echo.Layout
import SchemaMock.Proofs.Echo.Arguments
import SchemaMock.Proofs.Echo.Results
import SchemaMock.Proofs.Echo.Function
import SchemaMock.Proofs.Echo.Site
import SchemaMock.Proofs.Echo.Decision
import SchemaMock.Proofs.Echo.Trial
import SchemaMock.Proofs.Echo.Settling
import SchemaMock.Proofs.Echo.Listing
import SchemaMock.Proofs.Scalar
import SchemaMock.Proofs.Json.Merge
import SchemaMock.Proofs.Json.Encoding
import SchemaMock.Proofs.Eval.Merging
import SchemaMock.Proofs.Unification
import SchemaMock.Proofs.Shape
import SchemaMock.Proofs.Eval.Finality
import SchemaMock.Proofs.Finality
import SchemaMock.Proofs.Eval.Extent
import SchemaMock.Proofs.Eval.Runs
import SchemaMock.Proofs.Eval.Reads
import SchemaMock.Proofs.Eval.Writes
import SchemaMock.Proofs.Eval.Visit
import SchemaMock.Proofs.Order
import SchemaMock.Proofs.Eval.Candidates
import SchemaMock.Proofs.Eval.Selection
import SchemaMock.Proofs.Eval.Shape
import SchemaMock.Proofs.Fields
import SchemaMock.Proofs.Choice
import SchemaMock.Proofs.Eval.Closing
import SchemaMock.Proofs.Eval.Constrained
import SchemaMock.Proofs.Eval.Record
import SchemaMock.Proofs.Record
import SchemaMock.Proofs.Echo.File
import SchemaMock.Proofs.Echo.Place
import SchemaMock.Proofs.Echo.Base
import SchemaMock.Proofs.Echo.Query
import SchemaMock.Proofs.Mock.Diagnosis
import SchemaMock.Proofs.Mock.Echo
import SchemaMock.Proofs.Mock.Verbatim
import SchemaMock.Proofs.Token.Deepest
import SchemaMock.Proofs.Expr.Room
import SchemaMock.Proofs.Expr.Rounds
import SchemaMock.Proofs.Bound
import SchemaMock.Proofs.Eval.Labels
import SchemaMock.Proofs.Agreement
import SchemaMock.Proofs.Arrays
import SchemaMock.Proofs.Eval.Literals
import SchemaMock.Proofs.Eval.Chain
import SchemaMock.Proofs.ListLiteral
import SchemaMock.Proofs.Eval.Spelling
import SchemaMock.Proofs.Eval.Drafting
import SchemaMock.Proofs.Expr.Comparison
import SchemaMock.Proofs.Member
import SchemaMock.Proofs.Outcome
import SchemaMock.Proofs.Admission
import SchemaMock.Proofs.Chains
import SchemaMock.Proofs.Token.Faces
import SchemaMock.Proofs.Token.Names
import SchemaMock.Proofs.Token.Run
import SchemaMock.Proofs.Expr.Precedence
import SchemaMock.Proofs.Expr.Spacing
import SchemaMock.Proofs.Expr.Follows
import SchemaMock.Proofs.Expr.Newlines
import SchemaMock.Proofs.Expr.Embedding
import SchemaMock.Proofs.Expr.Depth
import SchemaMock.Proofs.Token.Lexemes
import SchemaMock.Proofs.Token.Coverage
import SchemaMock.Proofs.Token.Seams
import SchemaMock.Proofs.Expr.Literal
import SchemaMock.Proofs.Expr.Quoting
import SchemaMock.Proofs.Expr.Lifting
import SchemaMock.Proofs.Expr.Enclosure
import SchemaMock.Proofs.Expr.Brackets
import SchemaMock.Proofs.Expr.Braces
import SchemaMock.Proofs.Expr.Shorthand
import SchemaMock.Proofs.Token.Separation
import SchemaMock.Proofs.Token.Bytes
import SchemaMock.Proofs.Expr.Positions
import SchemaMock.Proofs.Expr.Bounds
import SchemaMock.Proofs.Expr.Safety
import SchemaMock.Proofs.Path
import SchemaMock.Proofs.Mock.Registration
import SchemaMock.Proofs.Mock.Typed
import SchemaMock.Proofs.Integers
import SchemaMock.Proofs.Extremes
import SchemaMock.Proofs.Combinations
import SchemaMock.Proofs.Eval.Enumeration
import SchemaMock.Proofs.Mock.Columns
