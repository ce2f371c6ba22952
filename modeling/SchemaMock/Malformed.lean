import SchemaMock.Text.Quoted
import SchemaMock.Token

/-! # Faults of a source text

Each fault of reading a schema or a path has a cause and a place.
-/

namespace SchemaMock

inductive Expectation where
  | token (kind : TokenKind)
  | separatorOr (kind : TokenKind)
  | fieldName
  | expression
deriving DecidableEq, Repr

def Expectation.describe : Expectation → String
  | token kind => kind.describe
  | separatorOr kind => "newline, `,` or " ++ kind.describe
  | fieldName => "field name after `.`"
  | expression => "expression"

inductive PathProblem where
  | unterminatedIndex
  | notAnIndex
  | labelAfterDot
  | unterminatedLabel
  | emptyLabel
deriving DecidableEq, Repr

def PathProblem.message : PathProblem → String
  | unterminatedIndex => "unterminated index"
  | notAnIndex => "index must be a non-negative integer"
  | labelAfterDot => "expected label after `.`"
  | unterminatedLabel => "unterminated quoted label"
  | emptyLabel => "empty label"

inductive SourceFault where
  | unexpectedText (text : String)
  | expected (what : Expectation) (found : TokenKind)
  | nestedDeeper (limit : Nat)
  | integerRange (digits : String)
  | unicodeEscape (digits : String)
  | unknownEscape (shown : String)
  | path (text : String) (problem : PathProblem)
  /-- No token was consumed where one had to be; reading never ends this way. -/
  | stalled
deriving DecidableEq, Repr

def SourceFault.message : SourceFault → String
  | unexpectedText text => "unexpected character " ++ Text.quote text
  | expected what found => s!"expected {what.describe}, found {found.describe}"
  | nestedDeeper limit => s!"expression nested deeper than {limit} levels"
  | integerRange digits => s!"integer literal {digits} out of range"
  | unicodeEscape digits => "invalid unicode escape \\u" ++ digits
  | unknownEscape shown => "unknown escape sequence \\" ++ shown
  | path text problem => s!"invalid path {Text.quote text}: {problem.message}"
  | stalled => "no progress"

/-- A fault at a place. -/
structure Malformed where
  span : Span
  fault : SourceFault
deriving DecidableEq, Repr

end SchemaMock
