import SchemaMock.Span

/-! # Tokens of the schema language

Newlines are tokens: they separate declarations as commas do, and the reader of expressions decides
where they may be passed over.
-/

namespace SchemaMock

inductive TokenKind where
  | newline
  | packageWord
  | importWord
  | trueWord
  | falseWord
  | nullWord
  | bottom
  | definition
  | ident
  | int
  | float
  | string
  | openBrace
  | closeBrace
  | openBracket
  | closeBracket
  | openParen
  | closeParen
  | comma
  | colon
  | question
  | dot
  | ellipsis
  | amp
  | bar
  | ampAmp
  | barBar
  | eqEq
  | notEq
  | lt
  | le
  | gt
  | ge
  | bang
  | plus
  | minus
  | star
  | slash
  | eof
deriving DecidableEq, Repr, Inhabited

def TokenKind.describe : TokenKind → String
  | newline => "newline"
  | packageWord => "`package`"
  | importWord => "`import`"
  | trueWord => "`true`"
  | falseWord => "`false`"
  | nullWord => "`null`"
  | bottom => "`_|_`"
  | definition => "definition"
  | ident => "identifier"
  | int => "integer"
  | float => "float"
  | string => "string"
  | openBrace => "`\x7b`"
  | closeBrace => "`\x7d`"
  | openBracket => "`[`"
  | closeBracket => "`]`"
  | openParen => "`(`"
  | closeParen => "`)`"
  | comma => "`,`"
  | colon => "`:`"
  | question => "`?`"
  | dot => "`.`"
  | ellipsis => "`...`"
  | amp => "`&`"
  | bar => "`|`"
  | ampAmp => "`&&`"
  | barBar => "`||`"
  | eqEq => "`==`"
  | notEq => "`!=`"
  | lt => "`<`"
  | le => "`<=`"
  | gt => "`>`"
  | ge => "`>=`"
  | bang => "`!`"
  | plus => "`+`"
  | minus => "`-`"
  | star => "`*`"
  | slash => "`/`"
  | eof => "end of input"

/-- A token: its kind, its place in the source, and the text that stands there. -/
structure Token where
  kind : TokenKind
  span : Span
  text : List Char
deriving DecidableEq, Repr, Inhabited

/-- The least span that covers the origin and every token. -/
def Token.extent (tokens : List Token) : Span :=
  tokens.foldl (fun s t => s.merge t.span) Span.origin

end SchemaMock
