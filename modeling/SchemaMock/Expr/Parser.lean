import SchemaMock.Expr
import SchemaMock.Expr.Literal
import SchemaMock.Token.Cursor

/-! # Reading expressions and files

    file    ::= ["package" ident] {import} decls
    decl    ::= label {":" label} ":" expr | label "?" ":" expr
              | "[" expr "]" ":" expr | "..." | expr
    expr    ::= binary expressions, `|` binding loosest and `*` `/` tightest
    unary   ::= ("!" | "-" | "+" | "*" | "!=" | "<" | "<=" | ">" | ">=") unary | postfix
    postfix ::= primary {"." label | "[" expr "]" | "(" args ")"}

Declarations are separated by commas or newlines. Inside brackets and parentheses and after binary
operators newlines do not count.

Declarations and operands may nest `maxNesting` times. The readers of one level are built from those
of the level below, so that the recursion is on the number of levels left.
-/

namespace SchemaMock.Parser

open Reader

/-- The readers that go one level down, and the depth of the nodes on the level at hand. -/
structure Level where
  depth : Nat
  decl : Reader Decl
  unary : Reader Expr

def binaryOp? : TokenKind → Option BinaryOp
  | .amp => some .unify
  | .bar => some .disjoin
  | .barBar => some .or
  | .ampAmp => some .and
  | .eqEq => some .eq
  | .notEq => some .ne
  | .lt => some .lt
  | .le => some .le
  | .gt => some .gt
  | .ge => some .ge
  | .plus => some .add
  | .minus => some .sub
  | .star => some .mul
  | .slash => some .div
  | _ => none

/-- A sign before an operand; the star marks a default. -/
def prefixOp? : TokenKind → Option (Expr → Expr)
  | .star => some .marked
  | .bang => some (.unary .not)
  | .minus => some (.unary .neg)
  | .plus => some (.unary .plus)
  | .notEq => some (.unary .notEqual)
  | .lt => some (.unary .less)
  | .le => some (.unary .lessEqual)
  | .gt => some (.unary .greater)
  | .ge => some (.unary .greaterEqual)
  | _ => none

/-- Operands joined by operators of at least the precedence `least`. The right operand of an
operator holds tighter ones only; as there are seven precedences, `rounds` starts at eight. -/
def binary (lv : Level) : Nat → Nat → Reader Expr
  | 0, _ => lv.unary
  | rounds + 1, least => subtree lv.depth do
    let first ← lv.unary
    loop (α := Expr) (fun lhs => do
      match binaryOp? (← current).kind with
      | none => return .done lhs
      | some op =>
        if op.precedence < least then return .done lhs
        wrap
        let _ ← advance
        skipNewlines
        let rhs ← binary lv rounds (op.precedence + 1)
        return .again (.binary op lhs rhs)) first

def expr (lv : Level) : Reader Expr := binary lv 8 1

/-! ## Declarations -/

def isLabelKind (kind : TokenKind) : Bool :=
  kind == .ident || kind == .definition || kind == .string

/-- A label is followed by a colon, or by a question mark and a colon. -/
def isLabelStart : Reader Bool := do
  let here ← kindAhead 0
  let first ← kindAhead 1
  let second ← kindAhead 2
  return isLabelKind here && (first == .colon || (first == .question && second == .colon))

/-- Whether the bracket that closes this one (`open_` brackets are open) is followed by a colon. -/
def closesBeforeColon (nested : Nat) : List Token → Bool
  | [] => false
  | t :: ts =>
    match t.kind with
    | .openBracket => closesBeforeColon (nested + 1) ts
    | .closeBracket =>
      if nested ≤ 1 then (ts.headD t).kind == .colon else closesBeforeColon (nested - 1) ts
    | .eof => false
    | _ => closesBeforeColon nested ts

def isPatternStart : Reader Bool := fun c =>
  .ok (c.current.kind == .openBracket && closesBeforeColon 0 (c.current :: c.later), c)

def labelOf (token : Token) : Reader Label :=
  if token.kind = .string then .regular <$> ofToken token (Literal.unquote token.text)
  else pure (Label.ofIdent token.text)

/-- A field; `a: b: c` stands for `a: {b: c}`, and `a: [p]: c` likewise. -/
def field (lv : Level) : Reader Decl := do
  let label ← labelOf (← advance)
  let optional ← eat .question
  let _ ← expect .colon
  if (← isLabelStart) || (← isPatternStart) then
    return .field label optional (.struct [← lv.decl])
  else
    return .field label optional (← expr lv)

def declBody (lv : Level) : Reader Decl := do
  match (← current).kind with
  | .ellipsis =>
    let _ ← advance
    return .ellipsis
  | .openBracket =>
    let _ ← advance
    skipNewlines
    let label ← expr lv
    skipNewlines
    let _ ← expect .closeBracket
    let _ ← expect .colon
    return .pattern label (← expr lv)
  | _ =>
    if ← isLabelStart then field lv else return .embed (← expr lv)

/-- Declarations up to the token that ends them, which is not consumed. -/
def decls (lv : Level) (stop : TokenKind) : Reader (List Decl) :=
  loop (fun done => do
    skipSeparators
    if ← check stop then return .done done.reverse
    let d ← lv.decl
    let kind := (← current).kind
    if kind = .newline ∨ kind = .comma then return .again (d :: done)
    else if kind = stop then return .done (d :: done).reverse
    else unexpected (.separatorOr stop)) []

/-! ## Operands -/

/-- The items of a bracketed sequence: each turn reads one and the comma after it. -/
def commaItem (lv : Level) (done : List Expr) : Reader (Turn (List Expr) (List Expr)) := do
  let x ← expr lv
  skipNewlines
  if ← eat .comma then
    skipNewlines
    return .again (x :: done)
  else return .done (x :: done).reverse

def arguments (lv : Level) : Reader (List Expr) :=
  loop (fun done => do
    if ← check .closeParen then return .done done.reverse
    commaItem lv done) []

/-- The tail of an open list; without an expression it admits everything. -/
def listTail (lv : Level) : Reader Expr := do
  let kind := (← current).kind
  let tail ←
    if kind = .closeBracket ∨ kind = .comma ∨ kind = .newline then pure .top else expr lv
  skipNewlines
  let _ ← eat .comma
  skipNewlines
  return tail

def listItems (lv : Level) : Reader (List Expr × Option Expr) :=
  loop (fun done => do
    if ← check .closeBracket then return .done (done.reverse, none)
    if ← eat .ellipsis then return .done (done.reverse, some (← listTail lv))
    match ← commaItem lv done with
    | .again done => return .again done
    | .done all => return .done (all, none)) []

def primary (lv : Level) : Reader Expr := do
  let token ← current
  match token.kind with
  | .int =>
    let i ← ofToken token (Literal.integer token.text)
    let _ ← advance
    return .int i
  | .float =>
    let _ ← advance
    return .float (Literal.float token.text)
  | .string =>
    let s ← ofToken token (Literal.unquote token.text)
    let _ ← advance
    return .str s
  | .trueWord => let _ ← advance; return .bool true
  | .falseWord => let _ ← advance; return .bool false
  | .nullWord => let _ ← advance; return .null
  | .bottom => let _ ← advance; return .bottom
  | .ident =>
    let _ ← advance
    return if token.text = ['_'] then .top else .ident (String.ofList token.text)
  | .definition => let _ ← advance; return .ident (String.ofList token.text)
  | .openBrace =>
    let _ ← advance
    let ds ← decls lv .closeBrace
    let _ ← expect .closeBrace
    return .struct ds
  | .openBracket =>
    let _ ← advance
    skipNewlines
    let (elems, tail) ← listItems lv
    let _ ← expect .closeBracket
    return .list elems tail
  | .openParen =>
    let _ ← advance
    skipNewlines
    let x ← expr lv
    skipNewlines
    let _ ← expect .closeParen
    return x
  | _ => unexpected .expression

/-- One selection, index or call after `x`, if there is one. -/
def postfixTurn (lv : Level) (x : Expr) : Reader (Turn Expr Expr) := do
  match (← current).kind with
  | .dot =>
    wrap
    let _ ← advance
    let token ← current
    if isLabelKind token.kind then
      let label ← labelOf token
      let _ ← advance
      return .again (.select x label)
    else unexpected .fieldName
  | .openBracket =>
    wrap
    let _ ← advance
    skipNewlines
    let position ← expr lv
    skipNewlines
    let _ ← expect .closeBracket
    return .again (.index x position)
  | .openParen =>
    wrap
    let _ ← advance
    skipNewlines
    let args ← arguments lv
    let _ ← expect .closeParen
    return .again (.call x args)
  | _ => return .done x

def postfixChain (lv : Level) : Reader Expr := subtree lv.depth do
  loop (postfixTurn lv) (← primary lv)

def unaryBody (lv : Level) : Reader Expr := do
  match prefixOp? (← current).kind with
  | some apply =>
    let _ ← advance
    return apply (← lv.unary)
  | none => postfixChain lv

/-! ## Levels -/

/-- The readers that are left when `left` more levels may be opened. -/
def level : Nat → Level
  | 0 => ⟨maxNesting, fail (.nestedDeeper maxNesting), fail (.nestedDeeper maxNesting)⟩
  | left + 1 =>
    let below := level left
    { depth := maxNesting - (left + 1)
      decl := do
        reach below.depth
        declBody below
      unary := do
        reach below.depth
        unaryBody below }

def outermost : Level := level maxNesting

/-! ## Texts -/

def importClause : Reader (List String) := do
  if ← eat .openParen then
    let names ← loop (fun done => do
      skipSeparators
      if ← check .closeParen then return .done done.reverse
      let token ← expect .string
      let name ← ofToken token (Literal.unquote token.text)
      return .again (name :: done)) []
    let _ ← expect .closeParen
    return names
  else
    let token ← expect .string
    return [← ofToken token (Literal.unquote token.text)]

def imports : Reader (List String) :=
  loop (fun done => do
    if ← eat .importWord then
      let names ← importClause
      skipSeparators
      return .again (done ++ names)
    else return .done done) []

def packageClause : Reader (Option String) := do
  if ← eat .packageWord then
    let name ← expect .ident
    skipSeparators
    return some (String.ofList name.text)
  else return none

def file : Reader SchemaFile := do
  skipSeparators
  let packageName ← packageClause
  let imports ← imports
  return ⟨packageName, imports, ← decls outermost .eof⟩

/-- A single expression with newlines around it. -/
def wholeExpr : Reader Expr := do
  skipNewlines
  let x ← expr outermost
  skipNewlines
  let _ ← expect .eof
  return x

def run {α : Type} (read : Reader α) (source : String) : Except Malformed α := do
  let tokens ← Token.tokenize source
  let (a, _) ← read (Cursor.ofTokens tokens)
  return a

end SchemaMock.Parser

namespace SchemaMock

def SchemaFile.parse (source : String) : Except Malformed SchemaFile :=
  Parser.run Parser.file source

def Expr.parse (source : String) : Except Malformed Expr := Parser.run Parser.wholeExpr source

end SchemaMock
