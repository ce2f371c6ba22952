import SchemaMock.Expr.Parser
import SchemaMock.Proofs.Token.Bytes

/-! # Reading by position

The grammar once more, over positions: a walk keeps the number of the token at hand, cuts the text
of a token out of the source by its span, strips quotes by cutting off a byte at either end, and
counts the brackets that are open. Each of these steps may go wrong, and so may a loop that does not
move on. Nothing is left to chance here: where a step would go wrong the walk breaks off with a
lapse, which is no fault of the text.
-/

namespace SchemaMock

/-! ## Walks -/

/-- What a walk must not come to. -/
inductive Lapse where
  /-- No token has this number. -/
  | token (index : Nat)
  /-- The bytes are not all there, or a character is cut in two. -/
  | bytes (span : Span)
  /-- A count would go below zero. -/
  | below
  /-- A turn of a loop, not the last, has consumed no token. -/
  | idle
deriving DecidableEq, Repr

/-- How a walk breaks off. -/
inductive Stop where
  | fault (m : Malformed)
  | lapse (l : Lapse)
deriving DecidableEq, Repr

/-- What is walked over. Of a token only its kind and its span are used. -/
structure Ground where
  source : String
  tokens : List Token

/-- The number of the token at hand, and the depth of the deepest node read. -/
structure Place where
  index : Nat
  deepest : Nat

abbrev Walk := ReaderT Ground (StateT Place (Except Stop))

namespace Walk

open Reader (Turn)
open SchemaMock.Parser (binaryOp? prefixOp? isLabelKind)

variable {α β : Type}

def lapse (l : Lapse) : Walk α := throw (.lapse l)

def faultAt (span : Span) (fault : SourceFault) : Walk α := throw (.fault ⟨span, fault⟩)

def minus (m n : Nat) : Walk Nat := if m < n then lapse .below else pure (m - n)

/-! ## Tokens -/

def tokenAt (i : Nat) : Walk Token := do
  match (← read).tokens[i]? with
  | some t => return t
  | none => lapse (.token i)

def last : Walk Nat := do minus (← read).tokens.length 1

/-- The token `n` places ahead; the last one stands for all that would follow it. -/
def peek (n : Nat) : Walk Token := do tokenAt (min ((← get).index + n) (← last))

def current : Walk Token := peek 0

def check (kind : TokenKind) : Walk Bool := return (← current).kind == kind

def advance : Walk Token := do
  let token ← current
  let place ← get
  if place.index < (← last) then set { place with index := place.index + 1 }
  return token

def eat (kind : TokenKind) : Walk Bool := do
  if ← check kind then
    let _ ← advance
    return true
  else return false

def fail (fault : SourceFault) : Walk α := do faultAt (← current).span fault

def unexpected (what : Expectation) : Walk α := do fail (.expected what (← current).kind)

def expect (kind : TokenKind) : Walk Token := do
  if ← check kind then advance else unexpected (.token kind)

/-! ## Texts -/

def text (span : Span) : Walk (List Char) := do
  match span.slice? (← read).source.toList with
  | some cs => return cs
  | none => lapse (.bytes span)

example : text ⟨0, 1⟩ ⟨"é", []⟩ ⟨0, 0⟩ = .error (.lapse (.bytes ⟨0, 1⟩)) := rfl

def inToken (span : Span) (result : Except SourceFault α) : Walk α :=
  match result with
  | .ok a => pure a
  | .error fault => faultAt span fault

/-- The value of a literal, of which the first byte and the last one are cut off. -/
def unquote (literal : List Char) (span : Span) : Walk String := do
  let inner : Span := ⟨1, ← minus (Token.byteLength literal) 1⟩
  match inner.slice? literal with
  | some cs => inToken span (String.ofList <$> Literal.unescape cs)
  | none => lapse (.bytes inner)

/-! ## Depth -/

def reach (depth : Nat) : Walk Unit := do
  if maxDepth < depth then fail (.nestedDeeper maxDepth)
  else modify fun place => { place with deepest := max place.deepest depth }

def wrap : Walk Unit := do reach ((← get).deepest + 1)

/-- Reads a tree whose root stands at `depth`, with a count of its own for the deepest node. -/
def subtree (depth : Nat) (read : Walk α) : Walk α := do
  let outer := (← get).deepest
  modify fun place => { place with deepest := depth }
  let a ← read
  modify fun place => { place with deepest := max place.deepest outer }
  return a

/-! ## Repetition -/

/-- Goes on after a turn that began at `before`, if it was not the last and has consumed a token. -/
def resume (before : Nat) (further : α → Walk β) : Turn α β → Walk β
  | .again a => do
    if before < (← get).index then further a else lapse .idle
  | .done b => return b

/-- Turns until one is the last. As each of the others consumes a token there are no more turns than
tokens. -/
def loop (turn : α → Walk (Turn α β)) (a : α) : Walk β := do
  go ((← read).tokens.length - (← get).index) a
where
  go : Nat → α → Walk β
    | 0, _ => lapse .idle
    | n + 1, a => do
      let before := (← get).index
      resume before (go n) (← turn a)

def skipWhile (eaten : Walk Bool) : Walk Unit :=
  loop (α := Unit) (fun _ => return if ← eaten then .again () else .done ()) ()

def skipNewlines : Walk Unit := skipWhile (eat .newline)

def skipSeparators : Walk Unit := skipWhile do
  if ← eat .newline then return true else eat .comma

/-! ## Operators -/

/-- The walks that go one level down, and the depth of the nodes on the level at hand. -/
structure Level where
  depth : Nat
  decl : Walk Decl
  unary : Walk Expr

theorem precedence_le (op : BinaryOp) : op.precedence ≤ 7 := by cases op <;> decide

/-- Operands joined by operators of at least the precedence `least`. -/
def binary (lv : Level) (least : Nat) : Walk Expr := subtree lv.depth do
  let first ← lv.unary
  loop (α := Expr) (fun lhs => do
    match binaryOp? (← current).kind with
    | none => return .done lhs
    | some op =>
      if _h : op.precedence < least then return .done lhs
      else
        wrap
        let _ ← advance
        skipNewlines
        let rhs ← binary lv (op.precedence + 1)
        return .again (.binary op lhs rhs)) first
termination_by 8 - least
decreasing_by
  have hle := precedence_le op
  omega

def expr (lv : Level) : Walk Expr := binary lv 1

/-! ## Declarations -/

/-- A label is followed by a colon, or by a question mark and a colon. -/
def isLabelStart : Walk Bool := do
  let here ← peek 0
  let first ← peek 1
  let second ← peek 2
  return isLabelKind here.kind &&
    (first.kind == .colon || (first.kind == .question && second.kind == .colon))

/-- Whether a colon follows where `nested` brackets are closed, in tokens that stand `offset` places
ahead. -/
def closesBeforeColon (nested offset : Nat) : List Token → Walk Bool
  | [] => return false
  | t :: ts =>
    match t.kind with
    | .openBracket => closesBeforeColon (nested + 1) (offset + 1) ts
    | .closeBracket => do
      let nested ← minus nested 1
      if nested = 0 then return (← peek (offset + 1)).kind == .colon
      else closesBeforeColon nested (offset + 1) ts
    | .eof => return false
    | _ => closesBeforeColon nested (offset + 1) ts

def ahead : Walk (List Token) := do
  let index := (← get).index
  if index ≤ (← read).tokens.length then return (← read).tokens.drop index else lapse (.token index)

def isPatternStart : Walk Bool := do
  if ← check .openBracket then closesBeforeColon 0 0 (← ahead) else return false

def labelOf (token : Token) : Walk Label := do
  let cs ← text token.span
  if token.kind = .string then return .regular (← unquote cs token.span) else return .ofIdent cs

/-- A field; `a: b: c` stands for `a: {b: c}`, and `a: [p]: c` likewise. -/
def field (lv : Level) : Walk Decl := do
  let label ← labelOf (← advance)
  let optional ← eat .question
  let _ ← expect .colon
  if (← isLabelStart) || (← isPatternStart) then
    return .field label optional (.struct [← lv.decl])
  else
    return .field label optional (← expr lv)

def declBody (lv : Level) : Walk Decl := do
  match (← current).kind with
  | .ellipsis =>
    let _ ← advance
    return .ellipsis
  | .openBracket =>
    let _ ← advance
    skipNewlines
    let label ← expr lv
    skipNewlines
    let _ ← expect .closeBracket
    let _ ← expect .colon
    return .pattern label (← expr lv)
  | _ =>
    if ← isLabelStart then field lv else return .embed (← expr lv)

/-- Declarations up to the token that ends them, which is not consumed. -/
def decls (lv : Level) (stop : TokenKind) : Walk (List Decl) :=
  loop (fun done => do
    skipSeparators
    if ← check stop then return .done done.reverse
    let d ← lv.decl
    let kind := (← current).kind
    if kind = .newline ∨ kind = .comma then return .again (d :: done)
    else if kind = stop then return .done (d :: done).reverse
    else unexpected (.separatorOr stop)) []

/-! ## Operands -/

/-- The items of a bracketed sequence: each turn reads one and the comma after it. -/
def commaItem (lv : Level) (done : List Expr) : Walk (Turn (List Expr) (List Expr)) := do
  let x ← expr lv
  skipNewlines
  if ← eat .comma then
    skipNewlines
    return .again (x :: done)
  else return .done (x :: done).reverse

def arguments (lv : Level) : Walk (List Expr) :=
  loop (fun done => do
    if ← check .closeParen then return .done done.reverse
    commaItem lv done) []

/-- The tail of an open list; without an expression it admits everything. -/
def listTail (lv : Level) : Walk Expr := do
  let kind := (← current).kind
  let tail ←
    if kind = .closeBracket ∨ kind = .comma ∨ kind = .newline then pure .top else expr lv
  skipNewlines
  let _ ← eat .comma
  skipNewlines
  return tail

def listItems (lv : Level) : Walk (List Expr × Option Expr) :=
  loop (fun done => do
    if ← check .closeBracket then return .done (done.reverse, none)
    if ← eat .ellipsis then return .done (done.reverse, some (← listTail lv))
    match ← commaItem lv done with
    | .again done => return .again done
    | .done all => return .done (all, none)) []

def primary (lv : Level) : Walk Expr := do
  let token ← current
  match token.kind with
  | .int =>
    let i ← inToken token.span (Literal.integer (← text token.span))
    let _ ← advance
    return .int i
  | .float =>
    let cs ← text token.span
    let _ ← advance
    return .float (Literal.float cs)
  | .string =>
    let s ← unquote (← text token.span) token.span
    let _ ← advance
    return .str s
  | .trueWord => let _ ← advance; return .bool true
  | .falseWord => let _ ← advance; return .bool false
  | .nullWord => let _ ← advance; return .null
  | .bottom => let _ ← advance; return .bottom
  | .ident =>
    let cs ← text token.span
    let _ ← advance
    return if cs = ['_'] then .top else .ident (String.ofList cs)
  | .definition =>
    let cs ← text token.span
    let _ ← advance
    return .ident (String.ofList cs)
  | .openBrace =>
    let _ ← advance
    let ds ← decls lv .closeBrace
    let _ ← expect .closeBrace
    return .struct ds
  | .openBracket =>
    let _ ← advance
    skipNewlines
    let (elems, tail) ← listItems lv
    let _ ← expect .closeBracket
    return .list elems tail
  | .openParen =>
    let _ ← advance
    skipNewlines
    let x ← expr lv
    skipNewlines
    let _ ← expect .closeParen
    return x
  | _ => unexpected .expression

/-- One selection, index or call after `x`, if there is one. -/
def postfixTurn (lv : Level) (x : Expr) : Walk (Turn Expr Expr) := do
  match (← current).kind with
  | .dot =>
    wrap
    let _ ← advance
    let token ← current
    if isLabelKind token.kind then
      let label ← labelOf token
      let _ ← advance
      return .again (.select x label)
    else unexpected .fieldName
  | .openBracket =>
    wrap
    let _ ← advance
    skipNewlines
    let position ← expr lv
    skipNewlines
    let _ ← expect .closeBracket
    return .again (.index x position)
  | .openParen =>
    wrap
    let _ ← advance
    skipNewlines
    let args ← arguments lv
    let _ ← expect .closeParen
    return .again (.call x args)
  | _ => return .done x

def postfixChain (lv : Level) : Walk Expr := subtree lv.depth do
  loop (postfixTurn lv) (← primary lv)

def unaryBody (lv : Level) : Walk Expr := do
  match prefixOp? (← current).kind with
  | some apply =>
    let _ ← advance
    return apply (← lv.unary)
  | none => postfixChain lv

/-! ## Levels -/

/-- The walks that are left when `left` more levels may be opened. -/
def level : Nat → Level
  | 0 => ⟨maxNesting, fail (.nestedDeeper maxNesting), fail (.nestedDeeper maxNesting)⟩
  | left + 1 =>
    let below := level left
    { depth := maxNesting - (left + 1)
      decl := do
        reach below.depth
        declBody below
      unary := do
        reach below.depth
        unaryBody below }

def outermost : Level := level maxNesting

/-! ## Texts -/

def importName : Walk String := do
  let token ← expect .string
  unquote (← text token.span) token.span

def importClause : Walk (List String) := do
  if ← eat .openParen then
    let names ← loop (fun done => do
      skipSeparators
      if ← check .closeParen then return .done done.reverse
      return .again ((← importName) :: done)) []
    let _ ← expect .closeParen
    return names
  else return [← importName]

def imports : Walk (List String) :=
  loop (fun done => do
    if ← eat .importWord then
      let names ← importClause
      skipSeparators
      return .again (done ++ names)
    else return .done done) []

def packageClause : Walk (Option String) := do
  if ← eat .packageWord then
    let name ← text (← expect .ident).span
    skipSeparators
    return some (String.ofList name)
  else return none

def file : Walk SchemaFile := do
  skipSeparators
  let packageName ← packageClause
  let imports ← imports
  return ⟨packageName, imports, ← decls outermost .eof⟩

def wholeExpr : Walk Expr := do
  skipNewlines
  let x ← expr outermost
  skipNewlines
  let _ ← expect .eof
  return x

def run (walk : Walk α) (source : String) : Except Stop α := do
  let tokens ← (Token.tokenize source).mapError .fault
  let (a, _) ← walk ⟨source, tokens⟩ ⟨0, 0⟩
  return a

end Walk

end SchemaMock
