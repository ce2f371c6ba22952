import SchemaMock.Limits
import SchemaMock.Token.Lexer

/-! # Reading tokens

A reader walks along the tokens and never past the last one. It keeps the depth of the deepest node
of the tree that is being read, so that no tree grows deeper than `maxDepth`.
-/

namespace SchemaMock

/-- The token at hand, those that follow, and the depth of the deepest node read. -/
structure Cursor where
  current : Token
  later : List Token
  deepest : Nat

namespace Cursor

def ofTokens : List Token → Cursor
  | [] => ⟨⟨.eof, .origin, []⟩, [], 0⟩
  | t :: ts => ⟨t, ts, 0⟩

/-- The token `n` places ahead; the last one stands for all that would follow it. -/
def peek (c : Cursor) (n : Nat) : Token :=
  match (c.current :: c.later)[n]? with
  | some t => t
  | none => c.later.getLastD c.current

/-- One token further; the cursor stays on the last. -/
def next (c : Cursor) : Cursor :=
  match c.later with
  | [] => c
  | t :: ts => { c with current := t, later := ts }

def skip (p : TokenKind → Bool) (c : Cursor) : Cursor := go c.current c.later
where
  go (t : Token) : List Token → Cursor
    | [] => { c with current := t, later := [] }
    | u :: us => if p t.kind then go u us else { c with current := t, later := u :: us }

end Cursor

/-- A reader consumes tokens and gives a result or a fault. -/
abbrev Reader := StateT Cursor (Except Malformed)

namespace Reader

variable {α β : Type}

def fail (fault : SourceFault) : Reader α := fun c => .error ⟨c.current.span, fault⟩

def current : Reader Token := fun c => .ok (c.current, c)

def kindAhead (n : Nat) : Reader TokenKind := fun c => .ok ((c.peek n).kind, c)

def advance : Reader Token := fun c => .ok (c.current, c.next)

def check (kind : TokenKind) : Reader Bool := fun c => .ok (c.current.kind == kind, c)

/-- Whether the current token is of the kind; if so it is consumed. -/
def eat (kind : TokenKind) : Reader Bool := fun c =>
  if c.current.kind = kind then .ok (true, c.next) else .ok (false, c)

def unexpected (what : Expectation) : Reader α := fun c =>
  .error ⟨c.current.span, .expected what c.current.kind⟩

def expect (kind : TokenKind) : Reader Token := fun c =>
  if c.current.kind = kind then .ok (c.current, c.next)
  else .error ⟨c.current.span, .expected (.token kind) c.current.kind⟩

def skipNewlines : Reader Unit := fun c => .ok ((), c.skip (· == .newline))

/-- Newlines and commas separate declarations. -/
def skipSeparators : Reader Unit := fun c => .ok ((), c.skip fun k => k == .newline || k == .comma)

def ofToken (token : Token) (result : Except SourceFault α) : Reader α := fun c =>
  match result with
  | .ok a => .ok (a, c)
  | .error fault => .error ⟨token.span, fault⟩

/-! ## Depth -/

/-- A node at this depth is about to be read. -/
def reach (depth : Nat) : Reader Unit := fun c =>
  if maxDepth < depth then .error ⟨c.current.span, .nestedDeeper maxDepth⟩
  else .ok ((), { c with deepest := max c.deepest depth })

/-- The tree read so far goes under one more node. -/
def wrap : Reader Unit := fun c => reach (c.deepest + 1) c

/-- Reads a tree whose root stands at `depth`, with a count of its own for the deepest node. -/
def subtree (depth : Nat) (read : Reader α) : Reader α := fun c =>
  match read { c with deepest := depth } with
  | .ok (a, c') => .ok (a, { c' with deepest := max c'.deepest c.deepest })
  | .error e => .error e

/-! ## Repetition -/

inductive Turn (α β : Type) where
  | again (a : α)
  | done (b : β)

/-- Turns until one is the last. Each turn but the last consumes a token, so there are no more turns
than tokens. -/
def loop (turn : α → Reader (Turn α β)) (a : α) : Reader β := fun c => go (c.later.length + 1) a c
where
  go : Nat → α → Reader β
    | 0, _ => fail .stalled
    | n + 1, a => do
      match ← turn a with
      | .again a => go n a
      | .done b => pure b

end Reader

end SchemaMock
