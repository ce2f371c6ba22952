import SchemaMock.Expr
import SchemaMock.Expr.Literal
import SchemaMock.Text.Blank
import SchemaMock.Token.Lexer

/-! # Paths to the parts of a value

A path such as `funcs.F.args[0]` selects a field or an element at each step.
-/

namespace SchemaMock

inductive Selector where
  | label (l : Label)
  | index (n : Nat)
deriving DecidableEq, Repr, Inhabited

namespace Selector

def isIdentifier (name : List Char) : Bool :=
  match name with
  | [] => false
  | c :: cs => Token.isIdentStart c && cs.all Token.isIdentChar

/-- A regular name that is not an identifier is quoted. -/
def display : Selector → String
  | label (.regular name) => if isIdentifier name.toList then name else Text.quote name
  | label l => l.display
  | index n => s!"[{n}]"

def isRegular : Selector → Bool
  | label (.regular _) => true
  | _ => false

def isDefinition : Selector → Bool
  | label (.definition _) => true
  | _ => false

def isHidden : Selector → Bool
  | label (.hidden _) => true
  | _ => false

end Selector

structure Path where
  selectors : List Selector
deriving DecidableEq, Repr, Inhabited

namespace Path

def root : Path := ⟨[]⟩

def ofNames (names : List String) : Path := ⟨names.map fun n => .label (.regular n)⟩

def isRoot (p : Path) : Bool := p.selectors.isEmpty

def length (p : Path) : Nat := p.selectors.length

def last? (p : Path) : Option Selector := p.selectors.getLast?

def child (p : Path) (s : Selector) : Path := ⟨p.selectors ++ [s]⟩

def join (p q : Path) : Path := ⟨p.selectors ++ q.selectors⟩

/-- Whether `q` is a beginning of `p`, possibly all of it. -/
def startsWith (p q : Path) : Bool := q.selectors.isPrefixOf p.selectors

def hasDefinition (p : Path) : Bool := p.selectors.any Selector.isDefinition

/-! ## Writing -/

/-- A step after the first; labels are set off by a dot. -/
def displayStep (s : Selector) : String :=
  match s with
  | .index _ => s.display
  | .label _ => "." ++ s.display

def display (p : Path) : String :=
  match p.selectors with
  | [] => ""
  | s :: rest => s.display ++ String.join (rest.map displayStep)

/-! ## Reading -/

/-- Digits with an optional plus sign, of at most 64 bits. -/
def indexOf? (text : List Char) : Option Nat :=
  let digits := match text with
    | '+' :: rest => rest
    | _ => text
  if digits.isEmpty || !digits.all Char.isDigit then none
  else if Literal.natural digits < 1 <<< 64 then some (Literal.natural digits)
  else none

theorem length_of_dropWhile {p : Char → Bool} {cs rest : List Char} {c : Char}
    (h : cs.dropWhile p = c :: rest) : rest.length < cs.length := by
  have := congrArg List.length (List.takeWhile_append_dropWhile (p := p) (l := cs))
  rw [h, List.length_append, List.length_cons] at this
  omega

/-- The selectors of `cs`, which begins at byte `pos` of `text`. A dot may stand only after a
selector and only before a label. -/
def selectorsFrom (text : String) (started : Bool) (pos : Nat) (cs : List Char) :
    Except Malformed (List Selector) :=
  let fault (problem : PathProblem) : Except Malformed (List Selector) :=
    .error ⟨⟨pos, min (pos + 1) text.utf8ByteSize⟩, .path text problem⟩
  match cs with
  | [] => .ok []
  | '[' :: cs =>
    let inner := cs.takeWhile (· != ']')
    match _h : cs.dropWhile (· != ']') with
    | [] => fault .unterminatedIndex
    | _ :: rest =>
      match indexOf? (Text.trim inner) with
      | none => fault .notAnIndex
      | some n =>
        (.index n :: ·) <$> selectorsFrom text true (pos + Token.byteLength inner + 2) rest
  | '"' :: cs =>
    let inner := cs.takeWhile (· != '"')
    match _h : cs.dropWhile (· != '"') with
    | [] => fault .unterminatedLabel
    | _ :: rest =>
      (.label (.regular (String.ofList inner)) :: ·) <$>
        selectorsFrom text true (pos + Token.byteLength inner + 2) rest
  | '.' :: cs =>
    if started then
      match cs with
      | [] | '.' :: _ | '[' :: _ => fault .labelAfterDot
      | c :: cs => selectorsFrom text true (pos + 1) (c :: cs)
    else fault .emptyLabel
  | c :: cs =>
    let inner := c :: cs.takeWhile fun c => c != '.' && c != '['
    (.label (Label.ofIdent inner) :: ·) <$>
      selectorsFrom text true (pos + Token.byteLength inner)
        (cs.dropWhile fun c => c != '.' && c != '[')
termination_by cs.length
decreasing_by
  · exact Nat.lt_succ_of_lt (length_of_dropWhile _h)
  · exact Nat.lt_succ_of_lt (length_of_dropWhile _h)
  · simp
  · exact Nat.lt_succ_of_le (List.dropWhile_suffix _).length_le

/-- The path that a text names; the empty text names the root. -/
def parse (text : String) : Except Malformed Path :=
  Path.mk <$> selectorsFrom text false 0 text.toList

end Path

end SchemaMock
