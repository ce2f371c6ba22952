import SchemaMock.Expr
import SchemaMock.Scalar

/-! # Constraints on scalars

A constraint is a set of kinds and a list of bounds. A bound compares a value with a scalar.
-/

namespace SchemaMock

inductive BoundOp where
  | notEqual
  | less
  | lessEqual
  | greater
  | greaterEqual
deriving DecidableEq, Repr, Inhabited

namespace BoundOp

def ofUnary? : UnaryOp → Option BoundOp
  | .notEqual => some notEqual
  | .less => some less
  | .lessEqual => some lessEqual
  | .greater => some greater
  | .greaterEqual => some greaterEqual
  | .not | .neg | .plus => none

def symbol : BoundOp → String
  | notEqual => "!="
  | less => "<"
  | lessEqual => "<="
  | greater => ">"
  | greaterEqual => ">="

/-- Whether an outcome of comparing a value with the scalar is within the bound. -/
def allows : BoundOp → Ordering → Bool
  | notEqual, o => o != .eq
  | less, o => o == .lt
  | lessEqual, o => o != .gt
  | greater, o => o == .gt
  | greaterEqual, o => o != .lt

end BoundOp

structure Bound where
  op : BoundOp
  value : Scalar
deriving Inhabited

namespace Bound

instance : BEq Bound := ⟨fun a b => a.op == b.op && a.value == b.value⟩

def kinds (b : Bound) : Kinds :=
  match b.op, b.value with
  | .notEqual, _ => .top
  | _, .str _ => .ofString
  | _, _ => .ofNumber

/-- Values that do not compare with the scalar are outside every ordering bound. -/
def admits (b : Bound) (v : Scalar) : Bool :=
  match b.op with
  | .notEqual => !v.looselyEquals b.value
  | op => match v.compare b.value with
    | some o => op.allows o
    | none => false

def display (b : Bound) : String := b.op.symbol ++ b.value.display

end Bound

/-- The kinds a value may take, and bounds that it has to keep. -/
structure Constraint where
  kinds : Kinds
  bounds : List Bound
deriving Inhabited

namespace Constraint

def ofKinds (k : Kinds) : Constraint := ⟨k, []⟩

def ofBound (b : Bound) : Constraint := ⟨b.kinds, [b]⟩

/-- The kinds are left out when there are bounds and every kind is possible. -/
def display (c : Constraint) : String :=
  let kinds := if c.kinds ≠ .top ∨ c.bounds.isEmpty then [c.kinds.display] else []
  " & ".intercalate (kinds ++ c.bounds.map Bound.display)

/-- Bounds of `more` that are not yet there, in order. -/
def addBounds (bounds more : List Bound) : List Bound :=
  more.foldl (fun done b => if done.contains b then done else done ++ [b]) bounds

end Constraint

end SchemaMock
