import SchemaMock.Decimal.Layout
import SchemaMock.Kinds
import SchemaMock.Text.Quoted

/-! # Scalars

The values without parts. Integers have 128 bits; floats are equal when they compare equal or are
both NaN.
-/

namespace SchemaMock

/-- Whether an integer has a place in 128 bits. -/
def fits128 (i : Int) : Bool := decide (-(1 <<< 127 : Nat) ≤ i) && decide (i < (1 <<< 127 : Nat))

/-- Equality under which NaN is itself. -/
def floatSame (x y : Float) : Bool := (x == y) || (x.isNaN && y.isNaN)

/-- The order of floats; NaN is comparable with nothing. -/
def floatCompare (x y : Float) : Option Ordering :=
  if x < y then some .lt else if x == y then some .eq else if y < x then some .gt else none

inductive Scalar where
  | null
  | bool (b : Bool)
  | int (i : Int)
  | float (x : Float)
  | str (s : String)
deriving Inhabited

namespace Scalar

def kinds : Scalar → Kinds
  | null => .ofNull
  | bool _ => .ofBool
  | int _ => .ofInt
  | float _ => .ofFloat
  | str _ => .ofString

/-- A number as a float, an integer rounded to the nearest. -/
def toFloat? : Scalar → Option Float
  | int i => some (Float.ofInt i)
  | float x => some x
  | _ => none

/-- Scalars of different kinds are never the same. -/
def same : Scalar → Scalar → Bool
  | null, null => true
  | bool a, bool b => a == b
  | int a, int b => a == b
  | float a, float b => floatSame a b
  | str a, str b => a == b
  | _, _ => false

instance : BEq Scalar := ⟨same⟩

/-- An integer and a float are loosely equal when they are the same number as floats. -/
def looselyEquals : Scalar → Scalar → Bool
  | int a, float b => Float.ofInt a == b
  | float a, int b => a == Float.ofInt b
  | a, b => a.same b

/-- Numbers compare with numbers and strings with strings, by their UTF-8 bytes. -/
def compare : Scalar → Scalar → Option Ordering
  | int a, int b => some (Ord.compare a b)
  | str a, str b => some (if a < b then .lt else if a = b then .eq else .gt)
  | a, b =>
    match a.toFloat?, b.toFloat? with
    | some x, some y => floatCompare x y
    | _, _ => none

/-- Floats in messages are written without exponent, and whole ones without point. -/
def floatLayout : Decimal.Layout := ⟨none, false, .up⟩

def display : Scalar → String
  | null => "null"
  | bool b => if b then "true" else "false"
  | int i => toString i
  | float x => floatLayout.write x
  | str s => Text.quote s

end Scalar

end SchemaMock
