import SchemaMock.Fault

/-! # Operators on scalars

Integers are exact within 128 bits. An operation on an integer and a float is done on floats, and
division always is.
-/

namespace SchemaMock

/-- An integer result, unless it leaves the 128 bits. -/
def Scalar.ofInt? (i : Int) : Except Cause Scalar :=
  if fits128 i then .ok (.int i) else .error .integerOverflow

/-- The value of a unary operator; the bounds have none. -/
def UnaryOp.apply (op : UnaryOp) (x : Scalar) : Except Cause Scalar :=
  match op, x with
  | .not, .bool b => .ok (.bool !b)
  | .neg, .int i => Scalar.ofInt? (-i)
  | .neg, .float f => .ok (.float (-f))
  | .plus, .int i => .ok (.int i)
  | .plus, .float f => .ok (.float f)
  | op, x =>
    match BoundOp.ofUnary? op with
    | some bound => .error (.boundAsOperator bound)
    | none => .error (.undefinedUnary op x)

namespace BinaryOp

/-- Null may be compared with anything; otherwise both must be numbers or of one kind. -/
def equate (op : BinaryOp) (x y : Scalar) : Except Cause Bool :=
  match x, y with
  | .null, y => .ok (Scalar.null.same y)
  | x, .null => .ok (x.same .null)
  | x, y =>
    if x.kinds = y.kinds ∨ (x.toFloat?.isSome ∧ y.toFloat?.isSome) then .ok (x.looselyEquals y)
    else .error (.mismatched op x y)

def order (op : BinaryOp) (allows : Ordering → Bool) (x y : Scalar) : Except Cause Scalar :=
  match x.compare y with
  | some o => .ok (.bool (allows o))
  | none => .error (.mismatched op x y)

def logical (op : BinaryOp) (f : Bool → Bool → Bool) (x y : Scalar) : Except Cause Scalar :=
  match x, y with
  | .bool a, .bool b => .ok (.bool (f a b))
  | x, y => .error (.mismatched op x y)

def arithmetic (op : BinaryOp) (onInts : Int → Int → Int) (onFloats : Float → Float → Float)
    (x y : Scalar) : Except Cause Scalar :=
  match x, y with
  | .int a, .int b => Scalar.ofInt? (onInts a b)
  | x, y =>
    match x.toFloat?, y.toFloat? with
    | some a, some b => .ok (.float (onFloats a b))
    | _, _ => .error (.mismatched op x y)

def divide (x y : Scalar) : Except Cause Scalar :=
  match x.toFloat?, y.toFloat? with
  | some a, some b => if b == 0 then .error .divisionByZero else .ok (.float (a / b))
  | _, _ => .error (.mismatched .div x y)

/-- The value of a binary operator. Unification and disjunction are not operators on scalars. -/
def apply (op : BinaryOp) (x y : Scalar) : Except Cause Scalar :=
  match op with
  | .eq => (equate op x y).map fun b => .bool b
  | .ne => (equate op x y).map fun b => .bool !b
  | .lt => order op (· == .lt) x y
  | .le => order op (· != .gt) x y
  | .gt => order op (· == .gt) x y
  | .ge => order op (· != .lt) x y
  | .and => logical op (· && ·) x y
  | .or => logical op (· || ·) x y
  | .add =>
    match x, y with
    | .str a, .str b => .ok (.str (a ++ b))
    | x, y => arithmetic op (· + ·) (· + ·) x y
  | .sub => arithmetic op (· - ·) (· - ·) x y
  | .mul => arithmetic op (· * ·) (· * ·) x y
  | .div => divide x y
  | .unify | .disjoin => .error (.notValueOperator op)

end BinaryOp

end SchemaMock
