import SchemaMock.Operator
import SchemaMock.Text.Casing
import SchemaMock.Text.Search

/-! # Calling the predeclared functions

Arguments are host values and the result is a scalar.
-/

namespace SchemaMock.Builtin

variable {α : Type}

def refuse (f : Builtin) (problem : ArgumentProblem) : Except Cause α :=
  .error (.argument f problem)

def stringArg (f : Builtin) : Json → Except Cause String
  | .str s => .ok s
  | j => refuse f (.notString j)

def listArg (f : Builtin) : Json → Except Cause (List Json)
  | .arr items => .ok items
  | j => refuse f (.notList j)

def numberArg (f : Builtin) : Json → Except Cause Scalar
  | .int i => .ok (.int i)
  | .float x => .ok (.float x)
  | j => refuse f (.notNumber j)

def numbers (f : Builtin) (j : Json) : Except Cause (List Scalar) := do
  (← listArg f j).mapM (numberArg f)

/-- The length of a string in bytes, or the number of elements or fields. -/
def lengthOf : Json → Except Cause Nat
  | .str s => .ok s.utf8ByteSize
  | .arr items => .ok items.length
  | .obj fields => .ok fields.length
  | j => refuse len (.noLength j)

def sum (items : List Scalar) : Except Cause Scalar :=
  items.foldlM (BinaryOp.apply .add) (.int 0)

/-- The first item that none after it exceeds in the direction `want`. -/
def extreme? (want : Ordering) : List Scalar → Option Scalar
  | [] => none
  | x :: rest =>
    some (rest.foldl (fun best n => if n.compare best = some want then n else best) x)

def extreme (f : Builtin) (want : Ordering) (j : Json) : Except Cause Scalar := do
  match extreme? want (← numbers f j) with
  | some best => .ok best
  | none => refuse f .emptyList

def textTest (f : Builtin) (test : List Char → List Char → Bool) (whole part : Json) :
    Except Cause Scalar := do
  let whole ← stringArg f whole
  let part ← stringArg f part
  return .bool (test part.toList whole.toList)

def join (items separator : Json) : Except Cause Scalar := do
  let parts ← (← listArg stringsJoin items).mapM (stringArg stringsJoin)
  let separator ← stringArg stringsJoin separator
  return .str (separator.intercalate parts)

def call (f : Builtin) (args : List Json) : Except Cause Scalar :=
  match f, args with
  | .len, [j] => do return .int (← lengthOf j)
  | .listContains, [j, x] => do return .bool ((← listArg f j).any fun item => item == x)
  | .listSum, [j] => do sum (← numbers f j)
  | .listMax, [j] => extreme f .gt j
  | .listMin, [j] => extreme f .lt j
  | .stringsContains, [whole, part] => textTest f Text.occursIn whole part
  | .stringsHasPrefix, [whole, part] => textTest f List.isPrefixOf whole part
  | .stringsHasSuffix, [whole, part] => textTest f List.isSuffixOf whole part
  | .stringsToUpper, [j] => do return .str (Text.upper (← stringArg f j))
  | .stringsToLower, [j] => do return .str (Text.lower (← stringArg f j))
  | .stringsJoin, [items, separator] => join items separator
  | f, args => refuse f (.count f.arity args.length)

end SchemaMock.Builtin
