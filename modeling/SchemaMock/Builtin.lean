import SchemaMock.Constraint

/-! # Predeclared names

Type names stand for constraints; the functions of two packages and `len` may be called.
-/

namespace SchemaMock

inductive Builtin where
  | len
  | listContains
  | listSum
  | listMax
  | listMin
  | stringsContains
  | stringsHasPrefix
  | stringsHasSuffix
  | stringsToUpper
  | stringsToLower
  | stringsJoin
deriving DecidableEq, Repr, Inhabited

namespace Builtin

def name : Builtin → String
  | len => "len"
  | listContains => "list.Contains"
  | listSum => "list.Sum"
  | listMax => "list.Max"
  | listMin => "list.Min"
  | stringsContains => "strings.Contains"
  | stringsHasPrefix => "strings.HasPrefix"
  | stringsHasSuffix => "strings.HasSuffix"
  | stringsToUpper => "strings.ToUpper"
  | stringsToLower => "strings.ToLower"
  | stringsJoin => "strings.Join"

def arity : Builtin → Nat
  | len | listSum | listMax | listMin | stringsToUpper | stringsToLower => 1
  | _ => 2

def isPackage (name : String) : Bool := name == "list" || name == "strings"

def member? (package name : String) : Option Builtin :=
  match package, name with
  | "list", "Contains" => some listContains
  | "list", "Sum" => some listSum
  | "list", "Max" => some listMax
  | "list", "Min" => some listMin
  | "strings", "Contains" => some stringsContains
  | "strings", "HasPrefix" => some stringsHasPrefix
  | "strings", "HasSuffix" => some stringsHasSuffix
  | "strings", "ToUpper" => some stringsToUpper
  | "strings", "ToLower" => some stringsToLower
  | "strings", "Join" => some stringsJoin
  | _, _ => none

def function? (name : String) : Option Builtin := if name = "len" then some len else none

end Builtin

/-- The integers from `least` to `greatest`. -/
def Constraint.integers (least greatest : Int) : Constraint :=
  ⟨.ofInt, [⟨.greaterEqual, .int least⟩, ⟨.lessEqual, .int greatest⟩]⟩

def Constraint.signed (bits : Nat) : Constraint :=
  .integers (-(1 <<< (bits - 1) : Nat)) ((1 <<< (bits - 1) : Nat) - 1)

def Constraint.unsigned (bits : Nat) : Constraint := .integers 0 ((1 <<< bits : Nat) - 1)

def Constraint.ofTypeName? (name : String) : Option Constraint :=
  match name with
  | "string" => some (.ofKinds .ofString)
  | "bool" => some (.ofKinds .ofBool)
  | "int" => some (.ofKinds .ofInt)
  | "float" => some (.ofKinds .ofFloat)
  | "number" => some (.ofKinds .ofNumber)
  | "uint" => some ⟨.ofInt, [⟨.greaterEqual, .int 0⟩]⟩
  | "int8" => some (.signed 8)
  | "int16" => some (.signed 16)
  | "int32" => some (.signed 32)
  | "int64" => some (.signed 64)
  | "uint8" => some (.unsigned 8)
  | "uint16" => some (.unsigned 16)
  | "uint32" => some (.unsigned 32)
  | "uint64" => some (.unsigned 64)
  | _ => none

end SchemaMock
