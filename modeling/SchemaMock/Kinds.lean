/-! # Sets of kinds

A value that is not yet known may still be of several kinds. Structs and lists count as kinds, so
that they conflict with each other and with scalars.
-/

namespace SchemaMock

/-- The kinds that a value may still take. -/
structure Kinds where
  null : Bool
  bool : Bool
  int : Bool
  float : Bool
  string : Bool
  struct : Bool
  list : Bool
deriving DecidableEq, Repr, Inhabited

namespace Kinds

def none : Kinds := ⟨false, false, false, false, false, false, false⟩

def top : Kinds := ⟨true, true, true, true, true, true, true⟩

def ofNull : Kinds := { none with null := true }
def ofBool : Kinds := { none with bool := true }
def ofInt : Kinds := { none with int := true }
def ofFloat : Kinds := { none with float := true }
def ofNumber : Kinds := { none with int := true, float := true }
def ofString : Kinds := { none with string := true }
def ofStruct : Kinds := { none with struct := true }
def ofList : Kinds := { none with list := true }

def inter (a b : Kinds) : Kinds :=
  ⟨a.null && b.null, a.bool && b.bool, a.int && b.int, a.float && b.float, a.string && b.string,
    a.struct && b.struct, a.list && b.list⟩

def union (a b : Kinds) : Kinds :=
  ⟨a.null || b.null, a.bool || b.bool, a.int || b.int, a.float || b.float, a.string || b.string,
    a.struct || b.struct, a.list || b.list⟩

def isEmpty (a : Kinds) : Bool := a == none

def meets (a b : Kinds) : Bool := !(a.inter b).isEmpty

/-- Whether every kind of `b` is one of `a`. -/
def contains (a b : Kinds) : Bool := a.inter b == b

theorem inter_comm (a b : Kinds) : a.inter b = b.inter a := by
  simp [inter, Bool.and_comm]

theorem inter_assoc (a b c : Kinds) : (a.inter b).inter c = a.inter (b.inter c) := by
  simp [inter, Bool.and_assoc]

theorem inter_self (a : Kinds) : a.inter a = a := by simp [inter]

/-- The names of the kinds, numbers first; integers and floats together are `number`. -/
def names (a : Kinds) : List String :=
  let named (b : Bool) (name : String) : List String := if b then [name] else []
  (if a.int && a.float then ["number"] else named a.int "int" ++ named a.float "float") ++
    named a.null "null" ++ named a.bool "bool" ++ named a.string "string" ++
    named a.struct "struct" ++ named a.list "list"

def display (a : Kinds) : String :=
  if a = top then "_" else if a = none then "_|_" else "|".intercalate a.names

end Kinds

end SchemaMock
