/-! # Host values

The values that a host program passes in and gets back. Integers and floats are never confused, and
the fields of an object stand in ascending order of their names, each name once.
-/

namespace SchemaMock

inductive Json where
  | null
  | bool (b : Bool)
  | int (i : Int)
  | float (x : Float)
  | str (s : String)
  | arr (items : List Json)
  | obj (fields : List (String × Json))
deriving Inhabited

namespace Json

/-- Integers that a host holds in 64 bits, signed or unsigned. -/
def fits64 (i : Int) : Bool := decide (-(1 <<< 63 : Nat) ≤ i) && decide (i < (1 <<< 64 : Nat))

def isFinite (x : Float) : Bool := x.isFinite

/-- Field names ascend strictly. -/
def ascending : List (String × Json) → Bool
  | [] => true
  | [_] => true
  | a :: b :: rest => decide (a.1 < b.1) && ascending (b :: rest)

mutual

/-- What a host can hold: integers of 64 bits, finite floats, fields in order. -/
def canonical : Json → Bool
  | .int i => fits64 i
  | .float x => isFinite x
  | .arr items => canonicalItems items
  | .obj fields => ascending fields && canonicalFields fields
  | _ => true

def canonicalItems : List Json → Bool
  | [] => true
  | j :: rest => canonical j && canonicalItems rest

def canonicalFields : List (String × Json) → Bool
  | [] => true
  | (_, j) :: rest => canonical j && canonicalFields rest

end

mutual

/-- Floats compare as numbers, so NaN equals nothing and the zeros are equal; an integer never
equals a float. -/
def beq : Json → Json → Bool
  | .null, .null => true
  | .bool a, .bool b => a == b
  | .int a, .int b => a == b
  | .float a, .float b => a == b
  | .str a, .str b => a == b
  | .arr a, .arr b => beqItems a b
  | .obj a, .obj b => beqFields a b
  | _, _ => false

def beqItems : List Json → List Json → Bool
  | [], [] => true
  | a :: as, b :: bs => beq a b && beqItems as bs
  | _, _ => false

def beqFields : List (String × Json) → List (String × Json) → Bool
  | [], [] => true
  | (k, a) :: as, (l, b) :: bs => k == l && beq a b && beqFields as bs
  | _, _ => false

end

instance : BEq Json := ⟨beq⟩

/-- A field takes its place in the order; a name already present gets the new value. -/
def insertField (name : String) (value : Json) : List (String × Json) → List (String × Json)
  | [] => [(name, value)]
  | (k, v) :: rest =>
    if name < k then (name, value) :: (k, v) :: rest
    else if name = k then (name, value) :: rest
    else (k, v) :: insertField name value rest

/-- The last of several fields of one name wins. -/
def ofFields (fields : List (String × Json)) : Json :=
  .obj (fields.foldl (fun done f => insertField f.1 f.2 done) [])

def field? (name : String) : Json → Option Json
  | .obj fields => (fields.find? (·.1 == name)).map (·.2)
  | _ => none

mutual

/-- A value without parts has depth 1. -/
def depth : Json → Nat
  | .arr items => depthItems items + 1
  | .obj fields => depthFields fields + 1
  | _ => 1

def depthItems : List Json → Nat
  | [] => 0
  | j :: rest => max (depth j) (depthItems rest)

def depthFields : List (String × Json) → Nat
  | [] => 0
  | (_, j) :: rest => max (depth j) (depthFields rest)

end

end Json

end SchemaMock
