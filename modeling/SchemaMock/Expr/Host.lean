import SchemaMock.Fault

/-! # Expressions for host values

A host value is written as an expression that denotes it, or as the expression of its shape, in
which the leaves have become their types. Either is refused when the value nests too deeply.
-/

namespace SchemaMock.Expr

mutual

/-- The expression that denotes a host value; `left` more levels may be opened. -/
def encode (left : Nat) (j : Json) : Except Cause Expr :=
  match left with
  | 0 => .error .hostDepth
  | left + 1 =>
    match j with
    | .null => .ok .null
    | .bool b => .ok (.bool b)
    | .int i => .ok (.int i)
    | .float x => .ok (.float x)
    | .str s => .ok (.str s)
    | .arr items => (encodeItems left items).map fun xs => .list xs none
    | .obj fields => (encodeFields left fields).map .struct
termination_by structural j

def encodeItems (left : Nat) (js : List Json) : Except Cause (List Expr) :=
  match js with
  | [] => .ok []
  | j :: rest => do
    let x ← encode left j
    return x :: (← encodeItems left rest)
termination_by structural js

def encodeFields (left : Nat) (fs : List (String × Json)) : Except Cause (List Decl) :=
  match fs with
  | [] => .ok []
  | (name, j) :: rest => do
    let x ← encode left j
    return .field (.regular name) false x :: (← encodeFields left rest)
termination_by structural fs

end

/-- The expression of a host value of at most `maxDepth` levels below its root. -/
def ofJson (j : Json) : Except Cause Expr := encode (maxDepth + 1) j

mutual

/-- Null may become anything but is null by default; arrays and empty objects are open. -/
def shape (left : Nat) (j : Json) : Except Cause Expr :=
  match left with
  | 0 => .error .hostDepth
  | left + 1 =>
    match j with
    | .null => .ok (.binary .disjoin (.marked .null) .top)
    | .bool _ => .ok (.ident "bool")
    | .int _ => .ok (.ident "int")
    | .float _ => .ok (.ident "number")
    | .str _ => .ok (.ident "string")
    | .arr _ => .ok (.list [] (some .top))
    | .obj [] => .ok (.struct [.ellipsis])
    | .obj (f :: fields) => (shapeFields left (f :: fields)).map .struct
termination_by structural j

def shapeFields (left : Nat) (fs : List (String × Json)) : Except Cause (List Decl) :=
  match fs with
  | [] => .ok []
  | (name, j) :: rest => do
    let x ← shape left j
    return .field (.regular name) false x :: (← shapeFields left rest)
termination_by structural fs

end

def shapeOf (j : Json) : Except Cause Expr := shape (maxDepth + 1) j

end SchemaMock.Expr

namespace SchemaMock.Scalar

/-- Integers beyond 64 bits and floats that are not finite have no host value. -/
def toJson : Scalar → Except Cause Json
  | null => .ok .null
  | bool b => .ok (.bool b)
  | int i => if Json.fits64 i then .ok (.int i) else .error (.integerWidth i)
  | float x => if Json.isFinite x then .ok (.float x) else .error (.nonFinite x)
  | str s => .ok (.str s)

end SchemaMock.Scalar
