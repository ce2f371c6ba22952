import SchemaMock.Mock.Base
import SchemaMock.Mock.Fault

/-! # Registered types and variables

A registry holds the scope that mocks are compiled in: the built-in schema and a definition for each
registered type. Registration only adds to the scope, and a registration that fails adds nothing.
-/

namespace SchemaMock

structure Registry where
  scope : Value
  names : List String
deriving Inhabited

/-- A computation that works on a registry. What it has written before it fails stays written. -/
abbrev RegistryM := ExceptT MockFault (StateM Registry)

namespace Registry

def empty : Registry := ⟨Mock.base, []⟩

def perform (r : Registry) (act : RegistryM Unit) : Called Registry Unit := act.run.run r

/-- A scope may not have a final fault. -/
def check (scope : Value) : Except MockFault Unit :=
  match scope.faults false with
  | [] => .ok ()
  | faults => .error (.compile faults)

/-- Adds the definition `#name`. The new scope is checked as a whole before it takes the place of
the old one. -/
def define (name : String) (x : Expr) : RegistryM Unit := do
  let scope := (← get).scope.unify (.ofExpr (.field (.definition name) x))
  MonadExcept.ofExcept (check scope)
  modify fun r => { r with scope := scope }
  if !(← get).names.contains name then
    modify fun r => { r with names := r.names ++ [name] }

def register (r : Registry) (name : String) (default : HostValue) : Called Registry Unit :=
  let refuse (c : Cause) : MockFault := .encode (.type name) (Fault.of c).display
  r.perform do
    let j ← MonadExcept.ofExcept (default.mapError fun reason => refuse (.unencodableType reason))
    define name (← MonadExcept.ofExcept ((Expr.shapeOf j).mapError refuse))

/-- Registers a type that is written as an expression. -/
def registerSchema (r : Registry) (name text : String) : Called Registry Unit :=
  r.perform do
    define name (← MonadExcept.ofExcept ((Expr.parse text).mapError fun m =>
      MockFault.compile (Value.malformed m)))

end Registry

/-- Variables of the host, in the order of their first insertion. -/
structure Vars where
  entries : List (String × Json)
deriving Inhabited

namespace Vars

def empty : Vars := ⟨[]⟩

def isEmpty (vs : Vars) : Bool := vs.entries.isEmpty

def size (vs : Vars) : Nat := vs.entries.length

def get? (vs : Vars) (name : String) : Option Json := vs.entries.lookup name

/-- A variable that is already there keeps its place. -/
def insertJson (vs : Vars) (name : String) (j : Json) : Vars :=
  if (vs.get? name).isSome then
    ⟨vs.entries.map fun (k, old) => (k, if k = name then j else old)⟩
  else ⟨vs.entries ++ [(name, j)]⟩

def insert (vs : Vars) (name : String) (value : HostValue) : Except MockFault Vars :=
  match value with
  | .ok j => .ok (vs.insertJson name j)
  | .error reason => .error (.encode (.variable name) reason)

def ofList (entries : List (String × Json)) : Vars :=
  entries.foldl (fun vs (name, j) => vs.insertJson name j) empty

/-- The variables as the struct that is unified into the scope. -/
def toValue (vs : Vars) : Except Cause Value :=
  Value.ofJson (.obj [(Mock.varsName, Json.ofFields vs.entries)])

end Vars

end SchemaMock
