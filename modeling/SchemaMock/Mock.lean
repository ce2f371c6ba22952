import SchemaMock.Mock.Ledger
import SchemaMock.Mock.Registry

/-! # Mocks

A mock is a compiled schema with the functions that it declares under `funcs`, each with its ledger.
-/

namespace SchemaMock

structure Overload where
  index : Nat
  value : Value
deriving Inhabited

namespace Overload

def part (o : Overload) (name : String) : Value := o.value.lookup (.ofNames [name])

def arity (o : Overload) : Except Fault Nat := (o.part Mock.argsName).length

def maxCalls (o : Overload) : Except Fault Nat := (o.part Mock.maxCallsName).toNat

/-- The overload with arguments filled in from the position `index` on. -/
def bindFrom (bound : Value) (index : Nat) : List Value → Value
  | [] => bound
  | arg :: rest =>
    bindFrom (bound.fill ⟨[.label (.regular Mock.argsName), .index index]⟩ arg) (index + 1) rest

def bind (o : Overload) (args : List Value) : Value := bindFrom o.value 0 args

end Overload

/-- A function and its overloads in the order of their declaration. -/
structure MockFunction where
  name : String
  overloads : List Overload
deriving Inhabited

structure MockEntry where
  function : MockFunction
  ledger : Ledger
deriving Inhabited

structure Mock where
  value : Value
  entries : List MockEntry
deriving Inhabited

namespace MockFunction

/-- A list declares one overload for each element, anything else a single one. -/
def ofValue (name : String) (v : Value) : Except Fault MockFunction := do
  let values ← if v.kinds = .ofList then v.elements else pure [v]
  return ⟨name, values.mapIdx fun index value => ⟨index, value⟩⟩

end MockFunction

namespace Mock

/-- The functions among the fields of `funcs`; definitions and hidden fields declare none. -/
def functionsOf : List (Selector × Value) → Except Fault (List MockFunction)
  | [] => .ok []
  | (.label (.regular name), v) :: rest => do
    let f ← MockFunction.ofValue name v
    return f :: (← functionsOf rest)
  | _ :: rest => functionsOf rest

def entryOf (f : MockFunction) : MockEntry := ⟨f, .ofOverloads f.overloads.length⟩

/-- The scope of a mock: that of the registry, with the variables if there are any. -/
def scopeOf (r : Registry) (vars : Vars) : Except MockFault Value :=
  if vars.isEmpty then .ok r.scope
  else match vars.toValue with
    | .ok v => .ok (r.scope.unify v)
    | .error c => .error (.compile [.of c])

def compile (r : Registry) (vars : Vars) (text : String) : Except MockFault Mock := do
  let scope ← scopeOf r vars
  let value ← (Value.compile (some scope) text).mapError .compile
  let functions ← ((value.lookup (.ofNames [funcsName])).fields >>= functionsOf).mapError
    fun f => .compile [f]
  return ⟨value, functions.map entryOf⟩

def functions (m : Mock) : List MockFunction := m.entries.map (·.function)

def find? (m : Mock) (name : String) : Option MockEntry :=
  m.entries.find? (·.function.name == name)

def function? (m : Mock) (name : String) : Option MockFunction := (m.find? name).map (·.function)

def ledger? (m : Mock) (name : String) : Option Ledger := (m.find? name).map (·.ledger)

def setLedger (m : Mock) (name : String) (ledger : Ledger) : Mock :=
  { m with entries := m.entries.map fun e =>
      if e.function.name == name then { e with ledger := ledger } else e }

end Mock

end SchemaMock
