import SchemaMock.Eval.Query
import SchemaMock.Expr.Parser

/-! # Values

A value is a recipe, the sources it was compiled from and the fills applied to it, and the path that
it denotes. A query evaluates the recipe in a new arena, so that values never change.
-/

namespace SchemaMock

structure Value where
  sources : List Arena.Input
  fills : List Fill
  path : Path
deriving Inhabited

namespace Value

/-! ## Queries -/

/-- Runs a query on the vertex of the value, or reports why there is none. -/
def query {α : Type} (v : Value) (onFault : Fault → α) (onVertex : Nat → Eval α) : α :=
  let run : Eval α := do
    match ← (Eval.lookup v.path).run with
    | .ok w => onVertex w
    | .error f => return onFault f
  (run (Arena.ofInputs v.sources v.fills)).1

def attempt {α : Type} (v : Value) (m : Nat → Attempt α) : Except Fault α :=
  v.query .error fun w => (m w).run

/-- A fault at the path of the value, unless it has a path of its own. -/
def locate (v : Value) (f : Fault) : Fault := f.atPath v.path.display

/-- All faults of the value. When `concrete`, every regular field must have a value too;
definitions and hidden fields are exempt. -/
def faults (v : Value) (concrete : Bool) : List Fault :=
  v.query (fun f => [v.locate f]) (Eval.faults Eval.evaluate concrete)

def exists_ (v : Value) : Bool := v.query (fun _ => false) fun _ => return true

/-- The kinds the value may still take; none for a fault. -/
def kinds (v : Value) : Kinds := v.query (fun _ => .none) Eval.kindsOf

def fault? (v : Value) : Option Fault := v.query (fun f => some (v.locate f)) Eval.faultOf

def toJson (v : Value) : Except Fault Json :=
  (v.attempt (Eval.exportVertex Eval.evaluate)).mapError v.locate

def isNull (v : Value) : Bool :=
  match v.toJson with
  | .ok .null => true
  | _ => false

/-- The value as an unsigned integer of 64 bits. -/
def toNat (v : Value) : Except Fault Nat := do
  let j ← v.toJson
  match j with
  | .int i => if 0 ≤ i then return i.toNat else throw (v.locate (.of (.notUnsigned j)))
  | _ => throw (v.locate (.of (.notUnsigned j)))

def length (v : Value) : Except Fault Nat := v.attempt Eval.lengthOf

/-- The host value as text, or the fault behind the sign for bottom. -/
def display (v : Value) : String :=
  match v.toJson with
  | .ok j => j.compact
  | .error f => "_|_ // " ++ f.display

/-! ## Deriving values -/

def lookup (v : Value) (p : Path) : Value := { v with path := v.path.join p }

/-- The fields of a struct with their selectors, in the order of their declaration. -/
def fields (v : Value) : Except Fault (List (Selector × Value)) := do
  let selectors ← v.attempt Eval.fieldsOf
  return selectors.map fun s => (s, v.lookup ⟨[s]⟩)

def elements (v : Value) : Except Fault (List Value) := do
  return (List.range (← v.length)).map fun n => v.lookup ⟨[.index n]⟩

/-- The source of a value that was compiled from one and not changed since. -/
def singleSource? (v : Value) : Option Arena.Input :=
  match v.sources with
  | [source] => if v.path.isRoot && v.fills.isEmpty then some source else none
  | _ => none

def ofExpr (x : Expr) : Value := ⟨[.expr x], [], .root⟩

def ofFile (f : SchemaFile) : Value := ⟨[.file f], [], .root⟩

def ofJson (j : Json) : Except Cause Value := (Expr.ofJson j).map ofExpr

def toExpr (v : Value) : Except Fault Expr :=
  match v.singleSource? with
  | some (.expr x) => .ok x
  | _ => do (Expr.ofJson (← v.toJson)).mapError .of

def source (v : Value) : Except Fault Arena.Input :=
  match v.singleSource? with
  | some source => .ok source
  | none => v.toExpr.map .expr

/-- The value with another unified into the part at a path below it. If the other has no host value,
its fault takes the place. -/
def fill (v : Value) (p : Path) (w : Value) : Value :=
  let source : Source := match w.toExpr with
    | .ok x => .expr x
    | .error f => .fault f
  { v with fills := v.fills ++ [⟨v.path.join p, source⟩] }

/-- Two whole values unify by their sources; otherwise the other one is filled in. -/
def unify (v w : Value) : Value :=
  if v.path.isRoot && w.path.isRoot then ⟨v.sources ++ w.sources, v.fills ++ w.fills, .root⟩
  else v.fill .root w

/-! ## Compiling -/

/-- A value in a scope, if it has no final fault. Values that are not yet concrete pass. -/
def inScope (scope : Option Value) (v : Value) : Except (List Fault) Value :=
  let whole := match scope with
    | some s => s.unify v
    | none => v
  match whole.faults false with
  | [] => .ok whole
  | faults => .error faults

def malformed (m : Malformed) : List Fault := [.of (.malformed m)]

def compile (scope : Option Value) (text : String) : Except (List Fault) Value := do
  inScope scope (ofFile (← (SchemaFile.parse text).mapError malformed))

def compileExpr (scope : Option Value) (text : String) : Except (List Fault) Value := do
  inScope scope (ofExpr (← (Expr.parse text).mapError malformed))

end Value

end SchemaMock
