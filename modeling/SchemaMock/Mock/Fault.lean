import SchemaMock.Fault

/-! # Faults of mocks and calls -/

namespace SchemaMock

/-- A value that a host hands over, or the reason why it cannot be written as one. -/
abbrev HostValue := Except String Json

inductive Rejection where
  | maxCallsExceeded (maxCalls attempts : Nat)
  | argumentCount (expected actual : Nat)
  | mismatch (faults : List Fault)
deriving Inhabited

def Rejection.display : Rejection → String
  | maxCallsExceeded maxCalls attempts =>
    s!"max calls exceeded (attempt {attempts}, limit {maxCalls})"
  | argumentCount expected actual => s!"expected {expected} arguments, got {actual}"
  | mismatch faults => Fault.displayAll faults

/-- The overload at an index and why it did not accept a call. -/
structure OverloadFailure where
  index : Nat
  rejection : Rejection
deriving Inhabited

/-- What could not be taken over from the host. -/
inductive HostItem where
  | type (name : String)
  | variable (name : String)
  | arguments (function : String)
deriving DecidableEq, Repr

def HostItem.display : HostItem → String
  | type name => s!"type {name}"
  | .variable name => s!"variable {name}"
  | arguments function => s!"arguments of {function}"

inductive MockFault where
  /-- A schema is malformed or contradicts itself or its scope. -/
  | compile (faults : List Fault)
  | functionNotFound (name : String)
  /-- Every overload rejected the call. -/
  | noMatch (function : String) (failures : List OverloadFailure)
  /-- The declaration of a function cannot be used. -/
  | schema (function : String) (fault : Fault)
  | returnCount (function : String) (expected actual : Nat)
  | decode (function : String) (index : Nat) (fault : Fault)
  | encode (item : HostItem) (reason : String)

namespace MockFault

def displayFailure (f : OverloadFailure) : String :=
  s!"overload {f.index}: {f.rejection.display}; "

def display : MockFault → String
  | compile faults => "schema error: " ++ Fault.displayAll faults
  | functionNotFound name => s!"function {Text.quote name} is not declared by this mock"
  | noMatch function failures =>
    s!"{function}: " ++ String.join (failures.map displayFailure) ++ "no overloads matched"
  | schema function fault => s!"invalid schema for function {function}: {fault.display}"
  | returnCount function expected actual =>
    s!"function {function} returns {actual} values, expected {expected}"
  | decode function index fault =>
    s!"cannot decode return value {index} of function {function}: {fault.display}"
  | encode item reason => s!"cannot encode {item.display}: {reason}"

end MockFault

/-- The outcome of a call with the state that it leaves, whatever came of it. -/
abbrev Called (σ α : Type) := Except MockFault α × σ

def Called.toExcept {σ : Type} (c : Called σ Unit) : Except MockFault σ := c.1.map fun _ => c.2

instance {σ : Type} : Coe (Called σ Unit) (Except MockFault σ) := ⟨Called.toExcept⟩

end SchemaMock
