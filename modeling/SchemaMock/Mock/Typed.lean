import SchemaMock.Mock.Call

/-! # Typed calls

A typed call passes arguments of the host and reads each result as a host type.
-/

namespace SchemaMock

abbrev Decoder (α : Type) := Json → Option α

inductive HostType where
  | string
  | bool
  | i64
  | u64
  | u8
  | f64
  | strings
  | json
  | error
deriving DecidableEq, Repr, Inhabited

namespace HostType

def integer (least greatest : Int) : Decoder Json
  | .int i => if least ≤ i ∧ i ≤ greatest then some (.int i) else none
  | _ => none

def text : Decoder Json
  | .str s => some (.str s)
  | _ => none

/-- The error that a function returns, if it returns one: an object with its message, or a list of
the message alone. -/
def mockedError : Decoder Json
  | .null => some .null
  | .obj fields => ((Json.obj fields).field? "Error").bind text |>.map fun m => .obj [("Error", m)]
  | .arr [.str m] => some (.obj [("Error", .str m)])
  | _ => none

/-- Integers must be in range, and a float never becomes one; `f64` takes integers. -/
def decode : HostType → Decoder Json
  | string => text
  | bool => fun j => match j with
    | .bool b => some (.bool b)
    | _ => none
  | i64 => integer (-(1 <<< 63 : Nat)) ((1 <<< 63 : Nat) - 1)
  | u64 => integer 0 ((1 <<< 64 : Nat) - 1)
  | u8 => integer 0 255
  | f64 => fun j => match j with
    | .float x => some (.float x)
    | .int i => some (.float (Float.ofInt i))
    | _ => none
  | strings => fun j => match j with
    | .arr items => (items.mapM text).map .arr
    | _ => none
  | json => some
  | error => mockedError

end HostType

def Value.decode {α : Type} (v : Value) (d : Decoder α) : Except Fault α := do
  match d (← v.toJson) with
  | some a => return a
  | none => throw (v.locate (.of .undecodable))

namespace Mock

variable {α : Type}

/-- A call with arguments of the host; one that cannot be written counts nowhere. -/
def callHost (m : Mock) (name : String) (args : List HostValue) : Called Mock (List Value) :=
  match args.mapM id with
  | .error reason => (.error (.encode (.arguments name) reason), m)
  | .ok args => m.call name args

/-- Reads values by decoders from the position `index` on. -/
def decodeFrom (name : String) (index : Nat) : List (Value × Decoder α) → Except MockFault (List α)
  | [] => .ok []
  | (v, d) :: rest => do
    let a ← (v.decode d).mapError (.decode name index)
    return a :: (← decodeFrom name (index + 1) rest)

/-- Calls a function and gives its results as host values, however many there are. -/
def execValues (m : Mock) (name : String) (args : List HostValue) : Called Mock (List Json) :=
  let (result, m) := m.callHost name args
  (result >>= fun values => decodeFrom name 0 (values.map (·, some)), m)

/-- The results read by the decoders, when there are as many. -/
def decodeAll (name : String) (decoders : List (Decoder α)) (values : List Value) :
    Except MockFault (List α) :=
  if values.length = decoders.length then decodeFrom name 0 (values.zip decoders)
  else .error (.returnCount name decoders.length values.length)

def exec (m : Mock) (name : String) (args : List HostValue) (decoders : List (Decoder α)) :
    Called Mock (List α) :=
  let (result, m) := m.callHost name args
  (result >>= decodeAll name decoders, m)

/-! Results of several types are read into the sum of the types. -/

def execOne (m : Mock) (name : String) (args : List HostValue) (first : Decoder α) :
    Called Mock (List α) :=
  m.exec name args [first]

def execTwo (m : Mock) (name : String) (args : List HostValue) (first second : Decoder α) :
    Called Mock (List α) :=
  m.exec name args [first, second]

def execThree (m : Mock) (name : String) (args : List HostValue)
    (first second third : Decoder α) : Called Mock (List α) :=
  m.exec name args [first, second, third]

/-- A call that may not fail: the text of its fault is what the program stops with. -/
def must (c : Called Mock α) : Except String α × Mock := (c.1.mapError (·.display), c.2)

end Mock

end SchemaMock
