import SchemaMock.Json.Reader
import SchemaMock.Json.Writer
import SchemaMock.Mock.Typed

/-! # Commands

The two commands of the tool: `check` lists the functions of a schema, and `call` calls one of them
and prints the results. Both give what is printed and the exit code.
-/

namespace SchemaMock

/-- Variables and types that every schema is compiled with, in order. -/
structure Config where
  vars : List (String × Json)
  types : List (String × String)
deriving Inhabited

namespace Config

def empty : Config := ⟨[], []⟩

/-- Where the configuration is looked for when no path is given. -/
def defaultPath : String := "schemamock.json"

/-- A name with an item that `read` takes from a host value. -/
def namedItem? {α : Type} (read : Json → Option α) : Json → Option (String × α)
  | .arr [.str name, j] => (read j).map (name, ·)
  | _ => none

/-- A list of named items; a field that is absent lists none. -/
def namedItems? {α : Type} (read : Json → Option α) : Option Json → Option (List (String × α))
  | none => some []
  | some (.arr items) => items.mapM (namedItem? read)
  | some _ => none

/-- A configuration is an object whose fields `vars` and `types` list pairs of a name and a value,
or of a name and an expression. -/
def ofText? (text : String) : Option Config := do
  let j ← Json.parse? (some 128) text
  let asText : Json → Option String
    | .str s => some s
    | _ => none
  return ⟨← namedItems? some (j.field? "vars"), ← namedItems? asText (j.field? "types")⟩

end Config

/-- A file: its path, and its text or the reason why it cannot be read. -/
structure InputFile (α : Type) where
  path : String
  content : Except String α

structure Failure where
  message : String
  cause : Option String

/-- The cause follows after an empty line, set in by four columns. -/
def Failure.display (f : Failure) : String :=
  "Error: " ++ f.message ++
    match f.cause with
    | none => ""
    | some cause => "\n\nCaused by:\n    " ++ "\n    ".intercalate (cause.splitOn "\n")

/-- Lines printed so far, on both channels. -/
structure Printed where
  out : List String
  err : List String
deriving Inhabited

def Printed.nothing : Printed := ⟨[], []⟩

abbrev Command := ExceptT Failure (StateM Printed)

namespace Command

variable {α : Type}

def print (line : String) : Command Unit := modify fun p => { p with out := p.out ++ [line] }

def complain (line : String) : Command Unit := modify fun p => { p with err := p.err ++ [line] }

def abort (message : String) (cause : Option String) : Command α := throw ⟨message, cause⟩

def ofExcept (message : String) (r : Except String α) : Command α :=
  match r with
  | .ok a => pure a
  | .error cause => abort message (some cause)

def readConfig (config : InputFile Config) : Command Config :=
  ofExcept s!"Failed to read config: {config.path}" config.content

def parseConfig (config : InputFile String) : Command Config := do
  let text ← ofExcept s!"Failed to read config: {config.path}" config.content
  ofExcept s!"Invalid config: {config.path}" ((Config.ofText? text).elim (.error "malformed") .ok)

def registerTypes (r : Registry) (types : List (String × String)) : Command Registry :=
  types.foldlM (fun r (name, text) =>
    ofExcept s!"Failed to register type {name}"
      ((r.registerSchema name text).toExcept.mapError (·.display))) r

/-- The faults that are shown as a line; those in the text of the schema are drawn in it. -/
def shownFaults (faults : List Fault) : List String :=
  (faults.filter fun f => f.kind != .malformed).map Fault.display

def loadMock (config : Config) (schema : InputFile String) : Command Mock := do
  let r ← registerTypes .empty config.types
  let text ← ofExcept s!"Failed to read schema: {schema.path}" schema.content
  match Mock.compile r (.ofList config.vars) text with
  | .ok m => return m
  | .error (.compile faults) =>
    (shownFaults faults).forM complain
    abort s!"{schema.path} has {faults.length} error(s)" none
  | .error e => abort e.display none

def showLimit (n : Nat) : String := if n = Mock.unbounded then "unbounded" else toString n

def listOverload (name : String) (o : Overload) : Command Unit := do
  let arity ← ofExcept s!"{name}: invalid args" (o.arity.mapError (·.display))
  let maxCalls ← ofExcept s!"{name}: invalid maxCalls" (o.maxCalls.mapError (·.display))
  print s!"  overload {o.index}: {arity} args, maxCalls {showLimit maxCalls}"

def check (config : Config) (schema : InputFile String) : Command Unit := do
  let m ← loadMock config schema
  m.functions.forM fun f => do
    print f.name
    f.overloads.forM (listOverload f.name)

/-- Arguments are written as host values, nested at most 127 levels. -/
def readArguments (index : Nat) : List String → Command (List Json)
  | [] => return []
  | text :: rest => do
    match Json.parse? (some 128) text with
    | none => abort s!"Argument {index} is not JSON: {text}" none
    | some j => return j :: (← readArguments (index + 1) rest)

/-- Calls a function repeatedly; the result is how many calls no overload accepted. -/
def callTimes (function : String) (args : List Json) : Nat → Mock → Command Nat
  | 0, _ => return 0
  | times + 1, m => do
    let (result, m) := m.execValues function (args.map .ok)
    match result with
    | .ok values =>
      print (Json.arr values).compact
      callTimes function args times m
    | .error (.noMatch name failures) =>
      complain (MockFault.noMatch name failures).display
      return (← callTimes function args times m) + 1
    | .error e => abort e.display none

def call (config : Config) (schema : InputFile String) (function : String)
    (args : List String) (times : Nat) : Command Unit := do
  let m ← loadMock config schema
  let args ← readArguments 0 args
  let failed ← callTimes function args times m
  if 0 < failed then abort s!"{failed} of {times} call(s) matched no overload" none

structure Outcome where
  code : Nat
  printed : Printed

/-- A failure is the last thing that is printed. -/
def run (c : Command Unit) : Outcome :=
  match (ExceptT.run c).run .nothing with
  | (.ok _, printed) => ⟨0, printed⟩
  | (.error f, printed) => ⟨1, { printed with err := printed.err ++ [f.display] }⟩

end Command

end SchemaMock
