/-! # Invocations

What a command line asks for: a command, its operands, and the options, which may stand anywhere
before a lone `--`.
-/

namespace SchemaMock

inductive Request where
  | check (schema : String)
  | call (schema function : String) (args : List String)
deriving DecidableEq, Repr

structure Options where
  config : Option String
  times : Nat
deriving DecidableEq, Repr

structure Invocation where
  request : Request
  options : Options
deriving DecidableEq, Repr

namespace Invocation

/-- Without options there is one call and no path to a configuration. -/
def defaults : Options := ⟨none, 1⟩

def sortWords (o : Options) : List String → Option (List String × Options)
  | [] => some ([], o)
  | "--" :: rest => some (rest, o)
  | "--config" :: path :: rest => sortWords { o with config := some path } rest
  | "--times" :: n :: rest =>
    match n.toNat? with
    | some n => sortWords { o with times := n } rest
    | none => none
  | word :: rest =>
    if word.startsWith "-" then none
    else (sortWords o rest).map fun (words, o) => (word :: words, o)

def requestOf? : List String → Option Request
  | ["check", schema] => some (.check schema)
  | "call" :: schema :: function :: args => some (.call schema function args)
  | _ => none

def ofWords? (words : List String) : Option Invocation := do
  let (operands, options) ← sortWords defaults words
  return ⟨← requestOf? operands, options⟩

def usage : String :=
  "usage: check SCHEMA | call SCHEMA FUNCTION ARGS... [--config PATH] [--times N]"

end Invocation

end SchemaMock
