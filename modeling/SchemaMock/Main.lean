import SchemaMock.Command
import SchemaMock.Invocation

/-! # The program

Reads the files that an invocation names, runs its command, and prints what the command printed.
-/

namespace SchemaMock

def readInput (path : String) : IO (InputFile String) := do
  let content ← try
      let text ← IO.FS.readFile path
      pure (Except.ok text)
    catch e => pure (Except.error (toString e))
  return ⟨path, content⟩

/-- The configuration at the given path, or at the usual one if there is a file. -/
def loadConfig (path : Option String) : IO (Command Config) := do
  let file ← readInput (path.getD Config.defaultPath)
  match path, file.content with
  | none, .error _ => return pure .empty
  | _, _ => return Command.parseConfig file

def commandOf (i : Invocation) : IO (Command Unit) := do
  let config ← loadConfig i.options.config
  match i.request with
  | .check schema =>
    let schema ← readInput schema
    return config >>= fun c => Command.check c schema
  | .call schema function args =>
    let schema ← readInput schema
    return config >>= fun c => Command.call c schema function args i.options.times

end SchemaMock

open SchemaMock in
def main (words : List String) : IO UInt32 := do
  match Invocation.ofWords? words with
  | none =>
    IO.eprintln Invocation.usage
    return 2
  | some i =>
    let outcome := Command.run (← commandOf i)
    outcome.printed.out.forM IO.println
    outcome.printed.err.forM IO.eprintln
    return outcome.code.toUInt32
