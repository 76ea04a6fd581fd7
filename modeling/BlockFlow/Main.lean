/-
# BlockFlow.Main -- the command line program

Reads the arguments and the configuration file they name, and passes what the session
leaves behind on to the terminal.
-/
import BlockFlow.CommandLine.Session

namespace BlockFlow.CommandLine

set_option autoImplicit false

/-- The bytes of the file at `path`, if it can be read. -/
def contentOf (path : String) : IO (Option ByteArray) := do
  try
    return some (← IO.FS.readBinFile path)
  catch _ =>
    return none

/-- The output of the session that a command line asks for. -/
def session (args : List String) : IO Output := do
  match Invocation.ofArguments args with
  | .error stop => return stop.output
  | .ok invocation =>
    let content ← match invocation.configPath with
      | some path => contentOf path
      | none => pure none
    return invocation.execute content

end BlockFlow.CommandLine

open BlockFlow.CommandLine in
def main (args : List String) : IO UInt32 := do
  let output ← session args
  for line in output.log do
    IO.eprintln line
  if output.exit = 2 then
    IO.eprint usage
  if let some message := output.message then
    IO.eprintln ("Error: " ++ message)
  IO.print output.stdout
  return output.exit.toUInt32
