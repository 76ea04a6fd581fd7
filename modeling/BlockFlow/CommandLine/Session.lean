/-
# BlockFlow.CommandLine.Session -- carrying out a command

A session turns an invocation into what is printed, logged and reported as an error
(`Output`).  It reads nothing itself: a command that asks for a configuration file is
given the content of that file.
-/
import BlockFlow.CommandLine.Arguments
import BlockFlow.Config.File
import BlockFlow.Log
import BlockFlow.Ring.Program

namespace BlockFlow.CommandLine

set_option autoImplicit false

/-- What a session leaves behind. -/
structure Output where
  /-- 0, or 1 for a command that failed, or 2 for one that was not understood. -/
  exit : Nat
  stdout : String
  log : List String
  /-- What went wrong, if the command failed. -/
  message : Option String
deriving DecidableEq

namespace Output

def success (stdout : String) (log : List String) : Output := ⟨0, stdout, log, none⟩

def failure (message : String) (log : List String) : Output := ⟨1, "", log, some message⟩

end Output

/-- More passes than any run gets to make. -/
def patience : Nat := Nat.pow 2 64

/-- The configuration a command asks for, with the command's own mode switches added. -/
def RingOptions.effectiveConfig (options : RingOptions) (content : Option ByteArray) :
    Except String Config := do
  let config ← match options.config with
    | none => pure {}
    | some path => (Config.ofFile content).mapError (·.message path)
  return { config with mode := config.mode.union options.mode }

/-- Build the program and run over it under `config`. -/
def RingOptions.runWith (options : RingOptions) (config : Config) (verbosity : Nat) : Output :=
  let outcome := do
    let program ← Ring.Program.build options.nodes options.procedureNodes options.tracksCallSites
    program.run config options.counting patience
  match outcome with
  | none => .failure "the program cannot be run" []
  | some outcome =>
    let log := Log.lines verbosity (.configured config :: outcome.run.events)
    match outcome.report with
    | none => .failure (outcome.run.ending.message.getD "") log
    | some report =>
      .success (if options.json then report.toJson.prettyText ++ "\n" else report.render .plain) log

/-- Run over a ring program.  Sizes are checked before the configuration is looked at. -/
def RingOptions.execute (options : RingOptions) (verbosity : Nat) (content : Option ByteArray) :
    Output :=
  if options.nodes = 0 then .failure "--nodes must be at least 1" []
  else if options.procedureNodes = some 0 then
    .failure "--subgraph-nodes must be at least 1" []
  else
    match options.effectiveConfig content with
    | .error message => .failure message []
    | .ok config => options.runWith config verbosity

namespace Invocation

/-- The path of the file the command needs. -/
def configPath (invocation : Invocation) : Option String :=
  match invocation.command with
  | .ring options => options.config
  | .flags .. => none

/-- Carry out the command; `content` is that of the file at `configPath`, if there is one. -/
def execute (invocation : Invocation) (content : Option ByteArray) : Output :=
  match invocation.command with
  | .ring options => options.execute invocation.verbosity content
  | .flags bits json =>
    let mode := Mode.ofBits bits
    .success ((if json then mode.toJson.prettyText else mode.text) ++ "\n") []

end Invocation

def usage : String :=
  "Fixed-point dataflow over basic-block graphs\n\n" ++
  "Usage: dgflow [-v]... ring [OPTIONS]\n" ++
  "       dgflow [-v]... flags [--format text|json] BITS\n"

/-- The output of a command line that asks for no command. -/
def Stop.output : Stop → Output
  | help => .success usage []
  | version => .success "dgflow 0.4.0\n" []
  | misuse => ⟨2, "", [], none⟩

end BlockFlow.CommandLine
