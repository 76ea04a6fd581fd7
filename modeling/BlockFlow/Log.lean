/-
# BlockFlow.Log -- the log of a run

A run can be followed in a log of events at two levels of detail: that it starts and
how it ends (`Level.debug`), and everything it does in between (`Level.trace`).
`Run.events` is the log of a run in the order in which things happened: first the
procedures entered while the blocks were numbered, then the start of the passes, then
every visit.

`lines` writes the events that a verbosity shows: none at 0, the outline at 1, and all
of them from 2 on.
-/
import BlockFlow.Config

namespace BlockFlow

set_option autoImplicit false

inductive Level where
  | debug
  | trace
deriving DecidableEq

def Level.text : Level → String
  | debug => "DEBUG"
  | trace => "TRACE"

/-- Something worth noting. -/
inductive Event where
  /-- The settings in effect. -/
  | configured (config : Config)
  /-- A procedure is entered while blocks are numbered. -/
  | entering (entrance : Entrance)
  /-- The blocks are numbered, and the passes begin. -/
  | starting (entry : BlockId) (mode : Mode) (blocks subgraphs : Nat)
  | processing (block : BlockId) (pass : Nat)
  | changed (block : BlockId) (pass : Nat)
  | stopped (passes : Nat)
  | converged (passes blockVisits nodeVisits : Nat)
deriving DecidableEq

namespace Event

def level : Event → Level
  | configured _ => .debug
  | entering _ => .trace
  | starting .. => .debug
  | processing .. => .trace
  | changed .. => .trace
  | stopped _ => .debug
  | converged .. => .debug

/-- The part of the program that reports the event. -/
def target : Event → String
  | configured _ => "dgflow"
  | entering _ => "dgflow_core::dataflow::dfs"
  | _ => "dgflow_core::dataflow::solver"

/-- A limit, or that there is none. -/
def limitText : Option Nat → String
  | none => "None"
  | some limit => "Some(" ++ limit.repr ++ ")"

def text : Event → String
  | configured config =>
    "effective configuration flags=" ++ config.mode.text ++ " max_iterations=" ++
      limitText config.maxPasses
  | entering entrance =>
    "entering subgraph block=" ++ entrance.caller.text ++ " subgraph=" ++ entrance.sub.text ++
      " entry=" ++ entrance.entry.text
  | starting entry mode blocks subgraphs =>
    "starting dataflow entry=" ++ entry.text ++ " flags=" ++ mode.text ++ " blocks=" ++
      blocks.repr ++ " subgraphs=" ++ subgraphs.repr
  | processing block pass => "processing block block=" ++ block.text ++ " pass=" ++ pass.repr
  | changed block pass => "block changed block=" ++ block.text ++ " pass=" ++ pass.repr
  | stopped passes => "dataflow hit its pass limit passes=" ++ passes.repr
  | converged passes blockVisits nodeVisits =>
    "dataflow converged passes=" ++ passes.repr ++ " processed_blocks=" ++ blockVisits.repr ++
      " processed_nodes=" ++ nodeVisits.repr

/-- The level, where the event comes from, and what happened. -/
def line (event : Event) : String :=
  event.level.text ++ " " ++ event.target ++ ": " ++ event.text

end Event

/-- The events of one visit. -/
def Visit.events (pass : Nat) (visit : Visit) : List Event :=
  .processing visit.block pass :: if visit.changed then [.changed visit.block pass] else []

/-- The events of passes, the first of which is number `pass`. -/
def passEvents : (pass : Nat) → List (List Visit) → List Event
  | _, [] => []
  | pass, visits :: later => visits.flatMap (·.events pass) ++ passEvents (pass + 1) later

/-- The events of a run that began its passes. -/
def Run.events {G σ : Type} (run : Run G σ) : List Event :=
  let s := run.analysis.statistics
  let numbering := run.entrances.map .entering
  let start := .starting run.analysis.entry run.analysis.mode s.blocks s.subgraphsEntered
  match run.ending with
  | .stray _ => numbering
  | .converged =>
    numbering ++ start :: passEvents 1 run.visits ++
      [.converged s.passes s.blockVisits s.nodeVisits]
  | .passLimit _ => numbering ++ start :: passEvents 1 run.visits ++ [.stopped s.passes]

namespace Log

/-- Whether events of this level show. -/
def shows (verbosity : Nat) : Level → Bool
  | .debug => 1 ≤ verbosity
  | .trace => 2 ≤ verbosity

/-- The lines of the events that show. -/
def lines (verbosity : Nat) (events : List Event) : List String :=
  (events.filter fun event => shows verbosity event.level).map (·.line)

end Log

end BlockFlow
