/-
# BlockFlow.Config -- the settings of a run

A configuration says which calls a run follows and how many passes it may make.
Without a number of passes the run goes on until nothing changes.
-/
import BlockFlow.Analysis

namespace BlockFlow

set_option autoImplicit false

structure Config where
  mode : Mode := {}
  /-- The most passes a run may make, if they are limited. -/
  maxPasses : Option Nat := none
deriving DecidableEq

namespace Config

variable {G σ : Type} [FlowGraph G]

/-- An analysis that starts at `entry` and follows what the configuration says. -/
def analysis (config : Config) (entry : BlockId) (transfer : BlockTransfer G σ) (memory : σ) :
    Analysis G σ :=
  { entry, mode := config.mode, transfer, memory }

/-- Run within the passes allowed; `none` when they are not limited and `fuel` passes are
not enough. -/
def run (config : Config) (analysis : Analysis G σ) (fuel : Nat) (g : G) : Option (Run G σ) :=
  match config.maxPasses with
  | some limit => some (analysis.runBounded limit g)
  | none => analysis.run fuel g

end Config

end BlockFlow
