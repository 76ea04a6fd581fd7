/-
# BlockFlow.Transfer -- what an analysis does at a node and at a block

A transfer function is run on one item of a graph at a time.  It may change the
graph and a memory of its own, and it reports whether it changed anything that
another item could depend on (`Effect`).

An analysis drives a `BlockTransfer`.  `BlockTransfer.ofNode` makes one from a
`NodeTransfer`: every node of the block is run in order, without stopping at the
first change, and the block changed when one of its nodes did.
-/
import BlockFlow.FlowGraph

namespace BlockFlow

set_option autoImplicit false

/-- What running a transfer function leaves behind. -/
structure Effect (G σ : Type) where
  /-- Whether something changed that others may depend on. -/
  changed : Bool
  graph : G
  memory : σ

/-- A transfer function of nodes. -/
abbrev NodeTransfer (G σ : Type) := NodeId → G → σ → Effect G σ

/-- A transfer function of blocks. -/
abbrev BlockTransfer (G σ : Type) := BlockId → G → σ → Effect G σ

namespace NodeTransfer

variable {G σ : Type}

/-- Run `nodes` in order; the whole list changed when one of them did. -/
def onEach (transfer : NodeTransfer G σ) : List NodeId → G → σ → Effect G σ
  | [], g, memory => ⟨false, g, memory⟩
  | node :: rest, g, memory =>
    let first := transfer node g memory
    let others := onEach transfer rest first.graph first.memory
    { others with changed := first.changed || others.changed }

end NodeTransfer

/-- Run every node of the block in execution order. -/
def BlockTransfer.ofNode {G σ : Type} [FlowGraph G] (transfer : NodeTransfer G σ) :
    BlockTransfer G σ :=
  fun block g memory => transfer.onEach ((FlowGraph.topology g).nodes block) g memory

end BlockFlow
