/-
# BlockFlow.Schedule -- the blocks of a run and what depends on each

A schedule lists the numbered blocks of a walk in numbering order.  Each block
stands in a `Slot` together with the positions of its *dependents*, the slots that
have to be looked at again when the block changes:

* its successors;
* the entry blocks of the procedures it calls;
* the blocks that call the procedure it belongs to, that is, a subgraph whose entry
  block is the scope of the block.

Blocks that the walk did not number have no position and drop out.
-/
import BlockFlow.Walker

namespace BlockFlow

set_option autoImplicit false

/-- A scheduled block and the positions of the blocks that depend on it. -/
structure Slot where
  block : BlockId
  dependents : List Nat
deriving DecidableEq

namespace Schedule

/-- The entry blocks of the procedures called from `block`. -/
def calleeEntries (shape : Topology) (discovery : Option Discovery) (block : BlockId) :
    List BlockId :=
  (shape.calls discovery block).map shape.entryBlock

/-- All calls of the scheduled blocks: the entry called, and the position of the caller. -/
def callTable (shape : Topology) (discovery : Option Discovery) (blocks : List BlockId) :
    List (BlockId × Nat) :=
  blocks.zipIdx.flatMap fun (block, pos) =>
    (calleeEntries shape discovery block).map fun entry => (entry, pos)

/-- The positions of the blocks that call into `scope`. -/
def callers (table : List (BlockId × Nat)) (scope : BlockId) : List Nat :=
  table.filterMap fun (entry, pos) => if entry = scope then some pos else none

/-- The positions of the blocks that depend on a numbered block, each once. -/
def dependents (shape : Topology) (discovery : Option Discovery) (blocks : List BlockId)
    (table : List (BlockId × Nat)) (item : Numbered) : List Nat :=
  ((shape.successors item.block).filterMap blocks.idxOf? ++
    (calleeEntries shape discovery item.block).filterMap blocks.idxOf? ++
    callers table item.scope).eraseDups

/-- The numbered blocks of `walker`, with their dependents. -/
def ofWalker (shape : Topology) (walker : Walker) : List Slot :=
  let blocks := walker.blocks
  let table := callTable shape walker.discovery blocks
  walker.numbered.map fun item =>
    ⟨item.block, dependents shape walker.discovery blocks table item⟩

end Schedule

end BlockFlow
