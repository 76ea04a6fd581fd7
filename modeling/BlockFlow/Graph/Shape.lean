/-
# BlockFlow.Graph.Shape -- common shapes of graphs

Blocks made together with their nodes, straight chains of one-node blocks, rings of
them, and calls that declare their parameters.  Every shape is put together from the
single steps of `BlockFlow.Graph.Construct` and leaves what was there as it was.
-/
import BlockFlow.Graph.Construct

namespace BlockFlow.Graph

set_option autoImplicit false

variable {S K : Type}

/-- Add one detached node for each state. -/
def addNodes (g : Graph S K) : List S → List NodeId × Graph S K
  | [] => ([], g)
  | state :: rest =>
    let (node, g') := g.addNode state
    let (others, g'') := addNodes g' rest
    (node :: others, g'')

/-- Make a block of fresh nodes, one for each state. -/
def addFreshBlock (g : Graph S K) (states : List S) : Except GraphError (BlockId × Graph S K) :=
  let (nodes, g') := g.addNodes states
  g'.addBlock nodes

/-- Add an edge from the block before, when there is one. -/
def addEdgeFrom (g : Graph S K) (previous : Option BlockId) (block : BlockId) :
    Except GraphError (Graph S K) :=
  match previous with
  | none => .ok g
  | some before => g.addEdge before block

/-- One block for each state, each flowing into the next, the first fed by `previous`. -/
def addChainAfter (g : Graph S K) (previous : Option BlockId) :
    List S → Except GraphError (List BlockId × Graph S K)
  | [] => .ok ([], g)
  | state :: rest => do
    let (block, g') ← g.addFreshBlock [state]
    let linked ← g'.addEdgeFrom previous block
    let (others, g'') ← addChainAfter linked (some block) rest
    return (block :: others, g'')

/-- A straight line of `len` blocks; the node of the `i`-th holds `state i`. -/
def addChain (g : Graph S K) (len : Nat) (state : Nat → S) :
    Except GraphError (List BlockId × Graph S K) :=
  g.addChainAfter none ((List.range len).map state)

/-- A chain whose last block flows into its first. -/
def addRing (g : Graph S K) (len : Nat) (state : Nat → S) :
    Except GraphError (List BlockId × Graph S K) := do
  let (blocks, g') ← g.addChain len state
  match blocks with
  | [] => return (blocks, g')
  | first :: rest => return (blocks, ← g'.addEdge (rest.getLastD first) first)

/-- Attach the procedure that begins at `entryBlock` to `owner`, and declare its formal
parameters at its first node if there are any to declare. -/
def addCall (g : Graph S K) (owner : NodeId) (entryBlock : BlockId)
    (params : Option (Parameters K)) : Except GraphError (SubgraphId × Graph S K) := do
  let (sub, g') ← g.addSubgraph owner entryBlock
  match params with
  | none => return (sub, g')
  | some declared =>
    let entry ← g'.requireBlock entryBlock
    return (sub, ← g'.setParameters entry.first declared)

end BlockFlow.Graph
