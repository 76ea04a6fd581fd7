/-
# BlockFlow.Graph.Construct -- building a graph step by step

Each step names what it works on by handles and is refused when a handle names
nothing or a node is not where it has to be.  A refused step is an `Except.error` and
yields no graph, so the graph it was tried on is still the graph.

When several reasons apply, the first one counts: `addBlock` looks at its nodes from
the left and at each asks whether it is known, detached and new to the list; `addEdge`
asks for its source first; `addSubgraph` for its owner, the place of the owner, and
then the entry.
-/
import BlockFlow.Graph.Basic
import BlockFlow.Distinct

namespace BlockFlow

set_option autoImplicit false

/-- Why a step is refused. -/
inductive GraphError where
  /-- A block needs a node. -/
  | emptyBlock
  /-- The node is in a block already, or was listed for this one before. -/
  | alreadyPlaced (node : NodeId) (block : BlockId)
  /-- The node is detached. -/
  | notPlaced (node : NodeId)
  | unknownNode (node : NodeId)
  | unknownBlock (block : BlockId)
  /-- No block was chosen as the entry. -/
  | missingEntry
deriving DecidableEq

def GraphError.message : GraphError → String
  | emptyBlock => "basic block must contain at least one node"
  | alreadyPlaced node block =>
    "node " ++ node.text ++ " already belongs to basic block " ++ block.text
  | notPlaced node => "node " ++ node.text ++ " is not placed in any basic block"
  | unknownNode node => "unknown node " ++ node.text
  | unknownBlock block => "unknown basic block " ++ block.text
  | missingEntry => "graph has no entry block"

namespace Graph

variable {S K : Type}

/-- The handle the next node gets. -/
def nextNode (g : Graph S K) : NodeId := ⟨g.nodes.size⟩

/-- The handle the next block gets. -/
def nextBlock (g : Graph S K) : BlockId := ⟨g.blocks.size⟩

/-- The handle the next subgraph gets. -/
def nextSubgraph (g : Graph S K) : SubgraphId := ⟨g.subgraphs.size⟩

/-! ## Looking up what a step needs -/

def requireNode (g : Graph S K) (node : NodeId) : Except GraphError (Node S K) :=
  match g.node? node with
  | some data => .ok data
  | none => .error (.unknownNode node)

def requireBlock (g : Graph S K) (block : BlockId) : Except GraphError Block :=
  match g.block? block with
  | some data => .ok data
  | none => .error (.unknownBlock block)

/-! ## Nodes and blocks -/

/-- Add a detached node. -/
def addNode (g : Graph S K) (state : S) : NodeId × Graph S K :=
  (g.nextNode, { g with nodes := g.nodes.push { state } })

/-- Why `nodes` cannot become the block `block`, when the nodes `earlier` are already to
be part of it. -/
def placementError (g : Graph S K) (block : BlockId) :
    (earlier nodes : List NodeId) → Option GraphError
  | _, [] => none
  | earlier, node :: rest =>
    match g.node? node with
    | none => some (.unknownNode node)
    | some data =>
      match data.block with
      | some home => some (.alreadyPlaced node home)
      | none =>
        if node ∈ earlier then some (.alreadyPlaced node block)
        else placementError g block (node :: earlier) rest

/-- Mark every node of `nodes` as placed in `block`. -/
def place (g : Graph S K) (block : BlockId) (nodes : List NodeId) : Graph S K :=
  nodes.foldl (fun g node => g.modifyNode node fun data => { data with block := some block }) g

/-- Make a block of detached nodes, in the order given. -/
def addBlock (g : Graph S K) (nodes : List NodeId) : Except GraphError (BlockId × Graph S K) :=
  match nodes with
  | [] => .error .emptyBlock
  | first :: rest =>
    let id := g.nextBlock
    match g.placementError id [] nodes with
    | some reason => .error reason
    | none =>
      let placed := g.place id nodes
      .ok (id, { placed with blocks := placed.blocks.push { id, first, rest } })

/-! ## Edges and the entry -/

/-- Let control pass from one block to another.  An edge that is there already stays as
it is. -/
def addEdge (g : Graph S K) (source target : BlockId) : Except GraphError (Graph S K) := do
  let _ ← g.requireBlock source
  let _ ← g.requireBlock target
  let leaving := g.modifyBlock source fun b =>
    { b with successors := Distinct.add b.successors target }
  return leaving.modifyBlock target fun b =>
    { b with predecessors := Distinct.add b.predecessors source }

/-- Choose the block that control enters first. -/
def setEntry (g : Graph S K) (block : BlockId) : Except GraphError (Graph S K) := do
  let _ ← g.requireBlock block
  return { g with entry := some block }

/-- The graph once its entry has been chosen. -/
def finish (g : Graph S K) : Except GraphError (Graph S K) :=
  if g.entry.isNone then .error .missingEntry else .ok g

/-! ## Calls and parameters -/

end Graph

/-- Whether `a` stands no later in the block than `b`. -/
def Block.inOrder (block : Block) (a b : NodeId) : Bool :=
  block.nodes.idxOf a ≤ block.nodes.idxOf b

/-- Note once that `owner` calls from this block, and put the call sites back in block order. -/
def Block.addCallSite (block : Block) (owner : NodeId) : Block :=
  if owner ∈ block.callSites then block
  else { block with callSites := (block.callSites ++ [owner]).mergeSort block.inOrder }

namespace Graph

variable {S K : Type}

/-- Attach the procedure that begins at `entryBlock` to the node that calls it. -/
def addSubgraph (g : Graph S K) (owner : NodeId) (entryBlock : BlockId) :
    Except GraphError (SubgraphId × Graph S K) := do
  let caller ← g.requireNode owner
  let some home := caller.block | .error (.notPlaced owner)
  let entry ← g.requireBlock entryBlock
  let id := g.nextSubgraph
  let owned := g.modifyNode owner fun n => { n with subgraphs := n.subgraphs ++ [id] }
  let attached :=
    { owned with subgraphs := owned.subgraphs.push ⟨owner, entryBlock, entry.first⟩ }
  return (id, if g.tracksCallSites then attached.modifyBlock home (·.addCallSite owner)
    else attached)

/-- Declare the formal parameters of the procedure that begins at `node`. -/
def setParameters (g : Graph S K) (node : NodeId) (params : Parameters K) :
    Except GraphError (Graph S K) := do
  let _ ← g.requireNode node
  return g.modifyNode node fun n => { n with parameters := some params }

end Graph

end BlockFlow
