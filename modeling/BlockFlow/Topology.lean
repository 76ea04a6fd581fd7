/-
# BlockFlow.Topology -- the shape of a flow graph

A `Topology` is all that a traversal reads: the blocks, the nodes of each block in
execution order, control-flow edges in both directions, and the calls.  A node may
own subgraphs; a subgraph is a procedure given by its entry block, and the block's
call-site cache, where there is one, lists the nodes that own some.

Blocks are named `0 … blockCount - 1` and nodes `0 … nodeCount - 1`.  A handle past
its range is a *stray*, and a topology may well mention strays: as a successor, as the
entry of a subgraph, or as a call site.

* `callees` is the list of subgraphs a block calls, owner by owner in block order, and
  `strayCaller?` the stray that stands in the way of finding them;
* `reachable` lists the blocks reachable along control-flow edges, breadth first.
-/
import BlockFlow.Handle
import BlockFlow.Mode
import BlockFlow.Distinct

namespace BlockFlow

set_option autoImplicit false

/-- A handle that a topology mentions though it names nothing there. -/
inductive Stray where
  | block (block : BlockId)
  | node (node : NodeId)
deriving DecidableEq

def Stray.text : Stray → String
  | .block unknown => "block " ++ unknown.text
  | .node unknown => "node " ++ unknown.text

/-- Blocks, nodes, edges and calls. -/
@[ext]
structure Topology where
  /-- How many blocks there are. -/
  blockCount : Nat
  /-- How many nodes there are. -/
  nodeCount : Nat
  /-- The nodes of a block in execution order. -/
  nodes : BlockId → List NodeId
  /-- The blocks control may pass to, in the order a traversal tries them. -/
  successors : BlockId → List BlockId
  /-- The blocks control may come from. -/
  predecessors : BlockId → List BlockId
  /-- The calling nodes of a block, where the block keeps a list of them. -/
  callSites : BlockId → Option (List NodeId)
  /-- The block a node is placed in. -/
  blockOf : NodeId → Option BlockId
  /-- The subgraphs a node owns, in the order they were attached. -/
  subgraphs : NodeId → List SubgraphId
  /-- Where control enters a subgraph. -/
  entryBlock : SubgraphId → BlockId
  /-- The first node of a subgraph. -/
  entryNode : SubgraphId → NodeId

namespace Topology

/-- Whether `block` is one of the blocks of the graph. -/
def hasBlock (shape : Topology) (block : BlockId) : Bool := block.index < shape.blockCount

/-- Whether `node` is one of the nodes of the graph. -/
def hasNode (shape : Topology) (node : NodeId) : Bool := node.index < shape.nodeCount

/-- The nodes of `block` in which calls are looked for. -/
def sites (shape : Topology) (discovery : Discovery) (block : BlockId) : List NodeId :=
  match discovery with
  | .cache => (shape.callSites block).getD (shape.nodes block)
  | .scan => shape.nodes block

/-- The subgraphs called from `block`, owner by owner. -/
def callees (shape : Topology) (discovery : Discovery) (block : BlockId) : List SubgraphId :=
  (shape.sites discovery block).flatMap shape.subgraphs

/-- The subgraphs a traversal enters from `block`: none when calls are not followed. -/
def calls (shape : Topology) (discovery : Option Discovery) (block : BlockId) : List SubgraphId :=
  match discovery with
  | none => []
  | some how => shape.callees how block

/-- The first stray among the nodes that are asked for their calls; no node is asked when
calls are not followed. -/
def strayCaller? (shape : Topology) (discovery : Option Discovery) (block : BlockId) :
    Option NodeId :=
  match discovery with
  | none => none
  | some how => (shape.sites how block).find? fun node => !shape.hasNode node

/-! ## Breadth-first search

Blocks are visited in the order in which they are discovered, so one list holds
both the blocks visited so far and, from position `done` on, those still waiting. -/

/-- Visit the waiting blocks of `found`, at most `budget` of them. -/
def search (shape : Topology) : (budget done : Nat) → (found : List BlockId) → List BlockId
  | 0, _, found => found
  | budget + 1, done, found =>
    match found[done]? with
    | none => found
    | some block => search shape budget (done + 1) (Distinct.addAll found (shape.successors block))

/-- The blocks reachable from `start` along control-flow edges, nearest first. -/
def reachable (shape : Topology) (start : BlockId) : List BlockId :=
  search shape (shape.blockCount + 1) 0 [start]

end Topology

end BlockFlow
