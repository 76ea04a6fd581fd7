/-
# BlockFlow.Graph.Basic -- dependence graphs

A dependence graph keeps its nodes, basic blocks and subgraphs in three tables, in
the order of their creation; handles are positions in these tables.  A node carries
a state of the analysis that uses the graph, and belongs to at most one block.  A
block is a non-empty run of nodes, so it is given by its first node and the rest.

The graph may keep, for each block, the list of its nodes that own subgraphs; such a
graph *tracks call sites*.

`Graph.topology` is the shape of the graph, and a graph with its stamps is a
`FlowGraph`.
-/
import BlockFlow.FlowGraph
import BlockFlow.Parameters

namespace BlockFlow

set_option autoImplicit false

/-- A node and what is attached to it. -/
structure Node (S K : Type) where
  /-- What an analysis knows at the node. -/
  state : S
  /-- The block the node is placed in; a fresh node is detached. -/
  block : Option BlockId := none
  /-- The subgraphs the node owns, in the order they were attached. -/
  subgraphs : List SubgraphId := []
  /-- The formal parameters declared at the node. -/
  parameters : Option (Parameters K) := none

/-- A basic block. -/
structure Block where
  id : BlockId
  first : NodeId
  rest : List NodeId
  successors : List BlockId := []
  predecessors : List BlockId := []
  /-- The stamp of the latest traversal. -/
  order : Nat := 0
  /-- The nodes of the block that own subgraphs, in block order, where they are tracked. -/
  callSites : List NodeId := []
deriving DecidableEq

namespace Block

/-- The nodes in execution order. -/
def nodes (block : Block) : List NodeId := block.first :: block.rest

/-- The node at which control leaves the block. -/
def last (block : Block) : NodeId := block.rest.getLastD block.first

/-- The block as no traversal has reached it. -/
def unstamped (block : Block) : Block := { block with order := 0 }

end Block

/-- A procedure attached to the node that calls it. -/
structure Subgraph where
  owner : NodeId
  entryBlock : BlockId
  /-- The first node of the entry block. -/
  entryNode : NodeId
deriving DecidableEq

/-- A dependence graph with node states `S` and parameter keys `K`. -/
structure Graph (S K : Type) where
  nodes : Array (Node S K)
  blocks : Array Block
  subgraphs : Array Subgraph
  /-- The block control enters first, once it is chosen. -/
  entry : Option BlockId
  /-- Whether blocks list the nodes that own subgraphs. -/
  tracksCallSites : Bool

namespace Graph

variable {S K : Type}

/-- No nodes, blocks or subgraphs. -/
def empty (tracksCallSites : Bool) : Graph S K := ⟨#[], #[], #[], none, tracksCallSites⟩

/-! ## Reading -/

def node? (g : Graph S K) (node : NodeId) : Option (Node S K) := g.nodes[node.index]?

def block? (g : Graph S K) (block : BlockId) : Option Block := g.blocks[block.index]?

def subgraph? (g : Graph S K) (sub : SubgraphId) : Option Subgraph := g.subgraphs[sub.index]?

/-- What an analysis knows at `node`. -/
def state? (g : Graph S K) (node : NodeId) : Option S := (g.node? node).map (·.state)

/-- The block that holds `node`; none for a detached or unknown node. -/
def blockOf (g : Graph S K) (node : NodeId) : Option BlockId := (g.node? node).bind (·.block)

/-- The formal parameters declared at `node`. -/
def parameters? (g : Graph S K) (node : NodeId) : Option (Parameters K) :=
  (g.node? node).bind (·.parameters)

/-- The first node of the entry block. -/
def entryNode (g : Graph S K) : Option NodeId := g.entry.bind fun b => (g.block? b).map (·.first)

/-- Blocks, edges and calls of the graph. -/
def topology (g : Graph S K) : Topology where
  blockCount := g.blocks.size
  nodeCount := g.nodes.size
  nodes b := ((g.block? b).map (·.nodes)).getD []
  successors b := ((g.block? b).map (·.successors)).getD []
  predecessors b := ((g.block? b).map (·.predecessors)).getD []
  callSites b :=
    if g.tracksCallSites then some (((g.block? b).map (·.callSites)).getD []) else none
  blockOf := g.blockOf
  subgraphs n := ((g.node? n).map (·.subgraphs)).getD []
  entryBlock s := ((g.subgraph? s).map (·.entryBlock)).getD default
  entryNode s := ((g.subgraph? s).map (·.entryNode)).getD default

/-- The blocks reachable from `start`, nearest first; none when there is no such block. -/
def reachable? (g : Graph S K) (start : BlockId) : Option (List BlockId) :=
  if g.topology.hasBlock start then some (g.topology.reachable start) else none

/-- The nodes of the blocks reachable from the entry of `sub`. -/
def subgraphNodes? (g : Graph S K) (sub : SubgraphId) : Option (List NodeId) :=
  (g.subgraph? sub).map fun s => (g.topology.reachable s.entryBlock).flatMap g.topology.nodes

/-! ## Writing states and stamps -/

/-- Change the entry of one node. -/
def modifyNode (g : Graph S K) (node : NodeId) (f : Node S K → Node S K) : Graph S K :=
  { g with nodes := g.nodes.modify node.index f }

/-- Change the entry of one block. -/
def modifyBlock (g : Graph S K) (block : BlockId) (f : Block → Block) : Graph S K :=
  { g with blocks := g.blocks.modify block.index f }

/-- Change the state of one node. -/
def modifyState (g : Graph S K) (node : NodeId) (f : S → S) : Graph S K :=
  g.modifyNode node fun n => { n with state := f n.state }

/-- The stamp of `block`, 0 for an unknown block. -/
def order (g : Graph S K) (block : BlockId) : Nat := ((g.block? block).map (·.order)).getD 0

def setOrder (g : Graph S K) (block : BlockId) (k : Nat) : Graph S K :=
  g.modifyBlock block fun b => { b with order := k }

def clearOrders (g : Graph S K) : Graph S K :=
  { g with blocks := g.blocks.map Block.unstamped }

theorem block?_setOrder (g : Graph S K) (block other : BlockId) (k : Nat) :
    (g.setOrder block k).block? other =
      (g.block? other).map fun b => if other = block then { b with order := k } else b := by
  by_cases same : other = block
  · subst same
    simp [setOrder, modifyBlock, block?, Array.getElem?_modify]
  · have apart : block.index ≠ other.index := fun h => same (by cases block; cases other; simp_all)
    simp [setOrder, modifyBlock, block?, Array.getElem?_modify, same, apart]

theorem block?_clearOrders (g : Graph S K) (block : BlockId) :
    g.clearOrders.block? block = (g.block? block).map Block.unstamped := by
  simp [clearOrders, block?]

/-- Graphs that differ in stamps only have one topology. -/
theorem topology_congr {g h : Graph S K} (nodes : h.nodes = g.nodes)
    (subgraphs : h.subgraphs = g.subgraphs) (tracks : h.tracksCallSites = g.tracksCallSites)
    (count : h.blocks.size = g.blocks.size)
    (blocks : ∀ b, (h.block? b).map Block.unstamped = (g.block? b).map Block.unstamped) :
    h.topology = g.topology := by
  have read {α : Type} (f : Block → α) (same : ∀ b : Block, f b.unstamped = f b) (b : BlockId) :
      (h.block? b).map f = (g.block? b).map f := by
    have := congrArg (Option.map f) (blocks b)
    simpa only [Option.map_map, Function.comp_def, same] using this
  have hnodes := read Block.nodes fun _ => rfl
  have hsuccessors := read Block.successors fun _ => rfl
  have hpredecessors := read Block.predecessors fun _ => rfl
  have hsites := read Block.callSites fun _ => rfl
  have hplace : h.blockOf = g.blockOf := funext fun n => by simp only [blockOf, node?, nodes]
  simp only [topology, hplace, node?, subgraph?, hnodes, hsuccessors, hpredecessors, hsites,
    nodes, subgraphs, tracks, count]

theorem topology_setOrder (g : Graph S K) (block : BlockId) (k : Nat) :
    (g.setOrder block k).topology = g.topology := by
  refine topology_congr rfl rfl rfl (by simp [setOrder, modifyBlock]) fun b => ?_
  rw [block?_setOrder, Option.map_map]
  refine congrArg (Option.map · _) (funext fun block => ?_)
  simp only [Function.comp_apply]
  split <;> rfl

theorem topology_clearOrders (g : Graph S K) : g.clearOrders.topology = g.topology := by
  refine topology_congr rfl rfl rfl (by simp [clearOrders]) fun b => ?_
  rw [block?_clearOrders, Option.map_map]
  rfl

theorem order_setOrder (g : Graph S K) (block : BlockId) (k : Nat) (other : BlockId)
    (known : g.topology.hasBlock block) :
    (g.setOrder block k).order other = if other = block then k else g.order other := by
  simp only [order, block?_setOrder]
  split
  · rename_i h
    subst h
    have : other.index < g.blocks.size := of_decide_eq_true known
    simp [block?, this]
  · simp

theorem order_clearOrders (g : Graph S K) (block : BlockId) : g.clearOrders.order block = 0 := by
  simp only [order, block?_clearOrders]
  cases g.block? block <;> rfl

instance : FlowGraph (Graph S K) where
  topology := topology
  order := order
  setOrder := setOrder
  clearOrders := clearOrders
  topology_setOrder := topology_setOrder
  topology_clearOrders := topology_clearOrders
  order_setOrder := order_setOrder
  order_clearOrders := order_clearOrders

end Graph

end BlockFlow
