/-
# BlockFlow.Table -- flow graphs given by plain tables

A table lists everything a topology has as it is: successors may repeat, and a block
may keep any list of call sites or none.  Nothing is derived while a table is used,
so it describes graphs that could not be built step by step.

What the rows do not say follows from them: the predecessors of a block are the
blocks that list it as a successor, once for each time they do; a node belongs to the
last block that lists it; and the subgraphs of a node are those whose owner it is.
-/
import BlockFlow.FlowGraph

namespace BlockFlow

set_option autoImplicit false

/-- What a table says of one block. -/
structure Row where
  nodes : List NodeId
  successors : List BlockId
  /-- The call sites the block keeps, if it keeps any. -/
  callSites : Option (List NodeId)

/-- A flow graph as tables, with a state `S` for each node. -/
structure Table (S : Type) where
  rows : Array Row
  /-- The owner and the entry block of each subgraph. -/
  subgraphs : Array (NodeId × BlockId)
  states : Array S
  /-- The stamps; there is one for each block. -/
  orders : Array Nat

namespace Table

variable {S : Type}

def row? (t : Table S) (block : BlockId) : Option Row := t.rows[block.index]?

def nodes (t : Table S) (block : BlockId) : List NodeId := ((t.row? block).map (·.nodes)).getD []

def successors (t : Table S) (block : BlockId) : List BlockId :=
  ((t.row? block).map (·.successors)).getD []

/-- All blocks in order. -/
def blockIds (t : Table S) : List BlockId := (List.range t.rows.size).map .mk

/-- Each block, as often as it lists `block` among its successors. -/
def predecessors (t : Table S) (block : BlockId) : List BlockId :=
  t.blockIds.flatMap fun source => ((t.successors source).filter (· = block)).map fun _ => source

/-- The last block that lists `node`. -/
def blockOf (t : Table S) (node : NodeId) : Option BlockId :=
  t.blockIds.reverse.find? fun block => (t.nodes block).contains node

/-- The subgraphs whose owner is `node`. -/
def subgraphsOf (t : Table S) (node : NodeId) : List SubgraphId :=
  ((List.range t.subgraphs.size).filter fun i =>
    (t.subgraphs[i]?).any fun sub => sub.1 = node).map .mk

def entryBlock (t : Table S) (sub : SubgraphId) : BlockId :=
  ((t.subgraphs[sub.index]?).map (·.2)).getD default

def topology (t : Table S) : Topology where
  blockCount := t.orders.size
  nodeCount := t.states.size
  nodes := t.nodes
  successors := t.successors
  predecessors := t.predecessors
  callSites block := (t.row? block).bind (·.callSites)
  blockOf := t.blockOf
  subgraphs := t.subgraphsOf
  entryBlock := t.entryBlock
  entryNode sub := (t.nodes (t.entryBlock sub)).headD default

def order (t : Table S) (block : BlockId) : Nat := (t.orders[block.index]?).getD 0

def setOrder (t : Table S) (block : BlockId) (k : Nat) : Table S :=
  { t with orders := t.orders.setIfInBounds block.index k }

def clearOrders (t : Table S) : Table S := { t with orders := t.orders.map fun _ => 0 }

theorem topology_setOrder (t : Table S) (block : BlockId) (k : Nat) :
    (t.setOrder block k).topology = t.topology := by
  have count : (t.setOrder block k).orders.size = t.orders.size := by simp [setOrder]
  simp only [topology, count]
  rfl

theorem topology_clearOrders (t : Table S) : t.clearOrders.topology = t.topology := by
  have count : t.clearOrders.orders.size = t.orders.size := by simp [clearOrders]
  simp only [topology, count]
  rfl

theorem order_setOrder (t : Table S) (block : BlockId) (k : Nat) (other : BlockId)
    (known : t.topology.hasBlock block) :
    (t.setOrder block k).order other = if other = block then k else t.order other := by
  have bound : block.index < t.orders.size := of_decide_eq_true known
  by_cases same : other = block
  · subst same
    simp [order, setOrder, bound]
  · have apart : block.index ≠ other.index := fun h => same (by cases block; cases other; simp_all)
    simp [order, setOrder, same, apart]

theorem order_clearOrders (t : Table S) (block : BlockId) : t.clearOrders.order block = 0 := by
  simp only [order, clearOrders, Array.getElem?_map]
  cases t.orders[block.index]? <;> rfl

instance : FlowGraph (Table S) where
  topology := topology
  order := order
  setOrder := setOrder
  clearOrders := clearOrders
  topology_setOrder := topology_setOrder
  topology_clearOrders := topology_clearOrders
  order_setOrder := order_setOrder
  order_clearOrders := order_clearOrders

/-- Change the state of one node. -/
def modifyState (t : Table S) (node : NodeId) (f : S → S) : Table S :=
  { t with states := t.states.modify node.index f }

end Table

end BlockFlow
