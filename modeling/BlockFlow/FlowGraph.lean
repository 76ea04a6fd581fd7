/-
# BlockFlow.FlowGraph -- graphs a traversal can number

A flow graph is anything with a topology and, on each block, a stamp: the position
a traversal gave to the block, counted from 1, with 0 for "not reached".  Stamps
are all that a traversal writes, and writing them leaves the topology alone.

`stampEach` stamps a list of blocks with consecutive orders and shows each block to
a visitor as soon as it carries its stamp.
-/
import BlockFlow.Topology

namespace BlockFlow

set_option autoImplicit false

/-- A topology with a stamp on each block. -/
class FlowGraph (G : Type) where
  topology : G → Topology
  /-- The stamp of a block. -/
  order : G → BlockId → Nat
  setOrder : G → BlockId → Nat → G
  /-- Set the stamp of every block to 0. -/
  clearOrders : G → G
  topology_setOrder : ∀ g block k, topology (setOrder g block k) = topology g
  topology_clearOrders : ∀ g, topology (clearOrders g) = topology g
  order_setOrder : ∀ g block k other, (topology g).hasBlock block →
    order (setOrder g block k) other = if other = block then k else order g other
  order_clearOrders : ∀ g block, order (clearOrders g) block = 0

namespace FlowGraph

variable {G σ : Type} [FlowGraph G]

/-- Stamp `blocks` with `next`, `next + 1`, …; each is visited once it is stamped. -/
def stampEach (visit : G → BlockId → σ → σ) :
    (next : Nat) → (blocks : List BlockId) → G → σ → G × σ
  | _, [], g, s => (g, s)
  | next, block :: rest, g, s =>
    let g' := setOrder g block next
    stampEach visit (next + 1) rest g' (visit g' block s)

/-- Stamp `blocks` with `next`, `next + 1`, …. -/
def stamp (next : Nat) (blocks : List BlockId) (g : G) : G :=
  (stampEach (fun _ _ (s : Unit) => s) next blocks g ()).1

end FlowGraph

end BlockFlow
