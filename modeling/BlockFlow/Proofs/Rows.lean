/-
# BlockFlow.Proofs.Rows -- chains and rings beside what was there

A chain and a ring of new blocks stand beside the graph they are added to: the new nodes and
blocks have the next free handles, one after the other, and every node, block and subgraph that was
there is the same as before, with its edges, call sites, stamps and parameters
(`Graph.Appends`).  From a new block control gets to new blocks only.  In a ring a search comes
once round it, wherever it begins (`Topology.Cycle.reachable_eq`); the blocks of a chain are a
`Topology.Row`, which a search follows to its end (`Topology.Row.reachable_eq`).
-/
import BlockFlow.Proofs.Frame
import BlockFlow.Proofs.RingPrograms

namespace BlockFlow

set_option autoImplicit false

/-! ## Rows of blocks -/

/-- Control passes from each of these blocks to the next and no further than to the last. -/
structure Topology.Row (shape : Topology) (len : Nat) (turn : Nat → BlockId) : Prop where
  known : ∀ r < len, shape.hasBlock (turn r) = true
  next : ∀ r < len, shape.successors (turn r) = if r + 1 < len then [turn (r + 1)] else []
  distinct : ∀ r < len, ∀ s < len, turn r = turn s → r = s

namespace Topology.Row

variable {shape : Topology} {len : Nat} {turn : Nat → BlockId}

/-- The blocks of a row from one of them on are a row. -/
theorem drop (row : shape.Row len turn) (k : Nat) : shape.Row (len - k) fun r => turn (k + r) where
  known r inside := row.known _ (by omega)
  next r inside := by
    rw [row.next _ (by omega), Nat.add_assoc]
    exact if_congr (by omega) rfl rfl
  distinct r inR s inS same := by
    have := row.distinct _ (by omega) _ (by omega) same
    omega

/-- **A search follows a row to its end.** -/
theorem reachable_eq (row : shape.Row len turn) (positive : 0 < len) :
    shape.reachable (turn 0) = (List.range len).map turn := by
  have enough := length_turns_le row.known row.distinct
  refine search_along (fun r inside => ?_) (shape.blockCount + 1) positive (by omega)
  rw [row.next r inside]
  by_cases further : r + 1 < len
  · rw [if_pos further]
    exact addAll_turn row.distinct further
  · rw [if_neg further, Nat.min_eq_right (by omega), show r + 1 = len by omega]
    rfl

end Topology.Row

namespace Graph

variable {S K : Type} {g g' : Graph S K} {len : Nat} {state : Nat → S}

/-! ## What a new block leads to -/

/-- The blocks of a new chain are a row. -/
theorem Appends.row
    (appends : Appends g len state (chainBlock none g.blocks.size g.nodes.size len) g') :
    g'.topology.Row len fun j => ⟨g.blocks.size + j⟩ where
  known j inside := appends.hasBlock_new inside
  next j inside := by
    simp only [topology, appends.newBlock j inside]
    rfl
  distinct r _ s _ same := Nat.add_left_cancel (congrArg BlockId.index same)

/-- From a block of a new ring a search comes once round the ring. -/
theorem Appends.reachable_ring
    (appends : Appends g len state (ringBlock g.blocks.size g.nodes.size len) g') {k : Nat}
    (inside : k < len) : g'.reachable? ⟨g.blocks.size + k⟩ =
      some ((List.range len).map fun r => ⟨g.blocks.size + (k + r) % len⟩) := by
  have round := ((appends.cycle (by omega)).rotate k).reachable_eq
  rw [Nat.add_zero, Nat.mod_eq_of_lt inside] at round
  rw [reachable?, if_pos (appends.hasBlock_new inside), round]

/-- From a block of a new chain a search follows the chain to its end. -/
theorem Appends.reachable_chain
    (appends : Appends g len state (chainBlock none g.blocks.size g.nodes.size len) g') {k : Nat}
    (inside : k < len) : g'.reachable? ⟨g.blocks.size + k⟩ =
      some ((List.range (len - k)).map fun r => ⟨g.blocks.size + (k + r)⟩) := by
  have along := (appends.row.drop k).reachable_eq (by omega)
  rw [reachable?, if_pos (appends.hasBlock_new inside)]
  exact congrArg some along

/-- **Chains and rings add what they are called after and nothing else.**  On any graph and for any
number of states neither is refused.  Both make as many nodes and one-node blocks as there are
states, with handles that count on from those given out before, and leave all else as it was
(`Appends`).  In a ring the `j`-th block leads to the one after it and from the one before it,
counted round (`ringBlock`), and a search from any of its blocks finds the ring once round; in a
chain the first block has none before it and the last one none after it (`chainBlock`), and a
search finds the rest of the chain. -/
theorem rings_and_chains_append (g : Graph S K) (len : Nat) (state : Nat → S) :
    let ids := (List.range len).map fun j => BlockId.mk (g.blocks.size + j)
    (∃ ring, g.addRing len state = .ok (ids, ring) ∧
        Appends g len state (ringBlock g.blocks.size g.nodes.size len) ring ∧
        ∀ k < len, ring.reachable? ⟨g.blocks.size + k⟩ =
          some ((List.range len).map fun r => ⟨g.blocks.size + (k + r) % len⟩)) ∧
      ∃ chain, g.addChain len state = .ok (ids, chain) ∧
        Appends g len state (chainBlock none g.blocks.size g.nodes.size len) chain ∧
        ∀ k < len, chain.reachable? ⟨g.blocks.size + k⟩ =
          some ((List.range (len - k)).map fun r => ⟨g.blocks.size + (k + r)⟩) := by
  intro ids
  obtain ⟨ring, ringMade, round⟩ := g.addRing_ok len state
  obtain ⟨chain, chainMade, straight⟩ := g.addChain_ok len state
  exact ⟨⟨ring, ringMade, round, fun k inside => round.reachable_ring inside⟩,
    chain, chainMade, straight, fun k inside => straight.reachable_chain inside⟩

/-- A ring of three beside a graph whose second block calls a procedure with a parameter. -/
theorem ringBesideAProcedure_append :
    let g : Graph Nat Nat := built true aboutAProcedure
    ∃ ring, g.addRing 3 (10 * ·) = .ok ([⟨4⟩, ⟨5⟩, ⟨6⟩], ring) ∧ 1 < 3 ∧
      ring.reachable? ⟨5⟩ = some [⟨5⟩, ⟨6⟩, ⟨4⟩] ∧ ring.state? ⟨8⟩ = some 20 ∧
      ring.block? ⟨6⟩ = some ⟨⟨6⟩, ⟨8⟩, [], [⟨4⟩], [⟨5⟩], 0, []⟩ ∧
      ring.block? ⟨1⟩ = some ⟨⟨1⟩, ⟨1⟩, [], [], [⟨0⟩], 0, [⟨1⟩]⟩ := by
  obtain ⟨⟨ring, made, appends, round⟩, -⟩ :=
    rings_and_chains_append (built true aboutAProcedure : Graph Nat Nat) 3 (10 * ·)
  have blocks : (built true aboutAProcedure : Graph Nat Nat).blocks.size = 4 := by decide +kernel
  have nodes : (built true aboutAProcedure : Graph Nat Nat).nodes.size = 6 := by decide +kernel
  have second : (built true aboutAProcedure : Graph Nat Nat).block? ⟨1⟩ =
      some ⟨⟨1⟩, ⟨1⟩, [], [], [⟨0⟩], 0, [⟨1⟩]⟩ := by
    decide +kernel
  have node := (appends.new_node (show 2 < 3 by decide)).1
  have block := appends.newBlock 2 (by decide)
  have search := round 1 (by decide)
  rw [nodes] at node
  rw [blocks, nodes] at block
  rw [blocks] at search made
  exact ⟨ring, made, by decide, search, node, block,
    (appends.oldBlock 1 (by omega)).trans second⟩

end Graph

end BlockFlow
