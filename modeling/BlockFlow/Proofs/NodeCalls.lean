/-
# BlockFlow.Proofs.NodeCalls -- runs, node by node

A transfer function of nodes is called on every node of a block it is run on, in order.  As
long as the calls leave the shape of the graph alone, a whole run is therefore one long list
of calls, those on the nodes of the blocks it visited (`Run.nodeCalls`,
`runBounded_leaves`), and nothing else is done to the graph once its blocks are stamped.
-/
import BlockFlow.Proofs.Equations
import BlockFlow.Proofs.Limits

namespace BlockFlow

set_option autoImplicit false

open FlowGraph (topology)

namespace NodeTransfer

variable {G σ : Type} (transfer : NodeTransfer G σ)

/-! ## One call after the other -/

theorem onEach_append (first later : List NodeId) (g : G) (memory : σ) :
    transfer.onEach (first ++ later) g memory =
      let before := transfer.onEach first g memory
      let after := transfer.onEach later before.graph before.memory
      { after with changed := before.changed || after.changed } := by
  induction first generalizing g memory with
  | nil => rfl
  | cons node rest ih =>
      rw [List.cons_append, onEach, ih, onEach]
      simp only [Bool.or_assoc]

/-- What every call keeps, a list of calls keeps. -/
theorem onEach_preserves (Inv : G → σ → Prop)
    (step : ∀ node g memory, Inv g memory →
      Inv (transfer node g memory).graph (transfer node g memory).memory)
    (nodes : List NodeId) (g : G) (memory : σ) (inv : Inv g memory) :
    Inv (transfer.onEach nodes g memory).graph (transfer.onEach nodes g memory).memory := by
  induction nodes generalizing g memory with
  | nil => exact inv
  | cons node rest ih => exact ih _ _ (step node g memory inv)

variable [FlowGraph G]

/-- Calls on these nodes of the graph in turn, beginning from the first graph and memory, leave
the others behind. -/
structure Leaves (start : G) (memory₀ : σ) (calls : List NodeId) (g : G) (memory : σ) : Prop where
  inside : ∀ node ∈ calls, (topology start).hasNode node = true
  graph : g = (transfer.onEach calls start memory₀).graph
  memory : memory = (transfer.onEach calls start memory₀).memory

/-- However often it is called on the nodes of the graph, beginning from this graph and memory,
the transfer function leaves the shape of the graph alone. -/
def KeepsShape (start : G) (memory₀ : σ) : Prop :=
  ∀ calls g memory, transfer.Leaves start memory₀ calls g memory → topology g = topology start

theorem Leaves.nil (g : G) (memory : σ) : transfer.Leaves g memory [] g memory :=
  ⟨fun _ member => absurd member List.not_mem_nil, rfl, rfl⟩

variable {transfer} {start g : G} {memory₀ memory : σ} {calls : List NodeId}

theorem Leaves.append (leaves : transfer.Leaves start memory₀ calls g memory) {later : List NodeId}
    (inside : ∀ node ∈ later, (topology start).hasNode node = true) :
    transfer.Leaves start memory₀ (calls ++ later) (transfer.onEach later g memory).graph
      (transfer.onEach later g memory).memory := by
  obtain ⟨before, rfl, rfl⟩ := leaves
  constructor
  case inside =>
    exact fun node member => (List.mem_append.mp member).elim (before node) (inside node)
  all_goals rw [onEach_append]

/-- On a graph of the shape that the calls began with, a visit of a block is one call for each of
its nodes. -/
theorem KeepsShape.ofNode_eq (keeps : transfer.KeepsShape start memory₀)
    (leaves : transfer.Leaves start memory₀ calls g memory) (block : BlockId) :
    BlockTransfer.ofNode transfer block g memory =
      transfer.onEach ((topology start).nodes block) g memory := by
  rw [BlockTransfer.ofNode, keeps calls g memory leaves]

end NodeTransfer

/-- Visits of blocks one after the other are calls on all their nodes, one after the other. -/
theorem Calls.onEach {G σ : Type} [FlowGraph G] {transfer : NodeTransfer G σ} {start g h : G}
    {memory₀ memory memory' : σ} (keeps : transfer.KeepsShape start memory₀)
    (parted : (topology start).Partitioned) {earlier : List NodeId} {visits : List Visit}
    (calls : Calls (.ofNode transfer) g memory visits h memory')
    (leaves : transfer.Leaves start memory₀ earlier g memory) :
    transfer.Leaves start memory₀
      (earlier ++ visits.flatMap fun visit => (topology start).nodes visit.block) h memory' := by
  induction calls generalizing earlier with
  | nil =>
      rw [List.flatMap_nil, List.append_nil]
      exact leaves
  | @cons g memory block visits h memory' later ih =>
      have here := keeps.ofNode_eq leaves block
      rw [List.flatMap_cons, ← List.append_assoc]
      exact ih (here ▸ leaves.append (parted.inside block))

/-- The nodes that the visits of a run call a transfer function of nodes on, in turn. -/
def Run.nodeCalls {G σ : Type} (run : Run G σ) (shape : Topology) : List NodeId :=
  run.visits.flatten.flatMap fun visit => shape.nodes visit.block

namespace Analysis

variable {G σ : Type} [FlowGraph G] (analysis : Analysis G σ) {transfer : NodeTransfer G σ}

theorem runBounded_calls (limit : Nat) {g : G} (calm : (analysis.numbering g).stray = none) :
    Calls analysis.transfer (analysis.stamped g) analysis.memory
      (analysis.runBounded limit g).visits.flatten (analysis.runBounded limit g).graph
      (analysis.runBounded limit g).analysis.memory := by
  rw [analysis.runBounded_of_calm limit calm]
  exact rounds_calls _ _ _ _ _ (analysis.start g)

/-- Only scheduled blocks are visited. -/
theorem mem_schedule_of_visit (limit : Nat) {g : G} (calm : (analysis.numbering g).stray = none)
    {visit : Visit} (made : visit ∈ (analysis.runBounded limit g).visits.flatten) :
    visit.block ∈ analysis.schedule g := by
  rw [analysis.runBounded_of_calm limit calm] at made
  exact (rounds_followsWorklist _ _ _ _ _ (analysis.start g)).block_mem
    (fun _ member => member) visit made

/-- Only nodes of scheduled blocks are called on. -/
theorem mem_scheduledNodes_of_call (limit : Nat) {g : G}
    (calm : (analysis.numbering g).stray = none) {node : NodeId}
    (called : node ∈ (analysis.runBounded limit g).nodeCalls (topology g)) :
    node ∈ analysis.scheduledNodes g := by
  obtain ⟨visit, made, member⟩ := List.mem_flatMap.mp called
  exact List.mem_flatMap.mpr ⟨visit.block, analysis.mem_schedule_of_visit limit calm made, member⟩

/-- **A run stamps its blocks and then calls on one node after the other.** -/
theorem runBounded_leaves (each : analysis.transfer = .ofNode transfer) (limit : Nat) {g : G}
    (calm : (analysis.numbering g).stray = none) (parted : (topology g).Partitioned)
    (keeps : transfer.KeepsShape (analysis.stamped g) analysis.memory) :
    transfer.Leaves (analysis.stamped g) analysis.memory
      ((analysis.runBounded limit g).nodeCalls (topology g)) (analysis.runBounded limit g).graph
      (analysis.runBounded limit g).analysis.memory := by
  have calls := analysis.runBounded_calls limit calm
  rw [each] at calls
  rw [← analysis.topology_stamped g] at parted ⊢
  exact calls.onEach keeps parted (.nil transfer _ _)

end Analysis

end BlockFlow
