/-
# BlockFlow.Proofs.Frame -- what a run leaves alone

A transfer function of nodes may read whatever it likes and still write nothing but the
state of the node it is called on (`NodeTransfer.WritesOwnState`).  A run with such a
transfer function stamps its schedule, which is what the entry reaches, and then writes
states of scheduled nodes (`Analysis.Touches`, `Graph.run_touches`).

What no run writes is the skeleton of a graph (`Graph.skeleton`), the graph without its
states and stamps.
-/
import BlockFlow.Proofs.NodeCalls
import BlockFlow.Ring.Counting

namespace BlockFlow

set_option autoImplicit false

/-- The node without its state. -/
def Node.shell {S K : Type} (node : Node S K) : Node Unit K where
  state := ()
  block := node.block
  subgraphs := node.subgraphs
  parameters := node.parameters

namespace Graph

variable {S K σ : Type}

/-- The graph without states and stamps: where its nodes are placed, what they own and declare,
its blocks with their nodes, edges and call sites, its subgraphs and its entry. -/
def skeleton (g : Graph S K) : Graph Unit K where
  nodes := g.nodes.map Node.shell
  blocks := g.blocks.map Block.unstamped
  subgraphs := g.subgraphs
  entry := g.entry
  tracksCallSites := g.tracksCallSites

theorem skeleton_modifyState (g : Graph S K) (node : NodeId) (f : S → S) :
    (g.modifyState node f).skeleton = g.skeleton := by
  unfold skeleton modifyState modifyNode
  rw [map_modify_of_eq]
  exact fun _ => rfl

theorem state?_modifyState (g : Graph S K) (node other : NodeId) (f : S → S) :
    (g.modifyState node f).state? other =
      if other = node then (g.state? other).map f else g.state? other := by
  unfold state? modifyState
  rw [node?_modifyNode]
  split
  · rw [Option.map_map, Option.map_map]
    rfl
  · rfl

theorem skeleton_setOrder (g : Graph S K) (block : BlockId) (k : Nat) :
    (g.setOrder block k).skeleton = g.skeleton := by
  unfold skeleton setOrder modifyBlock
  rw [map_modify_of_eq]
  exact fun _ => rfl

theorem skeleton_clearOrders (g : Graph S K) : g.clearOrders.skeleton = g.skeleton := by
  unfold skeleton clearOrders
  rw [Array.map_map]
  rfl

theorem skeleton_stamped (analysis : Analysis (Graph S K) σ) (g : Graph S K) :
    (analysis.stamped g).skeleton = g.skeleton :=
  stampEach_preserves (fun h : Graph S K => h.skeleton = g.skeleton)
    (fun h block k same => (skeleton_setOrder h block k).trans same) _ _ _ _ _
    (skeleton_clearOrders g)

end Graph

/-! ## Calls that write the state of their node -/

section Writes

variable {S K σ : Type} {transfer : NodeTransfer (Graph S K) σ}

/-- Of the graph a call writes the state of its node and nothing else.  What it writes there may
depend on all of the graph. -/
def NodeTransfer.WritesOwnState (transfer : NodeTransfer (Graph S K) σ) : Prop :=
  ∀ node g memory, ∃ f : S → S, (transfer node g memory).graph = g.modifyState node f

namespace NodeTransfer.WritesOwnState

variable (writes : transfer.WritesOwnState)

include writes

/-- What writing states keeps, every list of calls keeps. -/
theorem preserves (Inv : Graph S K → Prop) (step : ∀ g node f, Inv g → Inv (g.modifyState node f))
    (nodes : List NodeId) {g : Graph S K} (memory : σ) (inv : Inv g) :
    Inv (transfer.onEach nodes g memory).graph := by
  refine transfer.onEach_preserves (fun g _ => Inv g) (fun node g memory inv => ?_)
    nodes g memory inv
  obtain ⟨f, written⟩ := writes node g memory
  exact written ▸ step g node f inv

theorem topology (nodes : List NodeId) (g : Graph S K) (memory : σ) :
    (transfer.onEach nodes g memory).graph.topology = g.topology :=
  writes.preserves (fun h => h.topology = g.topology)
    (fun h node f same => (Graph.topology_modifyState h node f).trans same) nodes memory rfl

theorem keepsShape (g : Graph S K) (memory : σ) : transfer.KeepsShape g memory :=
  fun calls _ _ leaves => leaves.graph ▸ writes.topology calls g memory

theorem skeleton (nodes : List NodeId) (g : Graph S K) (memory : σ) :
    (transfer.onEach nodes g memory).graph.skeleton = g.skeleton :=
  writes.preserves (fun h => h.skeleton = g.skeleton)
    (fun h node f same => (Graph.skeleton_modifyState h node f).trans same) nodes memory rfl

theorem order (nodes : List NodeId) (g : Graph S K) (memory : σ) :
    (transfer.onEach nodes g memory).graph.order = g.order :=
  writes.preserves (fun h => h.order = g.order) (fun _ _ _ same => same) nodes memory rfl

/-- Nodes that no call is made on stay as they are. -/
theorem node?_of_not_mem {nodes : List NodeId} {node : NodeId} (absent : node ∉ nodes)
    (g : Graph S K) (memory : σ) :
    (transfer.onEach nodes g memory).graph.node? node = g.node? node := by
  induction nodes generalizing g memory with
  | nil => rfl
  | cons called rest ih =>
      rw [List.mem_cons, not_or] at absent
      obtain ⟨f, written⟩ := writes called g memory
      rw [NodeTransfer.onEach, ih absent.2, written, Graph.modifyState, Graph.node?_modifyNode,
        if_neg absent.1]

end NodeTransfer.WritesOwnState

/-- Counting visits writes the count of the node. -/
theorem Ring.Counting.writesOwnState (counting : Counting) : counting.onNode.WritesOwnState :=
  fun _ _ _ => ⟨(· + 1), rfl⟩

end Writes

/-! ## Runs -/

namespace Analysis

section Schedule

variable {G σ : Type} [FlowGraph G]

/-- The schedule of a run is what its entry reaches. -/
theorem mem_schedule_iff (analysis : Analysis G σ) {g : G} (closed : (FlowGraph.topology g).Closed)
    (known : (FlowGraph.topology g).hasBlock analysis.entry = true) (block : BlockId) :
    block ∈ analysis.schedule g ↔
      (FlowGraph.topology g).Reaches analysis.mode.discovery analysis.entry block := by
  have found := Walker.explore_mem_blocks closed (Walker.fresh_sound _ analysis.mode)
    (Walker.fresh_saturated _ analysis.mode) known block
  exact found.trans (or_iff_right List.not_mem_nil)

end Schedule

variable {S K σ : Type}

/-- What a run does to a graph, made with a transfer function of nodes that writes the state of
its node. -/
structure Touches (analysis : Analysis (Graph S K) σ) (transfer : NodeTransfer (Graph S K) σ)
    (g : Graph S K) (run : Run (Graph S K) σ) : Prop where
  /-- States and stamps are all that is written. -/
  skeleton : run.graph.skeleton = g.skeleton
  topology : run.graph.topology = g.topology
  /-- Once the schedule is stamped, the calls on these nodes are made, and nothing else is done. -/
  calls : transfer.Leaves (analysis.stamped g) analysis.memory (run.nodeCalls g.topology) run.graph
    run.analysis.memory
  /-- The scheduled blocks are those that the entry reaches. -/
  reached : ∀ block, block ∈ analysis.schedule g ↔
    g.topology.Reaches analysis.mode.discovery analysis.entry block
  /-- Calls are made on nodes of scheduled blocks only. -/
  scheduled : ∀ node ∈ run.nodeCalls g.topology, node ∈ analysis.scheduledNodes g
  /-- All other nodes stay as they were, with their states. -/
  others : ∀ node, node ∉ analysis.scheduledNodes g → run.graph.node? node = g.node? node
  /-- Detached nodes are among these. -/
  detached : ∀ node, g.blockOf node = none →
    node ∉ run.nodeCalls g.topology ∧ run.graph.state? node = g.state? node
  /-- When calls are not followed, so are the nodes of all blocks that control does not come to. -/
  unreached : analysis.mode.interprocedural = false →
    ∀ block, ¬ g.topology.Flows analysis.entry block → ∀ node ∈ g.topology.nodes block,
      node ∉ run.nodeCalls g.topology ∧ run.graph.state? node = g.state? node
  /-- The scheduled blocks are stamped in schedule order from 1 on. -/
  stamped : ∀ i block, (analysis.schedule g)[i]? = some block → run.graph.order block = i + 1
  /-- All other stamps are cleared. -/
  cleared : ∀ block, block ∉ analysis.schedule g → run.graph.order block = 0
  /-- Every call finds these stamps on the graph that it is made on. -/
  inPlace : ∀ earlier node later h memory, run.nodeCalls g.topology = earlier ++ node :: later →
    transfer.Leaves (analysis.stamped g) analysis.memory earlier h memory →
    h.order = run.graph.order

theorem runBounded_touches (analysis : Analysis (Graph S K) σ)
    {transfer : NodeTransfer (Graph S K) σ} (each : analysis.transfer = .ofNode transfer)
    (writes : transfer.WritesOwnState) {g : Graph S K} (coherent : g.Coherent)
    (known : g.topology.hasBlock analysis.entry = true) (limit : Nat) :
    analysis.Touches transfer g (analysis.runBounded limit g) := by
  have calm := analysis.numbering_calm coherent.closed known
  have calls := analysis.runBounded_leaves each limit calm coherent.partitioned
    (writes.keepsShape _ _)
  have within : ∀ node ∈ (analysis.runBounded limit g).nodeCalls g.topology,
      node ∈ analysis.scheduledNodes g :=
    fun _ called => analysis.mem_scheduledNodes_of_call limit calm called
  generalize analysis.runBounded limit g = run at calls within ⊢
  have orders : run.graph.order = (analysis.stamped g).order := by
    rw [calls.graph]
    exact writes.order _ _ _
  have kept : ∀ node, node ∉ run.nodeCalls g.topology → run.graph.node? node = g.node? node := by
    intro node uncalled
    rw [calls.graph]
    refine (writes.node?_of_not_mem uncalled _ _).trans ?_
    rw [Graph.node?, Graph.nodes_stamped, Graph.node?]
  -- a node of a block that is not scheduled is in no scheduled block
  have apart : ∀ block, block ∉ analysis.schedule g → ∀ node ∈ g.topology.nodes block,
      node ∉ run.nodeCalls g.topology := by
    intro block unscheduled node member called
    obtain ⟨other, scheduled, inOther⟩ := List.mem_flatMap.mp (within node called)
    exact unscheduled (coherent.block_unique member inOther ▸ scheduled)
  constructor
  case skeleton =>
    rw [calls.graph, writes.skeleton]
    exact Graph.skeleton_stamped analysis g
  case topology =>
    rw [calls.graph, writes.topology]
    exact analysis.topology_stamped g
  case calls => exact calls
  case reached => exact analysis.mem_schedule_iff coherent.closed known
  case scheduled => exact within
  case others => exact fun node outside => kept node fun called => outside (within node called)
  case detached =>
    intro node detached
    have uncalled : node ∉ run.nodeCalls g.topology := by
      intro called
      obtain ⟨block, -, member⟩ := List.mem_flatMap.mp (within node called)
      have placed : g.blockOf node = some block := (coherent.placed node block).mpr member
      rw [detached] at placed
      cases placed
    exact ⟨uncalled, congrArg (Option.map Node.state) (kept node uncalled)⟩
  case unreached =>
    intro inside block unreached node member
    have discovery : analysis.mode.discovery = none := by simp [Mode.discovery, inside]
    have unscheduled : block ∉ analysis.schedule g := by
      rw [analysis.mem_schedule_iff coherent.closed known, discovery]
      exact (congrFun (congrFun (Topology.reaches_none _) _) _).mp.mt unreached
    have uncalled := apart block unscheduled node member
    exact ⟨uncalled, congrArg (Option.map Node.state) (kept node uncalled)⟩
  case stamped =>
    intro i block found
    rw [orders]
    exact analysis.order_stamped_getElem? g found
  case cleared =>
    intro block absent
    rw [orders]
    exact analysis.order_stamped_of_not_mem g absent
  case inPlace =>
    intro earlier node later h memory _ leaves
    rw [orders, leaves.graph]
    exact writes.order _ _ _

end Analysis

namespace Graph

variable {S K σ : Type}

/-- **A run touches only what it schedules.**  On every graph that operations have built and from
each of its blocks, a run comes to an end or to its limit, and in both cases it has stamped
the blocks that its entry reaches and written states of their nodes. -/
theorem run_touches (tracks : Bool) (ops : List (Op S K)) (analysis : Analysis (Graph S K) σ)
    {transfer : NodeTransfer (Graph S K) σ} (each : analysis.transfer = .ofNode transfer)
    (writes : transfer.WritesOwnState)
    (known : (built tracks ops).topology.hasBlock analysis.entry = true) (limit : Nat) :
    let g := built tracks ops
    let run := analysis.runBounded limit g
    (run.ending = .converged ∨ run.ending = .passLimit limit) ∧
      (analysis.run limit g = if run.ending = .converged then some run else none) ∧
      analysis.Touches transfer g run := by
  have coherent := built_coherent tracks ops
  obtain ⟨calm, worked⟩ := analysis.runBounded_followsWorklist limit (built tracks ops)
  obtain ⟨-, -, -, ending, answers⟩ := worked (calm coherent.closed known)
  exact ⟨ending, answers, analysis.runBounded_touches each writes coherent known limit⟩

/-- Block 0 flows into block 1, which calls the procedure at block 2, with a parameter; block 3
flows into block 0 and carries an old stamp.  Nodes 4 and 5 stand for the parameter. -/
def aboutAProcedure : List (Op Nat Nat) :=
  [.addFreshBlock [0], .addFreshBlock [0], .addFreshBlock [0], .addFreshBlock [0], .addNode 0,
    .addNode 0, .addEdge ⟨0⟩ ⟨1⟩, .addEdge ⟨3⟩ ⟨0⟩, .addSubgraph ⟨1⟩ ⟨2⟩,
    .setParameters ⟨2⟩ (Parameters.empty.add 7 ⟨⟨4⟩, ⟨5⟩⟩).2, .setOrder ⟨3⟩ 9]

/-- A run that stays in the graph and is stopped after one pass. -/
theorem aboutAProcedure_touches :
    let analysis : Analysis Ring.VisitGraph Unit :=
      { entry := ⟨0⟩, mode := .within, transfer := .ofNode Ring.Counting.oneChange.onNode,
        memory := () }
    let g : Ring.VisitGraph := built false aboutAProcedure
    let run := analysis.runBounded 1 g
    g.topology.hasBlock analysis.entry = true ∧ run.ending = .passLimit 1 ∧
      analysis.Touches Ring.Counting.oneChange.onNode g run ∧
      run.nodeCalls g.topology = [⟨0⟩, ⟨1⟩] ∧
      run.graph.nodes.toList.map (·.state) = [1, 1, 0, 0, 0, 0] ∧
      run.graph.blocks.toList.map (·.order) = [1, 2, 0, 0] := by
  have known : (built false aboutAProcedure : Ring.VisitGraph).topology.hasBlock ⟨0⟩ = true := by
    decide +kernel
  obtain ⟨-, -, touches⟩ := run_touches false aboutAProcedure
    { entry := ⟨0⟩, mode := .within, transfer := .ofNode Ring.Counting.oneChange.onNode,
      memory := () } rfl Ring.Counting.oneChange.writesOwnState known 1
  exact ⟨known, by decide +kernel, touches, by decide +kernel, by decide +kernel,
    by decide +kernel⟩

end Graph

end BlockFlow
