/-
# BlockFlow.Proofs.RingPrograms -- the graphs of ring programs

Handles are given out in order, so a ring program has a graph that can be read off its sizes
(`Program.Laid`): the ring of `n` nodes has the first handles, and the `k`-th procedure of `m`
nodes has those from `n + k * m` on.  `Program.build` adds one procedure at a time, and each
step lays one more (`addProcedures_ok`); it is never refused as long as no ring is empty
(`build_ok`).
-/
import BlockFlow.Proofs.Coherence
import BlockFlow.Proofs.Cycles
import BlockFlow.Proofs.Shapes
import BlockFlow.Ring.Program

namespace BlockFlow

set_option autoImplicit false

namespace Graph

variable {S K : Type} {g g' : Graph S K}

/-! ## Rings in a topology -/

namespace Appends

variable {len : Nat} {state : Nat → S} {block : Nat → Block}

theorem hasBlock (appends : Appends g len state block g') {block : BlockId}
    (known : g.topology.hasBlock block = true) : g'.topology.hasBlock block = true := by
  have bound : block.index < g.blocks.size := of_decide_eq_true known
  exact decide_eq_true (Nat.lt_of_lt_of_eq (Nat.lt_add_right len bound) appends.blockCount.symm)

theorem hasBlock_new (appends : Appends g len state block g') {j : Nat} (inside : j < len) :
    g'.topology.hasBlock ⟨g.blocks.size + j⟩ = true :=
  decide_eq_true (Nat.lt_of_lt_of_eq (Nat.add_lt_add_left inside _) appends.blockCount.symm)

/-- What is said of the blocks that were there stays true. -/
theorem old_block (appends : Appends g len state block g') {i : Nat} (bound : i < g.blocks.size) :
    g'.topology.nodes ⟨i⟩ = g.topology.nodes ⟨i⟩ ∧
      g'.topology.successors ⟨i⟩ = g.topology.successors ⟨i⟩ := by
  simp only [topology, appends.oldBlock i bound, and_self]

/-- And of the nodes. -/
theorem old_node (appends : Appends g len state block g') {i : Nat} (bound : i < g.nodes.size) :
    g'.state? ⟨i⟩ = g.state? ⟨i⟩ ∧ g'.topology.subgraphs ⟨i⟩ = g.topology.subgraphs ⟨i⟩ := by
  simp only [topology, state?, appends.oldNode i bound, and_self]

theorem new_node (appends : Appends g len state block g') {j : Nat} (inside : j < len) :
    g'.state? ⟨g.nodes.size + j⟩ = some (state j) ∧
      g'.topology.subgraphs ⟨g.nodes.size + j⟩ = [] := by
  simp only [topology, state?, appends.newNode j inside, Option.map_some, Option.getD_some,
    and_self]

variable (appends : Appends g len state (ringBlock g.blocks.size g.nodes.size len) g')

include appends

theorem nodes_new {j : Nat} (inside : j < len) :
    g'.topology.nodes ⟨g.blocks.size + j⟩ = [⟨g.nodes.size + j⟩] := by
  simp only [topology, appends.newBlock j inside]
  rfl

/-- The blocks of a new ring are a cycle. -/
theorem cycle (positive : 0 < len) :
    g'.topology.Cycle len fun j => ⟨g.blocks.size + j⟩ where
  positive := positive
  known j inside := appends.hasBlock_new inside
  next j inside := by
    simp only [topology, appends.newBlock j inside]
    rfl
  distinct r _ s _ same := Nat.add_left_cancel (congrArg BlockId.index same)

end Appends

/-! ## Attaching a procedure -/

/-- A placed node can be given any block to call. -/
theorem addSubgraph_ok {owner : NodeId} {home entry : BlockId}
    (placed : g.blockOf owner = some home) (known : g.topology.hasBlock entry = true) :
    ∃ first g', g.addSubgraph owner entry = .ok (g.nextSubgraph, g') ∧
      g'.subgraphs = g.subgraphs.push ⟨owner, entry, first⟩ ∧
      ∀ node, g'.state? node = g.state? node := by
  obtain ⟨target, found⟩ := hasBlock_iff.mp known
  obtain ⟨caller, here, place⟩ := Option.bind_eq_some_iff.mp placed
  let owned := g.modifyNode owner fun n => { n with subgraphs := n.subgraphs ++ [g.nextSubgraph] }
  let attached : Graph S K :=
    { owned with subgraphs := owned.subgraphs.push ⟨owner, entry, target.first⟩ }
  have accepted : g.addSubgraph owner entry = .ok (g.nextSubgraph,
      if g.tracksCallSites then attached.modifyBlock home (·.addCallSite owner) else attached) := by
    simp only [addSubgraph, requireNode_eq_ok.mpr here, requireBlock_eq_ok.mpr found, place, bind,
      Except.bind]
    rfl
  have kept (node : NodeId) : owned.state? node = g.state? node := by
    unfold owned state?
    rw [node?_modifyNode]
    split
    · rw [Option.map_map]
      rfl
    · rfl
  refine ⟨target.first, _, accepted, ?_, fun node => ?_⟩
  · split <;> rfl
  · split <;> exact kept node

end Graph

namespace Ring.Program

open BlockFlow.Graph (Appends ringBlock)

/-! ## Program graphs -/

/-- The graph of a ring of `n` nodes and of `procedures` rings of `m` nodes each, the first
`calls` of which are called from the first nodes. -/
structure Laid (n m procedures calls : Nat) (g : VisitGraph) : Prop where
  coherent : g.Coherent
  nodeCount : g.nodes.size = n + procedures * m
  blockCount : g.blocks.size = n + procedures * m
  subgraphCount : g.subgraphs.size = calls
  /-- Each node has a block with its own number. -/
  nodes : ∀ i < n + procedures * m, g.topology.nodes ⟨i⟩ = [⟨i⟩]
  unvisited : ∀ i < n + procedures * m, g.state? ⟨i⟩ = some 0
  ring : g.topology.Cycle n BlockId.mk
  procedure : ∀ k < procedures, g.topology.Cycle m fun j => ⟨n + k * m + j⟩
  owns : ∀ i < n + procedures * m, g.topology.subgraphs ⟨i⟩ = if i < calls then [⟨i⟩] else []
  /-- A procedure is entered at its last block. -/
  subgraph : ∀ k < calls, ∃ first, g.subgraph? ⟨k⟩ = some ⟨⟨k⟩, ⟨n + k * m + (m - 1)⟩, first⟩

/-- A ring of the program, with its entry. -/
theorem addRing_ok (g : VisitGraph) {len : Nat} (positive : 0 < len) (coherent : g.Coherent) :
    ∃ g', addRing g len =
        some ((List.range len).map fun j => ⟨g.blocks.size + j⟩, ⟨g.blocks.size + (len - 1)⟩, g') ∧
      g'.Coherent ∧ Appends g len (fun _ => 0) (ringBlock g.blocks.size g.nodes.size len) g' := by
  obtain ⟨g', accepted, appends⟩ := g.addRing_ok len fun _ => 0
  have last : ((List.range len).map fun j => BlockId.mk (g.blocks.size + j)).getLast? =
      some ⟨g.blocks.size + (len - 1)⟩ := by
    rw [List.getLast?_map, List.getLast?_range, if_neg (Nat.ne_of_gt positive)]
    rfl
  refine ⟨g', ?_, Graph.stepwise_coherent.addRing coherent accepted, appends⟩
  simp only [addRing, accepted, Except.toOption, bind, Option.bind, last]
  rfl

namespace Laid

variable {n m procedures calls : Nat} {g g' : VisitGraph}

/-- The ring alone. -/
theorem of_ring {tracks : Bool} (positive : 0 < n) (coherent : g.Coherent)
    (appends : Appends (Graph.empty tracks) n (fun _ => 0)
      (ringBlock (Graph.empty tracks : VisitGraph).blocks.size
        (Graph.empty tracks : VisitGraph).nodes.size n) g) : Laid n m 0 0 g := by
  have block (j : Nat) : (Graph.empty tracks : VisitGraph).blocks.size + j = j := Nat.zero_add j
  have node (j : Nat) : (Graph.empty tracks : VisitGraph).nodes.size + j = j := Nat.zero_add j
  have total : n + 0 * m = n := by rw [Nat.zero_mul, Nat.add_zero]
  constructor
  case coherent => exact coherent
  case nodeCount => exact appends.nodeCount.trans ((node n).trans total.symm)
  case blockCount => exact appends.blockCount.trans ((block n).trans total.symm)
  case subgraphCount => exact congrArg Array.size appends.subgraphs
  case nodes =>
    intro i bound
    have new := appends.nodes_new (total ▸ bound)
    rwa [block, node] at new
  case unvisited =>
    intro i bound
    have new := (appends.new_node (total ▸ bound)).1
    rwa [node] at new
  case ring =>
    have cycle := appends.cycle positive
    simpa only [block] using cycle
  case owns =>
    intro i bound
    have new := (appends.new_node (total ▸ bound)).2
    rwa [node] at new
  all_goals exact fun k none => absurd none (Nat.not_lt_zero k)

/-- One more ring. -/
theorem append (laid : Laid n m procedures calls g) (few : calls ≤ n) (positive : 0 < m)
    (coherent : g'.Coherent)
    (appends : Appends g m (fun _ => 0) (ringBlock g.blocks.size g.nodes.size m) g') :
    Laid n m (procedures + 1) calls g' := by
  have total : n + (procedures + 1) * m = n + procedures * m + m := by
    rw [Nat.succ_mul, Nat.add_assoc]
  -- a handle that is not old is one of the ring
  have split (i : Nat) (bound : i < n + (procedures + 1) * m) :
      i < n + procedures * m ∨ ∃ j < m, i = n + procedures * m + j := by
    by_cases old : i < n + procedures * m
    · exact Or.inl old
    · exact Or.inr ⟨i - (n + procedures * m), by omega, by omega⟩
  have blocks := laid.blockCount
  have nodes := laid.nodeCount
  constructor
  case coherent => exact coherent
  case nodeCount => rw [appends.nodeCount, nodes, total]
  case blockCount => rw [appends.blockCount, blocks, total]
  case subgraphCount => rw [appends.subgraphs, laid.subgraphCount]
  case nodes =>
    intro i bound
    rcases split i bound with old | ⟨j, inside, rfl⟩
    · rw [(appends.old_block (blocks ▸ old)).1, laid.nodes i old]
    · have new := appends.nodes_new inside
      rwa [blocks, nodes] at new
  case unvisited =>
    intro i bound
    rcases split i bound with old | ⟨j, inside, rfl⟩
    · rw [(appends.old_node (nodes ▸ old)).1, laid.unvisited i old]
    · have new := (appends.new_node inside).1
      rwa [nodes] at new
  case ring =>
    refine laid.ring.congr (fun r inside => appends.hasBlock (laid.ring.known r inside)) ?_
    exact fun r inside => (appends.old_block (by omega)).2
  case procedure =>
    intro k inside
    by_cases old : k < procedures
    · have cycle := laid.procedure k old
      refine cycle.congr (fun r inside => appends.hasBlock (cycle.known r inside)) ?_
      intro r inside
      exact (appends.old_block (of_decide_eq_true (cycle.known r inside))).2
    · obtain rfl : k = procedures := by omega
      have new := appends.cycle positive
      rwa [blocks] at new
  case owns =>
    intro i bound
    rcases split i bound with old | ⟨j, inside, rfl⟩
    · rw [(appends.old_node (nodes ▸ old)).2, laid.owns i old]
    · have new := (appends.new_node inside).2
      rw [nodes] at new
      rw [new, if_neg (by omega)]
  case subgraph =>
    intro k inside
    unfold Graph.subgraph?
    rw [appends.subgraphs]
    exact laid.subgraph k inside

/-- The first node of a block that lists one. -/
theorem first (laid : Laid n m procedures calls g) {i : Nat} (bound : i < n + procedures * m) :
    (g.block? ⟨i⟩).map (·.first) = some ⟨i⟩ := by
  have listed := laid.nodes i bound
  simp only [Graph.topology] at listed
  cases found : g.block? ⟨i⟩ with
  | none =>
      rw [found] at listed
      cases listed
  | some data =>
      rw [found] at listed
      exact congrArg some (List.cons.inj listed).1

/-- One more call. -/
theorem attach (laid : Laid n m procedures calls g) (positive : 0 < m) (few : calls < n)
    (made : calls < procedures) :
    ∃ g', g.addCall ⟨calls⟩ ⟨n + calls * m + (m - 1)⟩ none = .ok (⟨calls⟩, g') ∧
      Laid n m procedures (calls + 1) g' := by
  have owner : calls < n + procedures * m := Nat.lt_add_right _ few
  have place : g.blockOf ⟨calls⟩ = some ⟨calls⟩ :=
    (laid.coherent.placed ⟨calls⟩ ⟨calls⟩).mpr (by simp [laid.nodes calls owner])
  have known := (laid.procedure calls made).known (m - 1) (Nat.sub_one_lt_of_lt positive)
  obtain ⟨first, g', accepted, subgraphs, states⟩ := Graph.addSubgraph_ok place known
  have coherent := laid.coherent.addSubgraph accepted
  obtain ⟨-, count, home, head, -, -, -, -, shape⟩ :=
    Graph.addSubgraph_spec laid.coherent.hasBlock_of_blockOf accepted
  have handle : g.nextSubgraph = ⟨calls⟩ := congrArg SubgraphId.mk laid.subgraphCount
  have blocks : g'.blocks.size = g.blocks.size := congrArg Topology.blockCount shape
  have nodes : g'.nodes.size = g.nodes.size := congrArg Topology.nodeCount shape
  have hasBlock (block : BlockId) : g'.topology.hasBlock block = g.topology.hasBlock block := by
    rw [Topology.hasBlock, shape]
    rfl
  have successors : g'.topology.successors = g.topology.successors := by rw [shape]
  have same {len : Nat} {turn : Nat → BlockId} (cycle : g.topology.Cycle len turn) :
      g'.topology.Cycle len turn :=
    cycle.congr (fun r inside => (hasBlock _).trans (cycle.known r inside))
      fun r _ => congrFun successors _
  refine ⟨g', ?_, ?_⟩
  · simp only [Graph.addCall, accepted, handle, bind, Except.bind]
    rfl
  constructor
  case coherent => exact coherent
  case nodeCount => exact nodes.trans laid.nodeCount
  case blockCount => exact blocks.trans laid.blockCount
  case subgraphCount => rw [count, laid.subgraphCount]
  case nodes =>
    intro i bound
    rw [shape]
    exact laid.nodes i bound
  case unvisited => exact fun i bound => (states _).trans (laid.unvisited i bound)
  case ring => exact same laid.ring
  case procedure => exact fun k inside => same (laid.procedure k inside)
  case owns =>
    intro i bound
    rw [shape]
    simp only [handle, NodeId.mk.injEq]
    rw [laid.owns i bound]
    by_cases caller : i = calls
    · rw [if_pos caller, if_neg (by omega), if_pos (by omega), caller]
      rfl
    · rw [if_neg caller]
      exact if_congr (by omega) rfl rfl
  case subgraph =>
    intro k inside
    have read := g.subgraph?_push ⟨⟨calls⟩, ⟨n + calls * m + (m - 1)⟩, first⟩ ⟨k⟩
    rw [← subgraphs, handle] at read
    by_cases new : k = calls
    · subst new
      exact ⟨first, read.trans (if_pos rfl)⟩
    · obtain ⟨head, old⟩ := laid.subgraph k (by omega)
      refine ⟨head, (read.trans (if_neg ?_)).trans old⟩
      exact fun same => new (congrArg SubgraphId.index same)

end Laid

/-- **The procedures of the remaining nodes are laid one after the other.** -/
theorem addProcedures_ok {n m calls : Nat} (positive : 0 < m) (left : Nat) {g : VisitGraph}
    (laid : Laid n m calls calls g) (all : calls + left = n) :
    ∃ g', addProcedures m g ((List.range' calls left).map BlockId.mk) =
        some ((List.range' calls left).map SubgraphId.mk, g') ∧ Laid n m n n g' := by
  induction left generalizing calls g with
  | zero =>
      obtain rfl : calls = n := all
      exact ⟨g, rfl, laid⟩
  | succ left ih =>
      have few : calls < n := by omega
      have owner := laid.first (Nat.lt_add_right (calls * m) few)
      obtain ⟨ring, made, coherent, appends⟩ := addRing_ok g positive laid.coherent
      have wider := laid.append few.le positive coherent appends
      obtain ⟨called, attached, further⟩ := wider.attach positive few (Nat.lt_succ_self calls)
      obtain ⟨g', others, done⟩ := ih further (by omega)
      refine ⟨g', ?_, done⟩
      rw [laid.blockCount] at made
      rw [List.range'_succ, List.map_cons, List.map_cons]
      simp only [addProcedures, owner, made, attached, others, bind, Option.bind, Except.toOption]
      rfl

/-- Choosing the entry lays nothing. -/
theorem Laid.setEntry {n m procedures calls : Nat} {g : VisitGraph}
    (laid : Laid n m procedures calls g) (entry : BlockId) :
    Laid n m procedures calls { g with entry := some entry } :=
  ⟨laid.coherent.of_topology_eq rfl rfl, laid.nodeCount, laid.blockCount, laid.subgraphCount,
    laid.nodes, laid.unvisited, laid.ring, laid.procedure, laid.owns, laid.subgraph⟩

/-- How many procedures a ring of `n` nodes calls. -/
def procedureCount (n : Nat) (procedureNodes : Option Nat) : Nat :=
  if procedureNodes.isSome then n else 0

/-- **Programs are built when no ring is empty.**  They are entered at the block of the ring that
was made last. -/
theorem build_ok {n : Nat} {procedureNodes : Option Nat} (positive : 0 < n)
    (nonempty : ∀ m ∈ procedureNodes, 0 < m) (tracks : Bool) :
    ∃ g, build n procedureNodes tracks = some
        { graph := g
          entry := ⟨n - 1⟩
          procedures := (List.range (procedureCount n procedureNodes)).map SubgraphId.mk } ∧
      Laid n (procedureNodes.getD 0) (procedureCount n procedureNodes)
        (procedureCount n procedureNodes) g := by
  obtain ⟨ring, made, coherent, appends⟩ :=
    addRing_ok (Graph.empty tracks) positive (Graph.Coherent.empty tracks)
  have blocks : (List.range n).map (fun j => BlockId.mk
      ((Graph.empty tracks : VisitGraph).blocks.size + j)) = (List.range' 0 n).map BlockId.mk := by
    rw [List.range_eq_range']
    exact List.map_congr_left fun j _ => congrArg BlockId.mk (Nat.zero_add j)
  have last : (⟨(Graph.empty tracks : VisitGraph).blocks.size + (n - 1)⟩ : BlockId) = ⟨n - 1⟩ :=
    congrArg BlockId.mk (Nat.zero_add _)
  rw [blocks, last] at made
  have enter {g : VisitGraph} {m procedures calls : Nat} (laid : Laid n m procedures calls g) :
      g.setEntry ⟨n - 1⟩ = .ok { g with entry := some ⟨n - 1⟩ } := by
    obtain ⟨data, found⟩ := Graph.hasBlock_iff.mp (laid.ring.known (n - 1) (by omega))
    simp only [Graph.setEntry, Graph.requireBlock_eq_ok.mpr found]
    rfl
  cases procedureNodes with
  | none =>
      have laid : Laid n 0 0 0 ring := .of_ring positive coherent appends
      refine ⟨_, ?_, laid.setEntry ⟨n - 1⟩⟩
      simp only [build, made, bind, Option.bind, enter laid, Except.toOption]
      rfl
  | some m =>
      obtain ⟨g, called, laid⟩ :=
        addProcedures_ok (nonempty m rfl) n (.of_ring positive coherent appends) (Nat.zero_add n)
      refine ⟨_, ?_, laid.setEntry ⟨n - 1⟩⟩
      simp only [build, made, called, bind, Option.bind, enter laid, Except.toOption]
      rw [← List.range_eq_range']
      rfl

end Ring.Program

end BlockFlow
