/-
# BlockFlow.Proofs.Uniform -- nodes that change a fixed number of times

A transfer function may report a change on the first `n` calls it gets on each node and on
no other (`NodeTransfer.ChangesFirst`).  Then all blocks of a run change in each of the
first `n` passes, so every pass visits the whole schedule, and the run converges with the
pass after them (`rounds_uniform`).  `Analysis.VisitsUniformly` says what such a run comes to,
call by call, and `Graph.visits_uniform` that it does on every graph that was built.

Visits that are only counted are of this kind, with `n` at most 1
(`Ring.Counting.changesFirst`).
-/
import BlockFlow.Proofs.Frame

namespace BlockFlow

set_option autoImplicit false

open FlowGraph (topology)

/-! ## Calls on one node after the other -/

section Calls

variable {G σ : Type} [FlowGraph G]

/-- From this graph and memory on, each node reports a change on the first `n` calls it gets,
whatever calls other nodes get in between, and the shape of the graph stays. -/
structure NodeTransfer.ChangesFirst (transfer : NodeTransfer G σ) (n : Nat) (start : G)
    (memory₀ : σ) : Prop where
  keeps : transfer.KeepsShape start memory₀
  reports : ∀ earlier node g memory, (topology start).hasNode node = true →
    transfer.Leaves start memory₀ earlier g memory →
      (transfer node g memory).changed = decide (earlier.count node < n)

variable {transfer : NodeTransfer G σ} {n : Nat} {start : G} {memory₀ : σ}

/-- Nodes that have been called equally often report the same, one after the other. -/
theorem NodeTransfer.ChangesFirst.onEach_changed (uniform : transfer.ChangesFirst n start memory₀)
    {k : Nat} {earlier nodes : List NodeId} (nodup : nodes.Nodup)
    (inside : ∀ node ∈ nodes, (topology start).hasNode node = true)
    (counts : ∀ node ∈ nodes, earlier.count node = k) {g : G} {memory : σ}
    (leaves : transfer.Leaves start memory₀ earlier g memory) :
    (transfer.onEach nodes g memory).changed = (decide (k < n) && !nodes.isEmpty) := by
  induction nodes generalizing earlier g memory with
  | nil => simp [NodeTransfer.onEach]
  | cons node rest ih =>
      obtain ⟨absent, distinct⟩ := List.nodup_cons.mp nodup
      have here := inside node List.mem_cons_self
      have first := uniform.reports earlier node g memory here leaves
      rw [counts node List.mem_cons_self] at first
      have later : (transfer.onEach rest (transfer node g memory).graph
          (transfer node g memory).memory).changed = (decide (k < n) && !rest.isEmpty) := by
        have called : ∀ other ∈ [node], (topology start).hasNode other = true :=
          fun other single => List.mem_singleton.mp single ▸ here
        refine ih distinct (fun other member => inside other (List.mem_cons_of_mem _ member)) ?_
          (leaves.append called)
        intro other member
        have apart : node ≠ other := fun same => absent (same ▸ member)
        rw [List.count_append, counts other (List.mem_cons_of_mem _ member),
          List.count_singleton, if_neg (by simpa using apart), Nat.add_zero]
      rw [NodeTransfer.onEach, first, later]
      cases decide (k < n) <;> rfl

end Calls

/-! ## Transfer functions that count -/

/-- Write down every call, and report a change on the first `n` on each node. -/
def firstCalls {G : Type} (n : Nat) : NodeTransfer G (List NodeId) := fun node g calls =>
  ⟨calls.count node < n, g, calls ++ [node]⟩

theorem firstCalls_onEach {G : Type} (n : Nat) (nodes : List NodeId) (g : G) (calls : List NodeId) :
    ((firstCalls n).onEach nodes g calls).graph = g ∧
      ((firstCalls n).onEach nodes g calls).memory = calls ++ nodes := by
  induction nodes generalizing calls with
  | nil => exact ⟨rfl, (List.append_nil _).symm⟩
  | cons node rest ih =>
      obtain ⟨graph, memory⟩ := ih (calls ++ [node])
      exact ⟨graph, memory.trans (List.append_assoc _ _ _)⟩

theorem firstCalls_changesFirst {G : Type} [FlowGraph G] (n : Nat) (g : G) :
    (firstCalls n).ChangesFirst n g [] where
  keeps calls h memory leaves := by
    rw [leaves.graph, (firstCalls_onEach n calls g []).1]
  reports earlier node h memory _ leaves := by
    rw [firstCalls, leaves.memory, (firstCalls_onEach n earlier g []).2, List.nil_append]

namespace Ring.Counting

/-- A node's count goes up by the calls made on it. -/
theorem state?_onEach (counting : Counting) (nodes : List NodeId) (g : VisitGraph) (node : NodeId) :
    (counting.onNode.onEach nodes g ()).graph.state? node =
      (g.state? node).map (· + nodes.count node) := by
  induction nodes generalizing g with
  | nil => simp [NodeTransfer.onEach]
  | cons called rest ih =>
      have first : (counting.onNode called g ()).graph.state? node =
          if node = called then (g.state? node).map (· + 1) else g.state? node :=
        g.state?_modifyState called node (· + 1)
      rw [NodeTransfer.onEach, ih, first]
      by_cases same : node = called
      · rw [if_pos same, same, List.count_cons_self, Option.map_map]
        exact congrArg (Option.map · _) (funext fun count => Nat.succ_add_eq_add_succ count _)
      · rw [if_neg same, List.count_cons_of_ne (Ne.symm same)]

/-- How often a node reports a change before it stops doing so. -/
def changes : Counting → Nat
  | noChange => 0
  | oneChange => 1

/-- On a graph where nothing has been counted yet. -/
theorem changesFirst (counting : Counting) {g : VisitGraph}
    (unvisited : ∀ node, g.topology.hasNode node = true → g.state? node = some 0) :
    counting.onNode.ChangesFirst counting.changes g () where
  keeps := counting.writesOwnState.keepsShape g ()
  reports earlier node h memory known leaves := by
    have counted : h.state? node = some (earlier.count node) := by
      rw [leaves.graph, state?_onEach, unvisited node known]
      exact congrArg some (Nat.zero_add _)
    cases counting with
    | noChange => rfl
    | oneChange =>
        have now : (h.modifyState node (· + 1)).state? node = some (earlier.count node + 1) := by
          rw [Graph.state?_modifyState, if_pos rfl, counted]
          rfl
        simp only [onNode, now, changes, Option.some.injEq]
        exact decide_eq_decide.mpr (by omega)

end Ring.Counting

/-! ## Whole passes -/

/-- A visit to each of these blocks, all with the same report. -/
def everywhere (blocks : List BlockId) (changed : Bool) : List Visit :=
  blocks.map fun block => ⟨block, changed⟩

/-- The blocks have nodes, and none of their nodes stands in them twice. -/
structure Topology.Passable (shape : Topology) (blocks : List BlockId) : Prop where
  full : ∀ block ∈ blocks, shape.nodes block ≠ []
  once : (blocks.flatMap shape.nodes).Nodup

theorem count_flatten_replicate {nodes : List NodeId} (nodup : nodes.Nodup) (k : Nat)
    (node : NodeId) :
    (List.replicate k nodes).flatten.count node = if node ∈ nodes then k else 0 := by
  rw [List.count_flatten, List.map_replicate, List.sum_replicate_nat, nodup.count]
  split <;> simp

theorem flatMap_flatten_replicate {α β : Type} (k : Nat) (xs : List α) (f : α → List β) :
    (List.replicate k xs).flatten.flatMap f = (List.replicate k (xs.flatMap f)).flatten := by
  induction k with
  | zero => rfl
  | succ k ih =>
      rw [List.replicate_succ, List.flatten_cons, List.flatMap_append, ih, List.replicate_succ,
        List.flatten_cons]

section Passes

variable {G σ : Type} [FlowGraph G] {transfer : NodeTransfer G σ} {n : Nat} {start : G}
  {memory₀ : σ}

/-- Blocks whose nodes have been called equally often report the same, one after the other. -/
theorem drain_uniform (uniform : transfer.ChangesFirst n start memory₀)
    (parted : (topology start).Partitioned) {k : Nat} {earlier : List NodeId}
    {queue : List BlockId} (passable : (topology start).Passable queue)
    (counts : ∀ node ∈ queue.flatMap (topology start).nodes, earlier.count node = k)
    {progress : Progress G σ}
    (leaves : transfer.Leaves start memory₀ earlier progress.graph progress.memory) :
    (drain (.ofNode transfer) queue progress).1 = everywhere queue (decide (k < n)) := by
  obtain ⟨full, once⟩ := passable
  induction queue generalizing earlier progress with
  | nil => rfl
  | cons block rest ih =>
      rw [List.flatMap_cons] at once counts
      obtain ⟨here, later, apart⟩ := List.nodup_append.mp once
      have inside := parted.inside block
      have visited := uniform.keeps.ofNode_eq leaves block
      have changed : (BlockTransfer.ofNode transfer block progress.graph progress.memory).changed =
          decide (k < n) := by
        have nonempty : ((topology start).nodes block).isEmpty = false :=
          List.isEmpty_eq_false_iff.mpr (full block List.mem_cons_self)
        rw [visited, uniform.onEach_changed here inside
          (fun node member => counts node (List.mem_append_left _ member)) leaves, nonempty]
        exact Bool.and_true _
      have others : (drain (.ofNode transfer) rest
          (progress.visit (.ofNode transfer) block).2).1 = everywhere rest (decide (k < n)) := by
        refine ih ?_ (visited ▸ leaves.append inside)
          (fun other member => full other (List.mem_cons_of_mem _ member)) later
        intro node member
        have uncalled : node ∉ (topology start).nodes block :=
          fun called => apart node called node member rfl
        rw [List.count_append, counts node (List.mem_append_right _ member),
          List.count_eq_zero.mpr uncalled, Nat.add_zero]
      rw [drain, others]
      exact congrArg (⟨block, ·⟩ :: everywhere rest (decide (k < n))) changed

/-- **Every pass but the last changes all blocks.**  After `k` passes over the whole schedule,
`left` more follow that change all its blocks, and then one that changes none. -/
theorem rounds_uniform (uniform : transfer.ChangesFirst n start memory₀)
    (parted : (topology start).Partitioned) {schedule : List BlockId}
    (passable : (topology start).Passable schedule) (nonempty : schedule ≠ [])
    (feeds : BlockId → BlockId → Prop) [DecidableRel feeds] (limit : Nat) {k left : Nat}
    (rest : k + left = n) {progress : Progress G σ}
    (leaves : transfer.Leaves start memory₀
      (List.replicate k (schedule.flatMap (topology start).nodes)).flatten progress.graph
      progress.memory) :
    let passes := rounds (.ofNode transfer) schedule feeds limit schedule progress
    (passes.converged = true ↔ left < limit) ∧
      passes.visits = (List.replicate left (everywhere schedule true) ++
        [everywhere schedule false]).take limit := by
  induction limit generalizing k left progress with
  | zero => exact ⟨iff_of_false Bool.false_ne_true (Nat.not_lt_zero _), rfl⟩
  | succ limit ih =>
      have drained : (drain (.ofNode transfer) schedule progress.beginPass).1 =
          everywhere schedule (decide (k < n)) := by
        refine drain_uniform uniform parted passable (fun node member => ?_) leaves
        rw [count_flatten_replicate passable.once, if_pos member]
      have calls : Calls (.ofNode transfer) progress.graph progress.memory _ _ _ :=
        drain_calls schedule progress.beginPass
      have after := calls.onEach uniform.keeps parted leaves
      simp only [rounds]
      generalize drain (.ofNode transfer) schedule progress.beginPass = round at drained after ⊢
      cases left with
      | zero =>
          have quiet : round.1 = everywhere schedule false := by simpa [← rest] using drained
          have calm : round.1.any (·.changed) = false := by simp [quiet, everywhere]
          rw [calm, if_neg Bool.false_ne_true, quiet]
          simp
      | succ left =>
          have busy : round.1 = everywhere schedule true := by simpa [← rest] using drained
          obtain ⟨first, others, schedule_eq⟩ := List.exists_cons_of_ne_nil nonempty
          have changed : round.1.any (·.changed) = true := by
            simp [busy, everywhere, schedule_eq]
          have again : schedule.filter (Disturbed feeds round.1) = schedule := by
            refine List.filter_eq_self.mpr fun block member => decide_eq_true ?_
            refine ⟨⟨block, true⟩, ?_, rfl, Or.inl rfl⟩
            exact busy ▸ List.mem_map_of_mem member
          rw [busy, everywhere, List.flatMap_map, ← List.flatten_concat, ← List.replicate_succ']
            at after
          obtain ⟨converged, visits⟩ := ih (by omega : (k + 1) + left = n) after
          rw [changed, if_pos rfl, again, converged, visits, busy]
          exact ⟨by omega, by rw [List.replicate_succ, List.cons_append, List.take_succ_cons]⟩

/-- Where the shape stays, the nodes visited are those of the blocks. -/
theorem nodesVisited_eq (keeps : transfer.KeepsShape start memory₀)
    (parted : (topology start).Partitioned) {earlier : List NodeId} (blocks : List BlockId) {g : G}
    {memory : σ} (leaves : transfer.Leaves start memory₀ earlier g memory) :
    nodesVisited (.ofNode transfer) blocks g memory =
      (blocks.flatMap (topology start).nodes).length := by
  induction blocks generalizing earlier g memory with
  | nil => rfl
  | cons block rest ih =>
      have here := keeps.ofNode_eq leaves block
      have later := ih (here ▸ leaves.append (parted.inside block))
      rw [nodesVisited, later, keeps earlier g memory leaves, List.flatMap_cons, List.length_append]

end Passes

/-! ## Runs -/

namespace Analysis

variable {G σ : Type} [FlowGraph G]

/-- A run in which every node changed on the first `n` calls. -/
structure VisitsUniformly (analysis : Analysis G σ) (transfer : NodeTransfer G σ) (n : Nat) (g : G)
    (run : Run G σ) : Prop where
  ending : run.ending = .converged
  /-- `n` passes over the schedule changed all its blocks, and the last one changed none. -/
  visits : run.visits = List.replicate n (everywhere (analysis.schedule g) true) ++
    [everywhere (analysis.schedule g) false]
  /-- The calls of the run, beginning with the stamped graph. -/
  calls : transfer.Leaves (analysis.stamped g) analysis.memory (run.nodeCalls (topology g)) run.graph
    run.analysis.memory
  /-- Every pass called on the scheduled nodes in schedule order, -/
  nodeCalls : run.nodeCalls (topology g) =
    (List.replicate (n + 1) (analysis.scheduledNodes g)).flatten
  /-- on each of them once. -/
  once : (analysis.scheduledNodes g).Nodup
  scheduled : ∀ node ∈ analysis.scheduledNodes g,
    (run.nodeCalls (topology g)).count node = n + 1
  others : ∀ node, node ∉ analysis.scheduledNodes g → (run.nodeCalls (topology g)).count node = 0
  statistics : run.analysis.statistics =
    { blocks := (analysis.schedule g).length
      nodes := (analysis.scheduledNodes g).length
      passes := n + 1
      blockVisits := (n + 1) * (analysis.schedule g).length
      nodeVisits := (n + 1) * (analysis.scheduledNodes g).length
      changedBlocks := n * (analysis.schedule g).length
      subgraphsEntered := run.entrances.length }

/-- The blocks of such passes are the schedule once for each of them. -/
theorem blocks_of_visits {n : Nat} {schedule : List BlockId} {visits : List (List Visit)}
    (made : visits = List.replicate n (everywhere schedule true) ++ [everywhere schedule false]) :
    visits.flatten.map (·.block) = (List.replicate (n + 1) schedule).flatten := by
  have blocks (changed : Bool) : (everywhere schedule changed).map (·.block) = schedule := by
    rw [everywhere, List.map_map]
    exact List.map_id _
  rw [made, List.map_flatten, List.map_append, List.map_replicate, List.map_singleton, blocks,
    blocks, ← List.replicate_succ']

/-- All visits but those of the last pass were changes. -/
theorem changes_of_visits {n : Nat} {schedule : List BlockId} {visits : List (List Visit)}
    (made : visits = List.replicate n (everywhere schedule true) ++ [everywhere schedule false]) :
    visits.flatten.countP (·.changed) = n * schedule.length := by
  have busy : (everywhere schedule true).countP (·.changed) = schedule.length := by
    rw [everywhere, List.countP_map]
    exact List.countP_eq_length.mpr fun _ _ => rfl
  have quiet : (everywhere schedule false).countP (·.changed) = 0 := by
    rw [everywhere, List.countP_map]
    exact List.countP_eq_zero.mpr fun _ _ => Bool.false_ne_true
  rw [made, List.countP_flatten, List.map_append, List.map_replicate, List.map_singleton, busy,
    quiet, List.sum_append_nat, List.sum_replicate_nat, List.sum_singleton, Nat.add_zero]

/-- The node calls of such passes are those of the schedule once for each of them. -/
theorem nodeCalls_of_visits (analysis : Analysis G σ) {g : G} {n : Nat} {run : Run G σ}
    (made : run.visits = List.replicate n (everywhere (analysis.schedule g) true) ++
      [everywhere (analysis.schedule g) false]) :
    run.nodeCalls (topology g) = (List.replicate (n + 1) (analysis.scheduledNodes g)).flatten := by
  rw [Run.nodeCalls, ← List.flatMap_map (fun visit : Visit => visit.block),
    blocks_of_visits made, flatMap_flatten_replicate]
  rfl

/-- The counters of such passes. -/
theorem statistics_of_visits (analysis : Analysis G σ) {transfer : NodeTransfer G σ}
    (each : analysis.transfer = .ofNode transfer) {g : G} (parted : (topology g).Partitioned)
    (calm : (analysis.numbering g).stray = none)
    (keeps : transfer.KeepsShape (analysis.stamped g) analysis.memory) {n limit : Nat}
    (made : (analysis.runBounded limit g).visits =
      List.replicate n (everywhere (analysis.schedule g) true) ++
        [everywhere (analysis.schedule g) false]) :
    (analysis.runBounded limit g).analysis.statistics =
      { blocks := (analysis.schedule g).length
        nodes := (analysis.scheduledNodes g).length
        passes := n + 1
        blockVisits := (n + 1) * (analysis.schedule g).length
        nodeVisits := (n + 1) * (analysis.scheduledNodes g).length
        changedBlocks := n * (analysis.schedule g).length
        subgraphsEntered := (analysis.runBounded limit g).entrances.length } := by
  have shape := analysis.topology_stamped g
  have counted := analysis.runBounded_statistics limit calm
  have entrances : (analysis.runBounded limit g).entrances =
      (analysis.numbering g).walker.entrances := by rw [analysis.runBounded_of_calm limit calm]
  have passes : (analysis.runBounded limit g).visits.length = n + 1 := by simp [made]
  have blocks := blocks_of_visits made
  have visited := congrArg List.length blocks
  rw [List.length_map] at visited
  have seen := nodesVisited_eq keeps (shape ▸ parted)
    (List.replicate (n + 1) (analysis.schedule g)).flatten (.nil transfer _ _)
  have numbered : (analysis.numbering g).walker.numbered.length =
      (analysis.schedule g).length := (List.length_map _).symm
  rw [counted, tally, Statistics.counting, each, passes, visited, blocks, seen,
    changes_of_visits made, entrances, flatMap_flatten_replicate, shape]
  simp [sizes, numbered, Walker.subgraphsEntered, scheduledNodes, schedule]

/-- The passes of a run are such passes, as far as its limit goes. -/
theorem passes_uniform (analysis : Analysis G σ) {transfer : NodeTransfer G σ}
    (each : analysis.transfer = .ofNode transfer) {g : G} (parted : (topology g).Partitioned)
    (nonempty : analysis.schedule g ≠ [])
    (passable : (topology g).Passable (analysis.schedule g)) {n : Nat}
    (uniform : transfer.ChangesFirst n (analysis.stamped g) analysis.memory) (limit : Nat) :
    ((analysis.passes limit g).converged = true ↔ n < limit) ∧
      (analysis.passes limit g).visits =
        (List.replicate n (everywhere (analysis.schedule g) true) ++
          [everywhere (analysis.schedule g) false]).take limit := by
  have shape := analysis.topology_stamped g
  unfold passes
  rw [each]
  exact rounds_uniform uniform (shape ▸ parted) (shape ▸ passable) nonempty _ limit
    (Nat.zero_add n) (.nil transfer _ _)

theorem runBounded_uniform (analysis : Analysis G σ) {transfer : NodeTransfer G σ}
    (each : analysis.transfer = .ofNode transfer) {g : G} (parted : (topology g).Partitioned)
    (known : (topology g).hasBlock analysis.entry = true)
    (passable : (topology g).Passable (analysis.schedule g)) {n : Nat}
    (uniform : transfer.ChangesFirst n (analysis.stamped g) analysis.memory) (limit : Nat) :
    let run := analysis.runBounded limit g
    (run.ending = .converged ↔ n + 1 ≤ limit) ∧
      (limit ≤ n → run.ending = .passLimit limit) ∧
      (n + 1 ≤ limit → analysis.VisitsUniformly transfer n g run) := by
  have calm := analysis.numbering_calm parted.toClosed known
  have nonempty : analysis.schedule g ≠ [] :=
    List.ne_nil_of_mem ((analysis.mem_schedule_iff parted.toClosed known _).mpr .refl)
  obtain ⟨converged, visits⟩ := analysis.passes_uniform each parted nonempty passable uniform limit
  have leaves := analysis.runBounded_leaves each limit calm parted uniform.keeps
  have worked := analysis.runBounded_of_calm limit calm
  have ending := (analysis.ending_eq_converged_iff limit calm).trans converged
  refine ⟨ending, fun few => ?_, fun enough => ?_⟩
  · rw [worked, if_neg (by rw [converged]; omega)]
  · have made : (analysis.runBounded limit g).visits =
        List.replicate n (everywhere (analysis.schedule g) true) ++
          [everywhere (analysis.schedule g) false] := by
      rw [worked, visits]
      exact List.take_of_length_le (by simpa using enough)
    have nodeCalls := analysis.nodeCalls_of_visits made
    constructor
    case ending => exact ending.mpr enough
    case visits => exact made
    case calls => exact leaves
    case nodeCalls => exact nodeCalls
    case once => exact passable.once
    case scheduled =>
      intro node member
      rw [nodeCalls]
      exact (count_flatten_replicate passable.once _ _).trans (if_pos member)
    case others =>
      intro node absent
      rw [nodeCalls]
      exact (count_flatten_replicate passable.once _ _).trans (if_neg absent)
    case statistics => exact analysis.statistics_of_visits each parted calm uniform.keeps made

end Analysis

namespace Graph

variable {S K σ : Type}

/-- Blocks of a coherent graph have nodes of their own. -/
theorem Coherent.passable {g : Graph S K} (coherent : g.Coherent) {blocks : List BlockId}
    (nodup : blocks.Nodup) (known : ∀ block ∈ blocks, g.topology.hasBlock block = true) :
    g.topology.Passable blocks where
  full block member := by
    obtain ⟨data, found⟩ := hasBlock_iff.mp (known block member)
    simp [Graph.topology, found, Block.nodes]
  once := by
    refine List.nodup_flatMap.mpr ⟨fun block _ => coherent.distinct block, ?_⟩
    refine nodup.imp fun {a b} apart => ?_
    exact List.disjoint_left.mpr fun node inA inB => apart (coherent.block_unique inA inB)

/-- **Nodes that change `n` times are visited `n + 1` times.**  On every graph that operations have
built and from each of its blocks, a run converges as soon as it may make `n + 1` passes, and
each of these calls once on every scheduled node and on no other. -/
theorem visits_uniform (tracks : Bool) (ops : List (Op S K)) (analysis : Analysis (Graph S K) σ)
    {transfer : NodeTransfer (Graph S K) σ} (each : analysis.transfer = .ofNode transfer)
    (known : (built tracks ops).topology.hasBlock analysis.entry = true) (n : Nat)
    (uniform : transfer.ChangesFirst n (analysis.stamped (built tracks ops)) analysis.memory)
    (limit : Nat) :
    let g := built tracks ops
    let run := analysis.runBounded limit g
    (run.ending = .converged ↔ n + 1 ≤ limit) ∧
      (limit ≤ n → run.ending = .passLimit limit) ∧
      analysis.run limit g = (if n + 1 ≤ limit then some run else none) ∧
      (n + 1 ≤ limit → analysis.VisitsUniformly transfer n g run) := by
  have coherent := built_coherent tracks ops
  generalize built tracks ops = g at *
  have passable := coherent.passable (analysis.schedule_nodup g) (analysis.schedule_hasBlock g)
  obtain ⟨converged, stopped, visits⟩ :=
    analysis.runBounded_uniform each coherent.partitioned known passable uniform limit
  refine ⟨converged, stopped, ?_, visits⟩
  obtain ⟨calm, worked⟩ := analysis.runBounded_followsWorklist limit g
  obtain ⟨-, -, -, -, answers⟩ := worked (calm coherent.closed known)
  simp only [answers, converged]

/-- Block 0 has two nodes, the second of which calls the procedure at block 2, and flows into
itself and into block 1.  Block 3 is on its own. -/
def pairWithProcedure : List (Op Unit Unit) :=
  [.addFreshBlock [(), ()], .addFreshBlock [()], .addFreshBlock [()], .addFreshBlock [()],
    .addEdge ⟨0⟩ ⟨0⟩, .addEdge ⟨0⟩ ⟨1⟩, .addSubgraph ⟨1⟩ ⟨2⟩]

/-- With two changes of every node the run takes three passes. -/
theorem pairWithProcedure_visits :
    let analysis : Analysis (Graph Unit Unit) (List NodeId) :=
      { entry := ⟨0⟩, mode := .across, transfer := .ofNode (firstCalls 2), memory := [] }
    let g : Graph Unit Unit := built false pairWithProcedure
    let run := analysis.runBounded 3 g
    g.topology.hasBlock analysis.entry = true ∧
      (firstCalls 2).ChangesFirst 2 (analysis.stamped g) analysis.memory ∧
      analysis.VisitsUniformly (firstCalls 2) 2 g run ∧
      run.analysis.memory.map (·.index) = [0, 1, 3, 2, 0, 1, 3, 2, 0, 1, 3, 2] ∧
      run.analysis.statistics = ⟨3, 4, 3, 9, 12, 6, 1⟩ := by
  have known : (built false pairWithProcedure : Graph Unit Unit).topology.hasBlock ⟨0⟩ = true := by
    decide +kernel
  obtain ⟨-, -, -, visits⟩ := visits_uniform false pairWithProcedure
    { entry := ⟨0⟩, mode := .across, transfer := .ofNode (firstCalls 2), memory := [] } rfl known 2
    (firstCalls_changesFirst 2 _) 3
  exact ⟨known, firstCalls_changesFirst 2 _, visits (by decide), by decide +kernel,
    by decide +kernel⟩

end Graph

end BlockFlow
