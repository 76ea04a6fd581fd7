/-
# BlockFlow.Proofs.Discovery -- ways of looking for calls

A traversal finds calls in the call-site caches of the blocks or by scanning their nodes, and
a graph may keep caches or not.  None of this shows in what a run does:

* two topologies by which traversals find the same calls (`LookAlike`) give the same walk and
  the same schedule, step by step;
* a transfer function that does not look at the caches (`IgnoresCaches`) does the same on
  graphs that differ in their caches only, and so does every pass over a schedule
  (`solve_alike`);
* graphs that one sequence of operations builds are such graphs, and the cache of a block lists
  what a scan of the block finds, so runs with and without a limit of their own come to the same
  (`discovery_unobservable`).
-/
import BlockFlow.Proofs.Coherence
import BlockFlow.Proofs.Runs
import BlockFlow.Proofs.Uncached
import BlockFlow.Ring.Counting

namespace BlockFlow

set_option autoImplicit false

/-! ## Walks and schedules -/

/-- Traversals of `other` that look for calls as `discovery'` says find what traversals of
`shape` find that look for them as `discovery` says. -/
structure Topology.LookAlike (shape other : Topology) (discovery discovery' : Option Discovery) :
    Prop where
  count : other.blockCount = shape.blockCount
  successors : other.successors = shape.successors
  entryBlock : other.entryBlock = shape.entryBlock
  calls : ∀ block, other.calls discovery' block = shape.calls discovery block
  strays : ∀ block, other.strayCaller? discovery' block = shape.strayCaller? discovery block

/-- The walker, looking for calls in another way. -/
def Walker.lookingBy (walker : Walker) (discovery : Option Discovery) : Walker :=
  { walker with discovery }

/-- The walk, made by a walker that looks for calls in another way. -/
def Walk.lookingBy (walk : Walk) (discovery : Option Discovery) : Walk :=
  { walk with walker := walk.walker.lookingBy discovery }

section LookAlike

variable {shape other : Topology} {discovery discovery' : Option Discovery}
  (alike : shape.LookAlike other discovery discovery')

include alike

theorem Walker.onward_alike {walker : Walker} (how : walker.discovery = discovery)
    (block scope : BlockId) :
    (walker.lookingBy discovery').onward other block scope = walker.onward shape block scope := by
  unfold onward
  rw [alike.successors, alike.entryBlock, how]
  show List.map _ (other.calls discovery' block) ++ _ = _
  rw [alike.calls]

/-- Every round of a walk numbers the same block and leads to the same blocks. -/
theorem Walker.walk_alike (budget : Nat) (pending : List Pending) {walker : Walker}
    (how : walker.discovery = discovery) :
    walk other budget pending (walker.lookingBy discovery') =
      (walk shape budget pending walker).lookingBy discovery' := by
  induction budget generalizing pending walker with
  | zero => rfl
  | succ budget ih =>
      have same : ∀ visit : Pending, (walker.lookingBy discovery').isVisited visit.block =
        walker.isVisited visit.block := fun _ => rfl
      unfold walk
      simp only [same]
      cases pending.dropWhile fun visit => walker.isVisited visit.block with
      | nil => rfl
      | cons visit rest =>
          have known : other.hasBlock visit.block = shape.hasBlock visit.block := by
            rw [Topology.hasBlock, Topology.hasBlock, alike.count]
          have stray : other.strayCaller? (walker.lookingBy discovery').discovery visit.block =
              shape.strayCaller? walker.discovery visit.block := by
            rw [how]
            exact alike.strays visit.block
          simp only [known, stray]
          by_cases here : shape.hasBlock visit.block = true
          · rw [if_pos here, if_pos here]
            cases shape.strayCaller? walker.discovery visit.block with
            | some node => rfl
            | none =>
                dsimp only
                rw [onward_alike alike how]
                exact @ih (walker.onward shape visit.block visit.scope ++ rest)
                  ((walker.enter visit).number visit) how
          · rw [if_neg here, if_neg here]
            rfl

theorem Walker.explore_alike {walker : Walker} (how : walker.discovery = discovery)
    (entry : BlockId) :
    (walker.lookingBy discovery').explore other entry =
      (walker.explore shape entry).lookingBy discovery' := by
  unfold explore
  rw [alike.count]
  exact walk_alike alike _ _ how

theorem Schedule.ofWalker_alike {walker : Walker} (how : walker.discovery = discovery) :
    ofWalker other (walker.lookingBy discovery') = ofWalker shape walker := by
  have entries : ∀ block, calleeEntries other discovery' block =
      calleeEntries shape walker.discovery block := by
    intro block
    rw [calleeEntries, calleeEntries, alike.calls, alike.entryBlock, how]
  have table : callTable other discovery' walker.blocks =
      callTable shape walker.discovery walker.blocks := by
    unfold callTable
    simp only [entries]
  refine List.map_congr_left fun item _ => ?_
  show Slot.mk item.block (dependents other discovery' walker.blocks
    (callTable other discovery' walker.blocks) item) = _
  rw [table, dependents, dependents, entries, alike.successors]

end LookAlike

/-! ## Graphs that differ in their caches -/

namespace Graph

variable {S K : Type}

/-- Graphs that differ in their caches have topologies that differ in their caches. -/
theorem topology_of_uncached_eq {g h : Graph S K} (same : h.uncached = g.uncached) :
    h.topology = { g.topology with callSites := h.topology.callSites } := by
  have shapes := congrArg topology same
  rw [topology_uncached, topology_uncached] at shapes
  have restored := congrArg (fun shape : Topology =>
    { shape with callSites := h.topology.callSites }) shapes
  exact restored

theorem nodes_of_uncached_eq {g h : Graph S K} (same : h.uncached = g.uncached) :
    h.topology.nodes = g.topology.nodes := by
  rw [topology_of_uncached_eq same]

theorem state?_of_uncached_eq {g h : Graph S K} (same : h.uncached = g.uncached) (node : NodeId) :
    h.state? node = g.state? node := by
  have nodes := congrArg Graph.nodes same
  exact congrArg (fun nodes : Array (Node S K) => nodes[node.index]?.map (·.state)) nodes

theorem order_of_uncached_eq {g h : Graph S K} (same : h.uncached = g.uncached) (block : BlockId) :
    h.order block = g.order block := by
  rw [← order_uncached h, ← order_uncached g, same]

theorem uncached_stamp (next : Nat) (blocks : List BlockId) (g : Graph S K) :
    (FlowGraph.stamp next blocks g).uncached = FlowGraph.stamp next blocks g.uncached := by
  induction blocks generalizing next g with
  | nil => rfl
  | cons block rest ih =>
      have later := ih (next + 1) (g.setOrder block next)
      rw [uncached_setOrder] at later
      exact later

namespace Coherent

variable {g h : Graph S K}

/-- The call sites of a coherent graph are nodes of the graph. -/
theorem strayCaller?_eq_none (coherent : g.Coherent) (discovery : Option Discovery)
    (block : BlockId) : g.topology.strayCaller? discovery block = none := by
  cases discovery with
  | none => rfl
  | some how =>
      refine List.find?_eq_none.mpr fun node site => ?_
      simp [coherent.node block node (coherent.mem_nodes_of_mem_sites site)]

/-- Every way of looking for calls finds the same on all coherent graphs that differ in their
caches only. -/
theorem callees_of_uncached_eq (coherent : g.Coherent) (coherent' : h.Coherent)
    (same : h.uncached = g.uncached) (how how' : Discovery) (block : BlockId) :
    h.topology.callees how' block = g.topology.callees how block := by
  rw [coherent'.callees_eq, coherent.callees_eq, topology_of_uncached_eq same]

theorem lookAlike (coherent : g.Coherent) (coherent' : h.Coherent)
    (same : h.uncached = g.uncached) {discovery discovery' : Option Discovery}
    (both : discovery'.isSome = discovery.isSome) :
    g.topology.LookAlike h.topology discovery discovery' where
  count := by rw [topology_of_uncached_eq same]
  successors := by rw [topology_of_uncached_eq same]
  entryBlock := by rw [topology_of_uncached_eq same]
  calls block := by
    cases discovery <;> cases discovery' <;> try cases both
    · rfl
    · exact coherent.callees_of_uncached_eq coherent' same _ _ block
  strays block := by rw [coherent.strayCaller?_eq_none, coherent'.strayCaller?_eq_none]

end Coherent

end Graph

/-! ## Transfer functions that do not look -/

open BlockFlow.Graph

variable {S K σ : Type}

/-- The two report the same, remember the same and left the same graph, but for its caches. -/
structure Effect.Alike (first second : Effect (Graph S K) σ) : Prop where
  changed : second.changed = first.changed
  graph : second.graph.uncached = first.graph.uncached
  memory : second.memory = first.memory

/-- The transfer function does the same to graphs that are the same but for their caches. -/
def IgnoresCaches {ι : Type} (transfer : ι → Graph S K → σ → Effect (Graph S K) σ) : Prop :=
  ∀ item (g h : Graph S K) memory, h.uncached = g.uncached →
    (transfer item g memory).Alike (transfer item h memory)

namespace IgnoresCaches

theorem onEach {transfer : NodeTransfer (Graph S K) σ} (ignores : IgnoresCaches transfer) :
    IgnoresCaches transfer.onEach := by
  intro nodes
  induction nodes with
  | nil => exact fun g h memory same => ⟨rfl, same, rfl⟩
  | cons node rest ih =>
      intro g h memory same
      have first := ignores node g h memory same
      have others := ih _ _ (transfer node g memory).memory first.graph
      simp only [NodeTransfer.onEach, first.changed, first.memory]
      exact ⟨congrArg ((transfer node g memory).changed || ·) others.changed, others.graph,
        others.memory⟩

/-- A block transfer function made of one for nodes ignores what that one ignores. -/
theorem ofNode {transfer : NodeTransfer (Graph S K) σ} (ignores : IgnoresCaches transfer) :
    IgnoresCaches (BlockTransfer.ofNode transfer) := by
  intro block g h memory same
  have every := ignores.onEach (g.topology.nodes block) g h memory same
  show Effect.Alike _ (transfer.onEach (h.topology.nodes block) h memory)
  rw [nodes_of_uncached_eq same]
  exact every

end IgnoresCaches

/-- Counting visits takes no look at the caches. -/
theorem Ring.Counting.ignoresCaches (counting : Ring.Counting) :
    IgnoresCaches counting.onNode := by
  intro node g h _ same
  have counted : (h.modifyState node (· + 1)).uncached = (g.modifyState node (· + 1)).uncached :=
    congrArg (fun g : Ring.VisitGraph => g.modifyState node (· + 1)) same
  have state := state?_of_uncached_eq counted node
  constructor
  case changed =>
    cases counting with
    | noChange => rfl
    | oneChange =>
        simp only [Ring.Counting.onNode]
        rw [state]
  case graph => exact counted
  case memory => rfl

/-! ## Runs -/

/-- Two states of a run that are the same but for the caches of the graph. -/
structure Progress.Alike (first second : Progress (Graph S K) σ) : Prop where
  graph : second.graph.uncached = first.graph.uncached
  memory : second.memory = first.memory
  statistics : second.statistics = first.statistics

/-- Two runs that are the same but for the caches of the graph. -/
structure Run.Alike (first second : Run (Graph S K) σ) : Prop where
  ending : second.ending = first.ending
  entrances : second.entrances = first.entrances
  visits : second.visits = first.visits
  graph : second.graph.uncached = first.graph.uncached
  memory : second.analysis.memory = first.analysis.memory
  statistics : second.analysis.statistics = first.analysis.statistics

section Alike

variable {transfer : BlockTransfer (Graph S K) σ} (ignores : IgnoresCaches transfer)
  {first second : Progress (Graph S K) σ}

include ignores

/-- One visit does the same on both sides. -/
theorem Progress.visit_alike (alike : first.Alike second) (block : BlockId) :
    (second.visit transfer block).1 = (first.visit transfer block).1 ∧
      (first.visit transfer block).2.Alike (second.visit transfer block).2 := by
  have effect := ignores block first.graph second.graph first.memory alike.graph
  have nodes : (FlowGraph.topology second.graph).nodes = (FlowGraph.topology first.graph).nodes :=
    nodes_of_uncached_eq alike.graph
  simp only [Progress.visit, alike.memory, alike.statistics, nodes, effect.changed, true_and]
  exact ⟨effect.graph, effect.memory, rfl⟩

theorem sweep_alike (marked : Marks) (pos : Nat) (slots : List Slot) (next : Marks)
    (alike : first.Alike second) :
    (sweep transfer marked pos slots next second).visits =
        (sweep transfer marked pos slots next first).visits ∧
      (sweep transfer marked pos slots next second).marks =
        (sweep transfer marked pos slots next first).marks ∧
      (sweep transfer marked pos slots next first).progress.Alike
        (sweep transfer marked pos slots next second).progress := by
  induction slots generalizing pos next first second with
  | nil => exact ⟨rfl, rfl, alike⟩
  | cons slot rest ih =>
      obtain ⟨same, after⟩ := Progress.visit_alike ignores alike slot.block
      unfold sweep
      split
      · simp only [same]
        obtain ⟨visits, marks, progress⟩ := ih (pos + 1)
          (if (first.visit transfer slot.block).1.changed then next.addAll (pos :: slot.dependents)
            else next) after
        exact ⟨congrArg _ visits, marks, progress⟩
      · exact ih (pos + 1) next alike

/-- All passes do the same on both sides. -/
theorem solve_alike (slots : List Slot) (limit : Nat) (marked : Marks)
    (alike : first.Alike second) :
    (solve transfer slots limit marked second).converged =
        (solve transfer slots limit marked first).converged ∧
      (solve transfer slots limit marked second).visits =
        (solve transfer slots limit marked first).visits ∧
      (solve transfer slots limit marked first).progress.Alike
        (solve transfer slots limit marked second).progress := by
  induction limit generalizing marked first second with
  | zero => exact ⟨rfl, rfl, alike⟩
  | succ limit ih =>
      have begun : first.beginPass.Alike second.beginPass :=
        ⟨alike.graph, alike.memory, by simp only [Progress.beginPass, alike.statistics]⟩
      have round := sweep_alike ignores marked 0 slots (Marks.blank slots.length) begun
      simp only [solve]
      generalize sweep transfer marked 0 slots (Marks.blank slots.length) first.beginPass = pass
        at round ⊢
      generalize sweep transfer marked 0 slots (Marks.blank slots.length) second.beginPass = pass'
        at round ⊢
      obtain ⟨visits, marks, progress⟩ := round
      have changed : pass'.changed = pass.changed := by rw [Pass.changed, visits, Pass.changed]
      rw [changed, visits, marks]
      by_cases busy : pass.changed = true
      · simp only [busy, if_true]
        obtain ⟨converged, later, last⟩ := ih pass.marks progress
        exact ⟨converged, congrArg (pass.visits :: ·) later, last⟩
      · simp only [busy, Bool.false_eq_true, if_false]
        exact ⟨trivial, trivial, progress⟩

end Alike

namespace Analysis

/-- The same analysis, made to scan for calls or to look in the caches. -/
def scanning {G : Type} (analysis : Analysis G σ) (scans : Bool) : Analysis G σ :=
  { analysis with mode := { analysis.mode with scansNodes := scans } }

theorem discovery_scanning {G : Type} (analysis : Analysis G σ) (scans : Bool) :
    (analysis.scanning scans).mode.discovery.isSome = analysis.mode.discovery.isSome := by
  unfold scanning Mode.discovery
  split <;> rfl

variable {g h : Graph S K} (analysis : Analysis (Graph S K) σ) (scans : Bool)
  (coherent : g.Coherent) (coherent' : h.Coherent) (same : h.uncached = g.uncached)

include coherent coherent' same

theorem numbering_alike :
    (analysis.scanning scans).numbering h =
      (analysis.numbering g).lookingBy (analysis.scanning scans).mode.discovery := by
  have alike := coherent.lookAlike coherent' same (analysis.discovery_scanning scans)
  exact @Walker.explore_alike _ _ _ _ alike (Walker.fresh analysis.mode) rfl analysis.entry

theorem start_alike : (analysis.start g).Alike ((analysis.scanning scans).start h) := by
  have numbering := analysis.numbering_alike scans coherent coherent' same
  have schedule : (analysis.scanning scans).schedule h = analysis.schedule g := by
    rw [schedule, numbering]
    rfl
  have stamped : ((analysis.scanning scans).stamped h).uncached = (analysis.stamped g).uncached := by
    rw [Analysis.stamped, Analysis.stamped, schedule, uncached_stamp, uncached_stamp]
    show FlowGraph.stamp 1 _ h.clearOrders.uncached = FlowGraph.stamp 1 _ g.clearOrders.uncached
    rw [uncached_clearOrders, uncached_clearOrders, same]
  constructor
  case graph => exact stamped
  case memory => rfl
  case statistics =>
    have nodes : (FlowGraph.topology ((analysis.scanning scans).stamped h)).nodes =
        (FlowGraph.topology (analysis.stamped g)).nodes := nodes_of_uncached_eq stamped
    show sizes _ _ = sizes _ _
    rw [sizes, sizes, nodes, numbering]
    rfl

/-- A run of the scanning analysis is the run of the other, but for the caches of the graph. -/
theorem runBounded_alike (ignores : IgnoresCaches analysis.transfer) (limit : Nat) :
    (analysis.runBounded limit g).Alike ((analysis.scanning scans).runBounded limit h) := by
  have start := analysis.start_alike scans coherent coherent' same
  have numbering := analysis.numbering_alike scans coherent coherent' same
  have alike := coherent.lookAlike coherent' same (analysis.discovery_scanning scans)
  have discovery : (analysis.numbering g).walker.discovery = analysis.mode.discovery :=
    Walker.explore_discovery ..
  have slots : Schedule.ofWalker (FlowGraph.topology h)
      ((analysis.scanning scans).numbering h).walker =
        Schedule.ofWalker (FlowGraph.topology g) (analysis.numbering g).walker := by
    rw [numbering]
    exact Schedule.ofWalker_alike alike discovery
  have entrances : ((analysis.scanning scans).numbering h).walker.entrances =
      (analysis.numbering g).walker.entrances := by
    rw [numbering]
    rfl
  have stray : ((analysis.scanning scans).numbering h).stray = (analysis.numbering g).stray := by
    rw [numbering]
    rfl
  rw [runBounded_eq, runBounded_eq, stray, slots, entrances]
  cases (analysis.numbering g).stray with
  | some what => exact ⟨rfl, rfl, rfl, start.graph, rfl, rfl⟩
  | none =>
      obtain ⟨converged, visits, progress⟩ := solve_alike ignores
        (Schedule.ofWalker (FlowGraph.topology g) (analysis.numbering g).walker) limit
        (Marks.full _) start
      have ending := congrArg
        (fun ended => if ended = true then Ending.converged else .passLimit limit) converged
      exact ⟨ending, rfl, visits, progress.graph, progress.memory, progress.statistics⟩

omit coherent coherent' same in
/-- Runs without a limit of their own answer both or not at all, and answer alike. -/
theorem run_alike (limit : Nat)
    (alike : (analysis.runBounded limit g).Alike ((analysis.scanning scans).runBounded limit h)) :
    Option.Rel Run.Alike (analysis.run limit g) ((analysis.scanning scans).run limit h) := by
  simp only [run, alike.ending]
  split
  · exact .none
  · exact .some alike

end Analysis

/-! ## Graphs built by operations -/

/-- **Ways of looking for calls cannot be told apart.**  Built with caches or without, a graph is
the same but for them, and looked at in either way a block calls the subgraphs of its nodes in
block order.  So runs that ignore the caches themselves number the same blocks in the same
scopes, make the same visits, leave the same stamps and states and end the same, whether they
scan for calls or look in the caches. -/
theorem Graph.discovery_unobservable (ops : List (Op S K)) (tracks tracks' : Bool) :
    let g : Graph S K := built tracks ops
    let h : Graph S K := built tracks' ops
    h.uncached = g.uncached ∧
      (∀ how block, g.topology.callees how block =
        (g.topology.nodes block).flatMap g.topology.subgraphs) ∧
      (∀ how how' block, h.topology.callees how' block = g.topology.callees how block) ∧
      ∀ (analysis : Analysis (Graph S K) σ), IgnoresCaches analysis.transfer →
        ∀ (scans : Bool) (limit : Nat),
          let first := analysis.runBounded limit g
          let second := (analysis.scanning scans).runBounded limit h
          ((analysis.scanning scans).numbering h).walker.numbered =
              (analysis.numbering g).walker.numbered ∧
            first.Alike second ∧
            (∀ block, second.graph.order block = first.graph.order block) ∧
            (∀ node, second.graph.state? node = first.graph.state? node) ∧
            Option.Rel Run.Alike (analysis.run limit g) ((analysis.scanning scans).run limit h) := by
  have coherent := built_coherent tracks ops
  have coherent' := built_coherent tracks' ops
  have same := (uncached_built tracks' ops).trans (uncached_built tracks ops).symm
  refine ⟨same, coherent.callees_eq, coherent.callees_of_uncached_eq coherent' same,
    fun analysis ignores scans limit => ?_⟩
  have numbering := analysis.numbering_alike scans coherent coherent' same
  have alike := analysis.runBounded_alike scans coherent coherent' same ignores limit
  refine ⟨?_, alike, order_of_uncached_eq alike.graph, state?_of_uncached_eq alike.graph,
    analysis.run_alike scans limit alike⟩
  rw [numbering]
  rfl

/-- The second node of block 0 is given a procedure to call before the first is. -/
def attachedInReverse : List (Op Nat Nat) :=
  [.addFreshBlock [0, 0], .addFreshBlock [0], .addFreshBlock [0], .addSubgraph ⟨1⟩ ⟨2⟩,
    .addSubgraph ⟨0⟩ ⟨1⟩]

/-- Count visits, following calls through the caches. -/
def countingCalls : Analysis Ring.VisitGraph Unit where
  entry := ⟨0⟩
  mode := .across
  transfer := .ofNode Ring.Counting.oneChange.onNode
  memory := ()

/-- The cache lists the calls in block order all the same. -/
theorem attachedInReverse_alike :
    let cached : Graph Nat Nat := built true attachedInReverse
    let first := countingCalls.runBounded 3 cached
    let second := (countingCalls.scanning true).runBounded 3 (built false attachedInReverse)
    cached.topology.callees .cache ⟨0⟩ = [⟨1⟩, ⟨0⟩] ∧ first.Alike second ∧
      first.visits.map (·.map (·.block.index)) = [[0, 1, 2], [0, 1, 2]] := by
  obtain ⟨-, -, callees, runs⟩ := @discovery_unobservable Nat Nat Unit attachedInReverse true false
  obtain ⟨-, alike, -⟩ := runs countingCalls (Ring.Counting.ignoresCaches _).ofNode true 3
  refine ⟨?_, alike, ?_⟩
  · -- sorting does not compute, scanning does
    rw [← callees .cache .scan ⟨0⟩]
    decide +kernel
  · rw [← alike.visits]
    decide +kernel

end BlockFlow
