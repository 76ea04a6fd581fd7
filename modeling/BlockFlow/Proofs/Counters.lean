/-
# BlockFlow.Proofs.Counters -- the counters of a run count what was called

The visits of a run are its log: each is a call of the transfer function on a block, with the report
it made (`Calls`).  Where the blocks are run node by node there is a log of the calls on nodes too,
one part of it for each visit (`NodeCalls`, `Calls.nodeCalls`).  The counters that a run keeps are
read off these logs (`Analysis.Counted`, `Analysis.CountedByNode`), whether it converged or was
stopped.

How large they can be follows from the worklist.  The first pass visits the schedule and the others
visit some of it in order, so whatever is summed over all visits lies between the sum over the
schedule and as many times that sum as there are passes (`FollowsWorklist.sum_bounds`, for blocks
with weight 1 and for nodes with the lengths of the node lists).  And every pass but the last of a
converged run has a change (`FollowsWorklist.changes_bounds`).
-/
import BlockFlow.Proofs.NodeCalls
import Mathlib.Algebra.Order.BigOperators.Group.List
import Mathlib.Algebra.Order.Ring.Nat

namespace BlockFlow

set_option autoImplicit false

open FlowGraph (topology)

/-! ## How many visits and changes there can be -/

section Bounds

/-- Numbers that lie between two bounds, added up. -/
theorem sum_bounds_of_forall {numbers : List Nat} {low high : Nat}
    (between : ∀ n ∈ numbers, low ≤ n ∧ n ≤ high) :
    numbers.length * low ≤ numbers.sum ∧ numbers.sum ≤ numbers.length * high :=
  ⟨List.card_nsmul_le_sum numbers low fun n member => (between n member).1,
    List.sum_le_card_nsmul numbers high fun n member => (between n member).2⟩

variable {schedule : List BlockId} {feeds : BlockId → BlockId → Prop} [DecidableRel feeds]
  {limit : Nat} {converged : Prop} {passes : List (List Visit)}

namespace FollowsWorklist

variable (follows : FollowsWorklist schedule feeds schedule limit converged passes)

include follows

/-- Every pass visits some of the schedule, in order. -/
theorem sublist : ∀ pass ∈ passes, (pass.map (·.block)).Sublist schedule := by
  intro pass listed
  obtain ⟨k, found⟩ := List.getElem?_of_mem listed
  cases k with
  | zero =>
      rw [follows.first pass found]
  | succ k =>
      have bound := (List.getElem?_eq_some_iff.mp found).1
      have before := List.getElem?_eq_getElem (Nat.lt_of_succ_lt bound)
      rw [follows.next k _ pass before found]
      exact List.filter_sublist

/-- What is summed over the visits is at least the sum over the schedule, and at most that sum once
for every pass. -/
theorem sum_bounds (weight : BlockId → Nat) (made : passes ≠ []) :
    (schedule.map weight).sum ≤ (passes.flatten.map fun visit => weight visit.block).sum ∧
      (passes.flatten.map fun visit => weight visit.block).sum ≤
        passes.length * (schedule.map weight).sum := by
  have first := follows.first
  have each := follows.sublist
  clear follows
  constructor
  · obtain ⟨pass, later, rfl⟩ := List.exists_cons_of_ne_nil made
    rw [← first pass rfl, List.map_map, List.flatten_cons, List.map_append, List.sum_append]
    exact Nat.le_add_right _ _
  · have within : ∀ n ∈ passes.map fun pass => (pass.map fun visit => weight visit.block).sum,
        0 ≤ n ∧ n ≤ (schedule.map weight).sum := by
      intro n member
      obtain ⟨pass, listed, rfl⟩ := List.mem_map.mp member
      have part := ((each pass listed).map weight).sum_le_sum fun _ _ => Nat.zero_le _
      rw [List.map_map] at part
      exact ⟨Nat.zero_le _, part⟩
    have bound := (sum_bounds_of_forall within).2
    rw [List.length_map] at bound
    rwa [List.map_flatten, List.sum_flatten, List.map_map]

/-- Every pass of a converged run but the last has a change, and no pass has more of them than there
are blocks. -/
theorem changes_bounds (done : converged) :
    passes.length - 1 ≤ passes.flatten.countP (·.changed) ∧
      passes.flatten.countP (·.changed) ≤ (passes.length - 1) * schedule.length := by
  obtain ⟨earlier, last, rfl⟩ := (List.eq_nil_or_concat' passes).resolve_left (follows.settled done)
  have ended : ∀ k pass, (earlier ++ [last])[k]? = some pass →
      ((∀ visit ∈ pass, visit.changed = false) ↔ k = earlier.length) := by
    intro k pass found
    have quiet := follows.quiet k pass found
    simpa [done] using quiet
  have calm : last.countP (·.changed) = 0 := by
    have quiet := (ended earlier.length last (by simp)).mpr rfl
    rw [List.countP_eq_zero]
    intro visit made
    simp [quiet visit made]
  have busy : ∀ n ∈ earlier.map (List.countP (·.changed)), 1 ≤ n ∧ n ≤ schedule.length := by
    intro n member
    obtain ⟨pass, listed, rfl⟩ := List.mem_map.mp member
    obtain ⟨k, found⟩ := List.getElem?_of_mem listed
    have bound := (List.getElem?_eq_some_iff.mp found).1
    have within := (follows.sublist pass (List.mem_append_left _ listed)).length_le
    rw [List.length_map] at within
    refine ⟨Nat.one_le_iff_ne_zero.mpr fun none => ?_, List.countP_le_length.trans within⟩
    have quiet := (ended k pass ((List.getElem?_append_left bound).trans found)).mp
      (by simpa using none)
    omega
  obtain ⟨least, most⟩ := sum_bounds_of_forall busy
  rw [List.length_map] at least most
  rw [List.flatten_append, List.countP_append, List.countP_flatten, List.flatten_singleton, calm,
    List.length_append, List.length_singleton, Nat.add_sub_cancel, Nat.add_zero]
  exact ⟨by omega, most⟩

end FollowsWorklist

end Bounds

/-! ## Transfer functions that leave the shape alone -/

section Shape

variable {G σ : Type} [FlowGraph G] {transfer : BlockTransfer G σ} {blocks : List BlockId}

/-- However often it is called on these blocks, beginning from this graph and memory, the transfer
function leaves the shape of the graph alone. -/
def BlockTransfer.KeepsShape (transfer : BlockTransfer G σ) (blocks : List BlockId) (start : G)
    (memory₀ : σ) : Prop :=
  ∀ visits g memory, (∀ visit ∈ visits, visit.block ∈ blocks) →
    Calls transfer start memory₀ visits g memory → topology g = topology start

namespace BlockTransfer.KeepsShape

/-- It is enough that no call changes the shape of a graph. -/
theorem of_calls (keeps : ∀ block g memory, topology (transfer block g memory).graph = topology g)
    (blocks : List BlockId) (start : G) (memory₀ : σ) : transfer.KeepsShape blocks start memory₀ := by
  intro visits g memory inside calls
  clear inside
  induction calls with
  | nil => rfl
  | cons _ ih => exact ih.trans (keeps ..)

/-- One call leaves the shape alone, and so do all calls after it. -/
theorem step {g : G} {memory : σ} (keeps : transfer.KeepsShape blocks g memory) {block : BlockId}
    (here : block ∈ blocks) :
    topology (transfer block g memory).graph = topology g ∧
      transfer.KeepsShape blocks (transfer block g memory).graph (transfer block g memory).memory := by
  have single : Calls transfer g memory [⟨block, (transfer block g memory).changed⟩] _ _ :=
    .cons (.nil _ _)
  have first : topology (transfer block g memory).graph = topology g :=
    keeps _ _ _ (by simpa using here) single
  refine ⟨first, fun visits h memory' inside calls => ?_⟩
  exact (keeps _ h memory' (by simpa using ⟨here, inside⟩) (.cons calls)).trans first.symm

end BlockTransfer.KeepsShape

/-- Where the shape stays, every visit counts the nodes that its block has at the start. -/
theorem Calls.nodesVisited_eq {shape : Topology} {g h : G} {memory memory' : σ} {visits : List Visit}
    (calls : Calls transfer g memory visits h memory') (here : topology g = shape)
    (keeps : transfer.KeepsShape blocks g memory) (inside : ∀ visit ∈ visits, visit.block ∈ blocks) :
    nodesVisited transfer (visits.map (·.block)) g memory =
      (visits.map fun visit => (shape.nodes visit.block).length).sum := by
  induction calls with
  | nil => rfl
  | cons _ ih =>
      obtain ⟨known, inside⟩ := List.forall_mem_cons.mp inside
      obtain ⟨same, keeps⟩ := keeps.step known
      rw [List.map_cons, nodesVisited, ih (same.trans here) keeps inside, here, List.map_cons,
        List.sum_cons]

end Shape

/-! ## Calls on nodes -/

/-- A call of a transfer function on a node, and whether it reported a change. -/
structure NodeCall where
  node : NodeId
  changed : Bool
deriving DecidableEq

section NodeLog

variable {G σ : Type} {transfer : NodeTransfer G σ}

/-- Calling `transfer` on these nodes in turn, from one graph and memory on, makes these reports and
ends in the other graph and memory. -/
inductive NodeCalls (transfer : NodeTransfer G σ) : G → σ → List NodeCall → G → σ → Prop
  | nil (g : G) (memory : σ) : NodeCalls transfer g memory [] g memory
  | cons {g : G} {memory : σ} {node : NodeId} {calls : List NodeCall} {g' : G} {memory' : σ}
      (later : NodeCalls transfer (transfer node g memory).graph (transfer node g memory).memory
        calls g' memory') :
      NodeCalls transfer g memory (⟨node, (transfer node g memory).changed⟩ :: calls) g' memory'

theorem NodeCalls.append {g h k : G} {memory memory' memory'' : σ} {calls others : List NodeCall}
    (first : NodeCalls transfer g memory calls h memory')
    (second : NodeCalls transfer h memory' others k memory'') :
    NodeCalls transfer g memory (calls ++ others) k memory'' := by
  induction first with
  | nil => exact second
  | cons _ ih => exact .cons (ih second)

/-- Running nodes in order calls on each of them, and reports a change when one of the calls does. -/
theorem NodeTransfer.onEach_nodeCalls (transfer : NodeTransfer G σ) (nodes : List NodeId) (g : G)
    (memory : σ) :
    ∃ calls, NodeCalls transfer g memory calls (transfer.onEach nodes g memory).graph
        (transfer.onEach nodes g memory).memory ∧
      calls.map (·.node) = nodes ∧
      (transfer.onEach nodes g memory).changed = calls.any (·.changed) := by
  induction nodes generalizing g memory with
  | nil => exact ⟨[], .nil _ _, rfl, rfl⟩
  | cons node rest ih =>
      obtain ⟨calls, made, nodes, reported⟩ := ih (transfer node g memory).graph
        (transfer node g memory).memory
      exact ⟨_, .cons made, congrArg (node :: ·) nodes, congrArg (_ || ·) reported⟩

/-- The calls that a visit makes when its block is run node by node. -/
structure Visit.MadeOf (visit : Visit) (shape : Topology) (calls : List NodeCall) : Prop where
  /-- Every node of the block is called on once, in order. -/
  nodes : calls.map (·.node) = shape.nodes visit.block
  /-- The visit reports a change when one of the nodes does. -/
  changed : visit.changed = calls.any (·.changed)

variable [FlowGraph G] {blocks : List BlockId}

/-- **The log of a run, node by node.** -/
theorem Calls.nodeCalls {shape : Topology} {g h : G} {memory memory' : σ} {visits : List Visit}
    (calls : Calls (.ofNode transfer) g memory visits h memory') (here : topology g = shape)
    (keeps : (BlockTransfer.ofNode transfer).KeepsShape blocks g memory)
    (inside : ∀ visit ∈ visits, visit.block ∈ blocks) :
    ∃ log : List (List NodeCall), NodeCalls transfer g memory log.flatten h memory' ∧
      List.Forall₂ (Visit.MadeOf · shape ·) visits log := by
  induction calls with
  | nil => exact ⟨[], .nil _ _, .nil⟩
  | @cons g memory block visits h memory' _ ih =>
      obtain ⟨known, inside⟩ := List.forall_mem_cons.mp inside
      obtain ⟨same, keeps⟩ := keeps.step known
      obtain ⟨log, made, parts⟩ := ih (same.trans here) keeps inside
      obtain ⟨first, calls, nodes, reported⟩ :=
        transfer.onEach_nodeCalls ((topology g).nodes block) g memory
      exact ⟨first :: log, calls.append made, .cons ⟨here ▸ nodes, reported⟩ parts⟩

/-- As many node calls are logged as the visited blocks have nodes. -/
theorem length_log {shape : Topology} {visits : List Visit} {log : List (List NodeCall)}
    (parts : List.Forall₂ (Visit.MadeOf · shape ·) visits log) :
    log.flatten.length = (visits.map fun visit => (shape.nodes visit.block).length).sum := by
  induction parts with
  | nil => rfl
  | @cons visit calls _ _ made _ ih =>
      have length := congrArg List.length made.nodes
      rw [List.length_map] at length
      rw [List.flatten_cons, List.length_append, ih, length, List.map_cons, List.sum_cons]

/-- As many visits report a change as there are visits in which a node does. -/
theorem countP_log {shape : Topology} {visits : List Visit} {log : List (List NodeCall)}
    (parts : List.Forall₂ (Visit.MadeOf · shape ·) visits log) :
    visits.countP (·.changed) = log.countP fun calls => calls.any (·.changed) := by
  induction parts with
  | nil => rfl
  | cons made _ ih => rw [List.countP_cons, List.countP_cons, ih, made.changed]

end NodeLog

/-! ## The counters of a run -/

namespace Analysis

variable {G σ : Type} [FlowGraph G]

/-- What the counters that a run has kept say of the run. -/
structure Counted (analysis : Analysis G σ) (g : G) (limit : Nat) (run : Run G σ) : Prop where
  /-- A run that is not stopped is the answer, with these counters. -/
  answer : analysis.run limit g = if run.ending = .converged then some run else none
  /-- A run that is stopped has made, and counted, the passes that it was allowed. -/
  ended : run.ending = .converged ∨
    run.ending = .passLimit limit ∧ run.analysis.statistics.passes = limit
  /-- The visits are the calls of the transfer function in turn, with their reports. -/
  calls : Calls analysis.transfer (analysis.stamped g) analysis.memory run.visits.flatten run.graph
    run.analysis.memory
  distinct : (analysis.schedule g).Nodup
  blocks : run.analysis.statistics.blocks = (analysis.schedule g).length
  nodes : run.analysis.statistics.nodes =
    ((analysis.schedule g).map fun block => ((topology g).nodes block).length).sum
  passes : run.analysis.statistics.passes = run.visits.length
  blockVisits : run.analysis.statistics.blockVisits = run.visits.flatten.length
  changedBlocks : run.analysis.statistics.changedBlocks = run.visits.flatten.countP (·.changed)
  nodeVisits : run.analysis.statistics.nodeVisits =
    (run.visits.flatten.map fun visit => ((topology g).nodes visit.block).length).sum
  blockBounds : 1 ≤ run.analysis.statistics.passes →
    run.analysis.statistics.blocks ≤ run.analysis.statistics.blockVisits ∧
      run.analysis.statistics.blockVisits ≤
        run.analysis.statistics.passes * run.analysis.statistics.blocks
  nodeBounds : 1 ≤ run.analysis.statistics.passes →
    run.analysis.statistics.nodes ≤ run.analysis.statistics.nodeVisits ∧
      run.analysis.statistics.nodeVisits ≤
        run.analysis.statistics.passes * run.analysis.statistics.nodes
  /-- The last pass of a converged run is its only one without a change. -/
  quiet : run.ending = .converged → ∀ k pass, run.visits[k]? = some pass →
    ((∀ visit ∈ pass, visit.changed = false) ↔ k + 1 = run.analysis.statistics.passes)
  changeBounds : run.ending = .converged →
    run.analysis.statistics.passes - 1 ≤ run.analysis.statistics.changedBlocks ∧
      run.analysis.statistics.changedBlocks ≤
        (run.analysis.statistics.passes - 1) * run.analysis.statistics.blocks

/-- What the counters say of the calls on nodes, when blocks are run node by node. -/
structure CountedByNode (analysis : Analysis G σ) (transfer : NodeTransfer G σ) (g : G)
    (run : Run G σ) (log : List (List NodeCall)) : Prop where
  /-- The log lists all calls that were made since the blocks were stamped, -/
  calls : NodeCalls transfer (analysis.stamped g) analysis.memory log.flatten run.graph
    run.analysis.memory
  /-- in one part for each visit. -/
  parts : List.Forall₂ (Visit.MadeOf · (topology g) ·) run.visits.flatten log
  nodeVisits : run.analysis.statistics.nodeVisits = log.flatten.length
  changedBlocks : run.analysis.statistics.changedBlocks =
    log.countP fun calls => calls.any (·.changed)

/-- **The counters of a run count what was called**, when the transfer function leaves the shape of
the graph alone. -/
theorem runBounded_counted (analysis : Analysis G σ) (limit : Nat) (g : G)
    (closed : (topology g).Closed) (known : (topology g).hasBlock analysis.entry = true)
    (keeps : analysis.transfer.KeepsShape (analysis.schedule g) (analysis.stamped g)
      analysis.memory) :
    let run := analysis.runBounded limit g
    analysis.Counted g limit run ∧
      ∀ transfer : NodeTransfer G σ, analysis.transfer = .ofNode transfer →
        ∃ log, analysis.CountedByNode transfer g run log := by
  have calm := analysis.numbering_calm closed known
  obtain ⟨stays, worked⟩ := analysis.runBounded_followsWorklist limit g
  obtain ⟨distinct, calls, follows, ending, answer⟩ := worked (stays closed known)
  have counted := analysis.runBounded_statistics limit calm
  have inside : ∀ visit ∈ (analysis.runBounded limit g).visits.flatten,
      visit.block ∈ analysis.schedule g := fun _ made => analysis.mem_schedule_of_visit limit calm made
  generalize analysis.runBounded limit g = run at *
  have shape := analysis.topology_stamped g
  have blocks : run.analysis.statistics.blocks = (analysis.schedule g).length := by
    rw [counted, schedule, Walker.blocks, List.length_map]
    rfl
  have nodes : run.analysis.statistics.nodes =
      ((analysis.schedule g).map fun block => ((topology g).nodes block).length).sum := by
    rw [counted, ← List.length_flatMap]
    rfl
  have passes : run.analysis.statistics.passes = run.visits.length := by
    rw [counted]
    exact Nat.zero_add _
  have blockVisits : run.analysis.statistics.blockVisits = run.visits.flatten.length := by
    rw [counted]
    exact Nat.zero_add _
  have changedBlocks :
      run.analysis.statistics.changedBlocks = run.visits.flatten.countP (·.changed) := by
    rw [counted]
    exact Nat.zero_add _
  have nodeVisits : run.analysis.statistics.nodeVisits =
      (run.visits.flatten.map fun visit => ((topology g).nodes visit.block).length).sum := by
    rw [counted, ← calls.nodesVisited_eq shape keeps inside]
    exact Nat.zero_add _
  have made : 1 ≤ run.analysis.statistics.passes → run.visits ≠ [] := by
    intro one none
    rw [passes, none] at one
    cases one
  refine ⟨?_, fun transfer each => ?_⟩
  · constructor
    case answer => exact answer
    case ended =>
      refine ending.imp_right fun stopped => ⟨stopped, passes.trans (follows.stopped ?_)⟩
      rw [stopped]
      exact Ending.noConfusion
    case calls => exact calls
    case distinct => exact distinct
    case blocks => exact blocks
    case nodes => exact nodes
    case passes => exact passes
    case blockVisits => exact blockVisits
    case changedBlocks => exact changedBlocks
    case nodeVisits => exact nodeVisits
    case blockBounds =>
      intro one
      have bounds := follows.sum_bounds (fun _ => 1) (made one)
      rw [blocks, blockVisits, passes]
      simpa only [List.map_const', List.sum_replicate_nat, Nat.mul_one] using bounds
    case nodeBounds =>
      intro one
      rw [nodes, nodeVisits, passes]
      exact follows.sum_bounds (fun block => ((topology g).nodes block).length) (made one)
    case quiet =>
      intro converged k pass found
      rw [passes]
      exact (follows.quiet k pass found).trans (and_iff_right converged)
    case changeBounds =>
      intro converged
      rw [passes, changedBlocks, blocks]
      exact follows.changes_bounds converged
  · rw [each] at calls keeps
    obtain ⟨log, logged, parts⟩ := calls.nodeCalls shape keeps inside
    refine ⟨log, logged, parts, ?_, ?_⟩
    · rw [nodeVisits, length_log parts]
    · rw [changedBlocks, countP_log parts]

end Analysis

/-! ## A loop that changes for a while -/

/-- Block 0, with nodes 0 and 1, and block 1 are a loop, which block 1 leaves for block 2. -/
def loopWithExit : Table Unit where
  rows := #[⟨[⟨0⟩, ⟨1⟩], [⟨1⟩], none⟩, ⟨[⟨2⟩], [⟨0⟩, ⟨2⟩], none⟩, ⟨[⟨3⟩], [], none⟩]
  subgraphs := #[]
  states := #[(), (), (), ()]
  orders := #[0, 8, 0]

/-- The nodes of the loop change on the first five calls. -/
def loopChanges : NodeTransfer (Table Unit) Nat :=
  fun node g calls => ⟨node ≠ ⟨3⟩ && calls < 5, g, calls + 1⟩

/-- A run on the loop from block 0. -/
def aroundTheLoop : Analysis (Table Unit) Nat where
  entry := ⟨0⟩
  mode := .within
  transfer := .ofNode loopChanges
  memory := 0

theorem loopChanges_keepsShape (blocks : List BlockId) (start : Table Unit) (memory₀ : Nat) :
    (BlockTransfer.ofNode loopChanges).KeepsShape blocks start memory₀ :=
  .of_calls (fun _ g memory => loopChanges.onEach_preserves
    (fun h _ => topology h = topology g) (fun _ _ _ same => same) _ g memory rfl)
    blocks start memory₀

/-- Block 0 changes in two passes, the second time by its first node only, and block 1 in one.  The
run converges in the third pass, for which block 2 is not visited; stopped after the second it
has counted two. -/
theorem aroundTheLoop_counted :
    let run := aroundTheLoop.runBounded 9 loopWithExit
    let stopped := aroundTheLoop.runBounded 2 loopWithExit
    (topology loopWithExit).Closed ∧
      (topology loopWithExit).hasBlock aroundTheLoop.entry = true ∧
      aroundTheLoop.transfer.KeepsShape (aroundTheLoop.schedule loopWithExit)
        (aroundTheLoop.stamped loopWithExit) aroundTheLoop.memory ∧
      aroundTheLoop.Counted loopWithExit 9 run ∧ aroundTheLoop.Counted loopWithExit 2 stopped ∧
      (∃ log, aroundTheLoop.CountedByNode loopChanges loopWithExit run log) ∧
      run.ending = .converged ∧ run.analysis.statistics = ⟨3, 4, 3, 8, 11, 3, 0⟩ ∧
      stopped.ending = .passLimit 2 ∧ stopped.analysis.statistics = ⟨3, 4, 2, 6, 8, 3, 0⟩ := by
  have closed : (topology loopWithExit).Closed := by decide +kernel
  have known : (topology loopWithExit).hasBlock aroundTheLoop.entry = true := by decide
  have keeps : aroundTheLoop.transfer.KeepsShape (aroundTheLoop.schedule loopWithExit)
      (aroundTheLoop.stamped loopWithExit) aroundTheLoop.memory := loopChanges_keepsShape _ _ _
  obtain ⟨counted, byNode⟩ := aroundTheLoop.runBounded_counted 9 loopWithExit closed known keeps
  obtain ⟨few, -⟩ := aroundTheLoop.runBounded_counted 2 loopWithExit closed known keeps
  exact ⟨closed, known, keeps, counted, few, byNode loopChanges rfl, by decide +kernel⟩

end BlockFlow
