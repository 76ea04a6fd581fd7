/-
# BlockFlow.Proofs.RingReports -- what runs over ring programs report

Everything that a run over a ring program reports is determined by the sizes of its rings, by
whether it follows calls, and by how often a node reports a change (`Report.predicted`).  A run
numbers its blocks in the order of a tour and calls on each of their nodes once in every
pass, so each node comes out with the place of its block in the tour and the number of passes
(`Laid.cameOut_of_tour`), or with nothing when the tour leaves it out.
`build_reports` puts this together, from the sizes to the report.
-/
import BlockFlow.Proofs.RingTours
import BlockFlow.Proofs.Uniform

namespace BlockFlow

set_option autoImplicit false

/-- A run without a limit that converges within its fuel is the run limited to that many passes. -/
theorem Config.run_eq {G σ : Type} [FlowGraph G] (config : Config) (analysis : Analysis G σ)
    {fuel : Nat} {g : G}
    (converges : config.maxPasses = none → (analysis.runBounded fuel g).ending = .converged) :
    config.run analysis fuel g = some (analysis.runBounded (config.maxPasses.getD fuel) g) := by
  unfold Config.run
  cases limited : config.maxPasses with
  | some limit => rfl
  | none =>
      have going : ¬ (analysis.runBounded fuel g).ending = .passLimit fuel := by
        rw [converges limited]
        exact Ending.noConfusion
      exact if_neg going

namespace Ring

open Program (deep lap procedureCount)

/-- The report on the procedure of the `k`-th node, after the first run over a ring of `n` nodes
with procedures of this size. -/
def ProcedureReport.predicted (n : Nat) (procedureNodes : Option Nat) (mode : Mode)
    (counting : Counting) (k : Nat) : ProcedureReport :=
  let m := procedureNodes.getD 0
  { owner := ⟨k⟩
    entry := ⟨n + k * m + (m - 1)⟩
    nodes := (List.range m).map fun s =>
      { node := ⟨n + k * m + lap m s⟩
        block := ⟨n + k * m + lap m s⟩
        order := if deep mode procedureNodes then (k + 1) % n * (1 + m) + 2 + s else 0
        visits := if deep mode procedureNodes then counting.changes + 1 else 0 } }

/-- The report on the whole program.  Each node changes `counting.changes` times, and the
pass after that is the last. -/
def Report.predicted (n : Nat) (procedureNodes : Option Nat) (mode : Mode) (counting : Counting) :
    Report :=
  let m := procedureNodes.getD 0
  let follows := deep mode procedureNodes
  let passes := counting.changes + 1
  let blocks := if follows then n * (1 + m) else n
  { mode
    counting
    statistics :=
      { blocks
        nodes := blocks
        passes
        blockVisits := passes * blocks
        nodeVisits := passes * blocks
        changedBlocks := counting.changes * blocks
        subgraphsEntered := if follows then n else 0 }
    topLevel := (List.range n).map fun r =>
      { node := ⟨lap n r⟩
        block := ⟨lap n r⟩
        order := if follows then r * (1 + m) + 1 else r + 1
        visits := passes }
    procedures := (List.range (procedureCount n procedureNodes)).map
      (ProcedureReport.predicted n procedureNodes mode counting) }

namespace Program

theorem called_of_lt {n k : Nat} {procedureNodes : Option Nat}
    (called : k < procedureCount n procedureNodes) : procedureNodes.isSome = true ∧ k < n := by
  unfold procedureCount at called
  split at called
  · exact ⟨‹_›, called⟩
  · exact absurd called (Nat.not_lt_zero k)

/-! ## How nodes come out -/

/-- A node in a block of its own, with the order of the block and its own visits. -/
structure CameOut (g : VisitGraph) (i order visits : Nat) : Prop where
  nodes : g.topology.nodes ⟨i⟩ = [⟨i⟩]
  place : g.blockOf ⟨i⟩ = some ⟨i⟩
  order : g.order ⟨i⟩ = order
  visits : g.state? ⟨i⟩ = some visits

/-- **A cycle is reported once round.** -/
theorem nodeVisits_reachable {g : VisitGraph} {len : Nat} {turn order visits : Nat → Nat}
    (cycle : g.topology.Cycle len fun r => ⟨turn r⟩)
    (cameOut : ∀ r < len, CameOut g (turn r) (order r) (visits r)) :
    nodeVisits g ((g.topology.reachable ⟨turn 0⟩).flatMap g.topology.nodes) =
      (List.range len).map fun r => ⟨⟨turn r⟩, ⟨turn r⟩, order r, visits r⟩ := by
  have nodes : (g.topology.reachable ⟨turn 0⟩).flatMap g.topology.nodes =
      (List.range len).map fun r => ⟨turn r⟩ := by
    rw [cycle.reachable_eq, List.flatMap_map, ← List.flatMap_pure_eq_map]
    exact List.flatMap_congr fun r inR => (cameOut r (List.mem_range.mp inR)).nodes
  rw [nodes, nodeVisits, List.filterMap_map, ← List.filterMap_eq_map]
  refine List.filterMap_congr fun r inR => ?_
  obtain ⟨-, place, order, visits⟩ := cameOut r (List.mem_range.mp inR)
  simp [place, order, visits]

/-! ## Runs -/

/-- The analysis that a ring of `n` nodes is run with. -/
def ringAnalysis (n : Nat) (mode : Mode) (counting : Counting) : Analysis VisitGraph Unit :=
  { entry := ⟨n - 1⟩, mode, transfer := .ofNode counting.onNode, memory := () }

namespace Laid

variable {n : Nat} {procedureNodes : Option Nat} {g : VisitGraph}
  (laid : Laid n (procedureNodes.getD 0) (procedureCount n procedureNodes)
    (procedureCount n procedureNodes) g)
  {mode : Mode} {counting : Counting}

include laid

/-- Runs converge as soon as they may make all their passes. -/
theorem runs (mode : Mode) (counting : Counting) (limit : Nat) :
    let analysis := ringAnalysis n mode counting
    let run := analysis.runBounded limit g
    (run.ending = .converged ↔ counting.changes + 1 ≤ limit) ∧
      (limit ≤ counting.changes → run.ending = .passLimit limit) ∧
      (counting.changes + 1 ≤ limit →
        analysis.VisitsUniformly counting.onNode counting.changes g run) := by
  have known := laid.ring.known (n - 1) (Nat.sub_one_lt_of_lt laid.ring.positive)
  refine Analysis.runBounded_uniform _ rfl laid.coherent.partitioned known
    (laid.coherent.passable (Analysis.schedule_nodup _ g) (Analysis.schedule_hasBlock _ g)) ?_ limit
  refine counting.changesFirst fun node here => ?_
  have bound : node.index < ((ringAnalysis n mode counting).stamped g).nodes.size :=
    of_decide_eq_true here
  rw [Graph.nodes_stamped, laid.nodeCount] at bound
  rw [Graph.state?_stamped]
  exact laid.unvisited node.index bound

/-- The nodes of a run have the numbers of its blocks. -/
theorem scheduledNodes_eq :
    (ringAnalysis n mode counting).scheduledNodes g =
      ((ringAnalysis n mode counting).schedule g).map fun block => ⟨block.index⟩ := by
  rw [Analysis.scheduledNodes, ← List.flatMap_pure_eq_map]
  refine List.flatMap_congr fun block scheduled => ?_
  have bound : block.index < g.blocks.size :=
    of_decide_eq_true (Analysis.schedule_hasBlock _ g block scheduled)
  exact laid.nodes block.index (laid.blockCount ▸ bound)

theorem mem_scheduledNodes_iff (i : Nat) :
    ⟨i⟩ ∈ (ringAnalysis n mode counting).scheduledNodes g ↔
      ⟨i⟩ ∈ (ringAnalysis n mode counting).schedule g := by
  rw [laid.scheduledNodes_eq, List.mem_map]
  constructor
  · rintro ⟨⟨j⟩, scheduled, same⟩
    obtain rfl : j = i := congrArg NodeId.index same
    exact scheduled
  · exact fun scheduled => ⟨⟨i⟩, scheduled, rfl⟩

/-- A node comes out with the stamp of its block and the number of calls on it. -/
theorem cameOut {run : Run VisitGraph Unit}
    (touches : (ringAnalysis n mode counting).Touches counting.onNode g run) {i : Nat}
    (bound : i < n + procedureCount n procedureNodes * procedureNodes.getD 0) :
    CameOut run.graph i (run.graph.order ⟨i⟩) ((run.nodeCalls g.topology).count ⟨i⟩) where
  nodes := by
    rw [touches.topology]
    exact laid.nodes i bound
  place := by
    have same : run.graph.topology.blockOf ⟨i⟩ = g.topology.blockOf ⟨i⟩ := by rw [touches.topology]
    exact same.trans
      ((laid.coherent.placed _ _).mpr (laid.nodes i bound ▸ List.mem_singleton_self _))
  order := rfl
  visits := by
    rw [touches.calls.graph]
    refine (counting.state?_onEach _ _ _).trans ?_
    rw [Graph.state?_stamped, laid.unvisited i bound, Option.map_some, Nat.zero_add]

variable (nonempty : ∀ m ∈ procedureNodes, 0 < m)

include nonempty

/-- **A run numbers its blocks in the order of a tour.** -/
theorem schedule_eq (mode : Mode) (counting : Counting) :
    (ringAnalysis n mode counting).schedule g =
      tour n (procedureNodes.getD 0) (reached mode procedureNodes) :=
  (laid.explore_tour nonempty mode).1

/-- The counters of a run that makes all its passes. -/
theorem statistics_eq {run : Run VisitGraph Unit}
    (visits : (ringAnalysis n mode counting).VisitsUniformly counting.onNode counting.changes g run)
    (entered : run.entrances.length = if deep mode procedureNodes then n else 0) :
    run.analysis.statistics = (Report.predicted n procedureNodes mode counting).statistics := by
  have blocks : ((ringAnalysis n mode counting).schedule g).length =
      if deep mode procedureNodes then n * (1 + procedureNodes.getD 0) else n := by
    rw [laid.schedule_eq nonempty mode counting, length_tour, reached]
    split
    · rfl
    · exact Nat.mul_one n
  have nodes : ((ringAnalysis n mode counting).scheduledNodes g).length =
      ((ringAnalysis n mode counting).schedule g).length := by
    rw [laid.scheduledNodes_eq, List.length_map]
  rw [visits.statistics, nodes, blocks, entered]
  rfl

variable {run : Run VisitGraph Unit}
  (touches : (ringAnalysis n mode counting).Touches counting.onNode g run)
  (visits : (ringAnalysis n mode counting).VisitsUniformly counting.onNode counting.changes g run)

include touches visits

/-- **A node that the tour comes to** comes out with the place of its block and has been visited in
every pass. -/
theorem cameOut_of_tour {p i : Nat}
    (found : (tour n (procedureNodes.getD 0) (reached mode procedureNodes))[p]? = some ⟨i⟩) :
    CameOut run.graph i (p + 1) (counting.changes + 1) := by
  rw [← laid.schedule_eq nonempty mode counting] at found
  have scheduled := List.mem_of_getElem? found
  have bound : i < g.blocks.size := of_decide_eq_true (Analysis.schedule_hasBlock _ g _ scheduled)
  have counted : (run.nodeCalls g.topology).count ⟨i⟩ = counting.changes + 1 :=
    visits.scheduled ⟨i⟩ ((laid.mem_scheduledNodes_iff i).mpr scheduled)
  have out := laid.cameOut touches (laid.blockCount ▸ bound)
  rwa [touches.stamped p _ found, counted] at out

/-- **A node that the tour leaves out** comes out with nothing. -/
theorem cameOut_of_not_mem {i : Nat}
    (bound : i < n + procedureCount n procedureNodes * procedureNodes.getD 0)
    (absent : (⟨i⟩ : BlockId) ∉ tour n (procedureNodes.getD 0) (reached mode procedureNodes)) :
    CameOut run.graph i 0 0 := by
  rw [← laid.schedule_eq nonempty mode counting] at absent
  have uncounted : (run.nodeCalls g.topology).count ⟨i⟩ = 0 :=
    visits.others ⟨i⟩ ((laid.mem_scheduledNodes_iff i).not.mpr absent)
  have out := laid.cameOut touches bound
  rwa [touches.cleared _ absent, uncounted] at out

/-- The nodes of the ring, -/
theorem cameOut_ring {r : Nat} (inside : r < n) :
    CameOut run.graph (lap n r)
      (if deep mode procedureNodes then r * (1 + procedureNodes.getD 0) + 1 else r + 1)
      (counting.changes + 1) := by
  have out := laid.cameOut_of_tour nonempty touches visits (tour_ring inside)
  unfold reached at out
  split at out
  · rwa [if_pos ‹_›]
  · rw [if_neg ‹_›]
    rwa [Nat.add_zero, Nat.mul_one] at out

/-- and those of the procedures. -/
theorem cameOut_procedure {k s : Nat} (inside : k < n)
    (called : k < procedureCount n procedureNodes) (within : s < procedureNodes.getD 0) :
    CameOut run.graph (n + k * procedureNodes.getD 0 + lap (procedureNodes.getD 0) s)
      (if deep mode procedureNodes then (k + 1) % n * (1 + procedureNodes.getD 0) + 2 + s else 0)
      (if deep mode procedureNodes then counting.changes + 1 else 0) := by
  by_cases follows : deep mode procedureNodes = true
  · have all : reached mode procedureNodes = procedureNodes.getD 0 := if_pos follows
    have out := laid.cameOut_of_tour nonempty touches visits
      (all.symm ▸ tour_procedure inside within)
    have order (p : Nat) : p + (1 + s) + 1 = p + 2 + s := by omega
    rw [order, all] at out
    rwa [if_pos follows, if_pos follows]
  · have none : reached mode procedureNodes = 0 := if_neg follows
    have bound := of_decide_eq_true ((laid.procedure_lap called).known s within)
    rw [if_neg follows, if_neg follows]
    refine laid.cameOut_of_not_mem nonempty touches visits (laid.blockCount ▸ bound) ?_
    rw [none, Nat.add_assoc]
    exact not_mem_tour laid.ring.positive _

/-! ## Reports -/

/-- The ring is reported from its last node on. -/
theorem topLevel_eq :
    nodeVisits run.graph
        ((run.graph.topology.reachable ⟨n - 1⟩).flatMap run.graph.topology.nodes) =
      (Report.predicted n procedureNodes mode counting).topLevel := by
  have cycle : run.graph.topology.Cycle n fun r => ⟨lap n r⟩ := touches.topology ▸ laid.ring_lap
  have reported := nodeVisits_reachable cycle fun _ inside =>
    laid.cameOut_ring nonempty touches visits inside
  rwa [lap_zero laid.ring.positive] at reported

/-- A procedure is reported from its last node on. -/
theorem procedureReport_eq {k : Nat}
    (called : k < procedureCount n procedureNodes) :
    procedureReport run.graph ⟨k⟩ =
      some (ProcedureReport.predicted n procedureNodes mode counting k) := by
  obtain ⟨given, inside⟩ := called_of_lt called
  obtain ⟨m, rfl⟩ := Option.isSome_iff_exists.mp given
  obtain ⟨first, stored⟩ := laid.subgraph k called
  have subgraphs : run.graph.subgraphs = g.subgraphs :=
    congrArg (fun h : Graph Unit Nat => h.subgraphs) touches.skeleton
  have found : run.graph.subgraph? ⟨k⟩ = some ⟨⟨k⟩, ⟨n + k * m + (m - 1)⟩, first⟩ := by
    rw [Graph.subgraph?, subgraphs]
    exact stored
  have cycle : run.graph.topology.Cycle m fun s => ⟨n + k * m + lap m s⟩ :=
    touches.topology ▸ laid.procedure_lap called
  have reported := nodeVisits_reachable cycle fun _ within =>
    laid.cameOut_procedure nonempty touches visits inside called within
  rw [lap_zero (nonempty m rfl)] at reported
  simp only [procedureReport, Graph.subgraphNodes?, found, Option.map_some, bind, Option.bind,
    reported]
  rfl

/-- **A run that makes all its passes reports what is predicted.** -/
theorem report_eq {config : Config} (same : config.mode = mode)
    (entered : run.entrances.length = if deep mode procedureNodes then n else 0) :
    report ⟨run.graph, ⟨n - 1⟩, (List.range (procedureCount n procedureNodes)).map SubgraphId.mk⟩
        config counting run.analysis.statistics =
      .predicted n procedureNodes mode counting := by
  have procedures : ((List.range (procedureCount n procedureNodes)).map SubgraphId.mk).filterMap
      (procedureReport run.graph) =
        (Report.predicted n procedureNodes mode counting).procedures := by
    rw [List.filterMap_map]
    exact (List.filterMap_congr fun k inside =>
      laid.procedureReport_eq nonempty touches visits (List.mem_range.mp inside)).trans
        (congrFun List.filterMap_eq_map _)
  rw [report, laid.topLevel_eq nonempty touches visits, procedures,
    laid.statistics_eq nonempty visits entered, same]
  rfl

end Laid

/-- What is made of a run over a program. -/
def outcome (program : Program) (config : Config) (counting : Counting)
    (run : Run VisitGraph Unit) : Outcome :=
  let after := { program with graph := run.graph }
  { run
    program := after
    report := if run.ending = .converged then
        some (after.report config counting run.analysis.statistics)
      else none }

theorem run_eq (program : Program) (config : Config) (counting : Counting) (fuel : Nat) :
    program.run config counting fuel =
      (config.run (config.analysis program.entry (BlockTransfer.ofNode counting.onNode) ()) fuel
        program.graph).map (program.outcome config counting) := by
  rw [Option.map_eq_bind]
  rfl

/-- A run that may not make all its passes is stopped and reports nothing, and every other converges
and reports what is predicted. -/
theorem Laid.outcomes {n : Nat} {procedureNodes : Option Nat} {g : VisitGraph}
    (laid : Laid n (procedureNodes.getD 0) (procedureCount n procedureNodes)
      (procedureCount n procedureNodes) g)
    (nonempty : ∀ m ∈ procedureNodes, 0 < m) (config : Config) (counting : Counting)
    (limit : Nat) :
    let program : Program :=
      ⟨g, ⟨n - 1⟩, (List.range (procedureCount n procedureNodes)).map SubgraphId.mk⟩
    let run := (ringAnalysis n config.mode counting).runBounded limit g
    (limit ≤ counting.changes →
      run.ending = .passLimit limit ∧ (program.outcome config counting run).report = none) ∧
    (counting.changes + 1 ≤ limit →
      run.ending = .converged ∧ (program.outcome config counting run).report =
        some (.predicted n procedureNodes config.mode counting)) := by
  have known := laid.ring.known (n - 1) (Nat.sub_one_lt_of_lt laid.ring.positive)
  obtain ⟨converged, stopped, visits⟩ := laid.runs config.mode counting limit
  constructor
  · intro few
    exact ⟨stopped few, if_neg (by rw [converged]; omega)⟩
  · intro enough
    have touches := (ringAnalysis n config.mode counting).runBounded_touches rfl
      counting.writesOwnState laid.coherent known limit
    have calm := (ringAnalysis n config.mode counting).numbering_calm laid.coherent.closed known
    have entered : ((ringAnalysis n config.mode counting).runBounded limit g).entrances.length =
        if deep config.mode procedureNodes then n else 0 := by
      rw [Analysis.runBounded_of_calm _ limit calm]
      exact (laid.explore_tour nonempty config.mode).2
    refine ⟨converged.mpr enough, (if_pos (converged.mpr enough)).trans (congrArg some ?_)⟩
    exact laid.report_eq nonempty touches (visits enough) rfl entered

/-- **Ring programs have the report that is predicted from their sizes.**  A program with no empty
ring is built, and runs of it end in no other way than the configuration allows: one that may
make too few passes is stopped and reports nothing, and every other converges. -/
theorem build_reports {n : Nat} {procedureNodes : Option Nat} (positive : 0 < n)
    (nonempty : ∀ m ∈ procedureNodes, 0 < m) (tracks : Bool) (config : Config)
    (counting : Counting) :
    ∃ program, build n procedureNodes tracks = some program ∧
      ∀ fuel, (config.maxPasses = none → counting.changes + 1 ≤ fuel) →
        ∃ outcome, program.run config counting fuel = some outcome ∧
          (∀ k, outcome.run.ending = .passLimit k ↔
            config.maxPasses = some k ∧ k < counting.changes + 1) ∧
          ((∃ k, outcome.run.ending = .passLimit k) → outcome.report = none) ∧
          ((∀ k, outcome.run.ending ≠ .passLimit k) →
            outcome.run.ending = .converged ∧
              outcome.report = some (.predicted n procedureNodes config.mode counting)) := by
  obtain ⟨g, built, laid⟩ := build_ok positive nonempty tracks
  refine ⟨_, built, fun fuel unlimited => ?_⟩
  have answer := config.run_eq (ringAnalysis n config.mode counting) (g := g) fun none =>
    ((laid.outcomes nonempty config counting fuel).2 (unlimited none)).1
  refine ⟨_, (run_eq _ config counting fuel).trans (congrArg (Option.map _) answer), ?_⟩
  obtain ⟨stopped, converged⟩ :=
    laid.outcomes nonempty config counting (config.maxPasses.getD fuel)
  rcases Nat.lt_or_ge (config.maxPasses.getD fuel) (counting.changes + 1) with few | enough
  · obtain ⟨ended, silent⟩ := stopped (Nat.le_of_lt_succ few)
    obtain ⟨limit, limited⟩ : ∃ limit, config.maxPasses = some limit := by
      refine Option.ne_none_iff_exists'.mp fun none => ?_
      rw [none] at few
      exact absurd (unlimited none) (Nat.not_le_of_lt few)
    simp only [limited, Option.getD_some] at few ended silent ⊢
    refine ⟨fun k => ?_, fun _ => silent, fun going => absurd ended (going limit)⟩
    rw [outcome, ended, Ending.passLimit.injEq, Option.some.injEq]
    exact ⟨fun same => ⟨same, same ▸ few⟩, And.left⟩
  · obtain ⟨ended, reported⟩ := converged enough
    have going : ∀ k, Ending.converged ≠ .passLimit k := fun _ => Ending.noConfusion
    refine ⟨fun k => iff_of_false (fun cut => going k (ended.symm.trans cut)) ?_,
      fun ⟨k, cut⟩ => absurd (ended.symm.trans cut) (going k), fun _ => ⟨ended, reported⟩⟩
    rintro ⟨limited, few⟩
    rw [limited, Option.getD_some] at enough
    exact Nat.not_le_of_lt few enough

/-- Three nodes, each with a procedure of two.  In two passes all nine nodes are visited twice. -/
theorem threeWithPairs_reports :
    ∃ program outcome, build 3 (some 2) false = some program ∧
      program.run { mode := .across } .oneChange 2 = some outcome ∧
      outcome.run.ending = .converged ∧
      outcome.report = some
        { mode := .across
          counting := .oneChange
          statistics := ⟨9, 9, 2, 18, 18, 9, 3⟩
          topLevel := [⟨⟨2⟩, ⟨2⟩, 1, 2⟩, ⟨⟨0⟩, ⟨0⟩, 4, 2⟩, ⟨⟨1⟩, ⟨1⟩, 7, 2⟩]
          procedures :=
            [⟨⟨0⟩, ⟨4⟩, [⟨⟨4⟩, ⟨4⟩, 5, 2⟩, ⟨⟨3⟩, ⟨3⟩, 6, 2⟩]⟩,
              ⟨⟨1⟩, ⟨6⟩, [⟨⟨6⟩, ⟨6⟩, 8, 2⟩, ⟨⟨5⟩, ⟨5⟩, 9, 2⟩]⟩,
              ⟨⟨2⟩, ⟨8⟩, [⟨⟨8⟩, ⟨8⟩, 2, 2⟩, ⟨⟨7⟩, ⟨7⟩, 3, 2⟩]⟩] } := by
  have nonempty : ∀ m ∈ some 2, 0 < m := by decide
  obtain ⟨program, built, runs⟩ :=
    build_reports (by decide : 0 < 3) nonempty false { mode := .across } .oneChange
  obtain ⟨outcome, ran, cut, -, reported⟩ := runs 2 (by decide)
  have unlimited : ∀ k, outcome.run.ending ≠ .passLimit k := by
    intro k ended
    cases ((cut k).mp ended).1
  obtain ⟨ended, report⟩ := reported unlimited
  exact ⟨program, outcome, built, ran, ended, report⟩

end Program

end Ring

end BlockFlow
