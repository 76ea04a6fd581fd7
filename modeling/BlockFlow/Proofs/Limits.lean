/-
# BlockFlow.Proofs.Limits -- what a limit on the passes of a run does

Two runs of one analysis that differ in their limit make the same passes as long as both may
make passes at all.  So a run that converges is the run under every greater limit too, and a
run that is stopped has made the first passes of every longer run, from which that run goes
on (`Analysis.CutShort`, `Analysis.runBounded_of_le`).

The counters of a run are told from its visits: `Analysis.tally` counts what a sequence of
passes did, and `runBounded_statistics` says that the counters of every run are the tally of
its passes, however the run ended and whatever the transfer function does to the graph.
-/
import BlockFlow.Proofs.Stamps

namespace BlockFlow

set_option autoImplicit false

open FlowGraph (topology order)

/-! ## Counting visits -/

section Counting

variable {G σ : Type} [FlowGraph G]

/-- How many nodes there are in these blocks, each counted on the graph it is visited on. -/
def nodesVisited (transfer : BlockTransfer G σ) : List BlockId → G → σ → Nat
  | [], _, _ => 0
  | block :: rest, g, memory =>
    ((topology g).nodes block).length +
      nodesVisited transfer rest (transfer block g memory).graph (transfer block g memory).memory

/-- The counters once these passes have been made as well, from this graph and memory on. -/
def Statistics.counting (statistics : Statistics) (transfer : BlockTransfer G σ)
    (passes : List (List Visit)) (g : G) (memory : σ) : Statistics :=
  { statistics with
    passes := statistics.passes + passes.length
    blockVisits := statistics.blockVisits + passes.flatten.length
    nodeVisits := statistics.nodeVisits +
      nodesVisited transfer (passes.flatten.map (·.block)) g memory
    changedBlocks := statistics.changedBlocks + passes.flatten.countP (·.changed) }

variable {transfer : BlockTransfer G σ}

theorem nodesVisited_append {g h : G} {memory memory' : σ} {visits : List Visit}
    (calls : Calls transfer g memory visits h memory') (later : List BlockId) :
    nodesVisited transfer (visits.map (·.block) ++ later) g memory =
      nodesVisited transfer (visits.map (·.block)) g memory +
        nodesVisited transfer later h memory' := by
  induction calls with
  | nil => simp [nodesVisited]
  | cons _ ih =>
      rw [List.map_cons, List.cons_append, nodesVisited, nodesVisited, ih, Nat.add_assoc]

theorem drain_statistics (queue : List BlockId) (progress : Progress G σ) :
    (drain transfer queue progress).2.statistics =
      { progress.statistics with
        blockVisits := progress.statistics.blockVisits + queue.length
        nodeVisits := progress.statistics.nodeVisits +
          nodesVisited transfer queue progress.graph progress.memory
        changedBlocks := progress.statistics.changedBlocks +
          (drain transfer queue progress).1.countP (·.changed) } := by
  induction queue generalizing progress with
  | nil => rfl
  | cons block rest ih =>
      have reported : (progress.visit transfer block).1.changed =
          (transfer block progress.graph progress.memory).changed := rfl
      simp only [drain, ih, nodesVisited, List.length_cons, List.countP_cons, reported]
      simp only [Progress.visit, Statistics.mk.injEq, true_and, and_true]
      refine ⟨by omega, by omega, ?_⟩
      cases (transfer block progress.graph progress.memory).changed <;> simp
      omega

/-- The counters of the rounds of a worklist count its visits. -/
theorem rounds_statistics (schedule : List BlockId) (feeds : BlockId → BlockId → Prop)
    [DecidableRel feeds] (limit : Nat) (queue : List BlockId) (progress : Progress G σ) :
    (rounds transfer schedule feeds limit queue progress).progress.statistics =
      progress.statistics.counting transfer
        (rounds transfer schedule feeds limit queue progress).visits progress.graph
        progress.memory := by
  induction limit generalizing queue progress with
  | zero => rfl
  | succ limit ih =>
      have calls : Calls transfer progress.graph progress.memory _ _ _ :=
        drain_calls queue progress.beginPass
      have blocks := drain_blocks transfer queue progress.beginPass
      have counted := @drain_statistics G σ _ transfer queue progress.beginPass
      have length := congrArg List.length blocks
      rw [List.length_map] at length
      simp only [rounds]
      generalize drain transfer queue progress.beginPass = round at calls blocks counted length ⊢
      split
      · rw [ih, counted]
        have nodes := nodesVisited_append calls
        rw [blocks] at nodes
        simp only [Statistics.counting, Progress.beginPass, List.flatten_cons, List.map_append,
          nodes, blocks, List.length_cons, List.length_append, List.countP_append, length,
          Statistics.mk.injEq, true_and, and_true]
        omega
      · rw [counted]
        simp [Statistics.counting, Progress.beginPass, length, blocks]

end Counting

namespace Analysis

variable {G σ : Type} [FlowGraph G]

/-- The counters of these passes, when the analysis makes them on `g`. -/
def tally (analysis : Analysis G σ) (g : G) (passes : List (List Visit)) : Statistics :=
  (sizes g (analysis.numbering g).walker).counting analysis.transfer passes (analysis.stamped g)
    analysis.memory

theorem sizes_stamped (analysis : Analysis G σ) (g : G) (walker : Walker) :
    sizes (analysis.stamped g) walker = sizes g walker := by
  rw [sizes, sizes, topology_stamped]

/-- **The counters of a run are the tally of its passes**, however it ended. -/
theorem runBounded_statistics (analysis : Analysis G σ) (limit : Nat) {g : G}
    (calm : (analysis.numbering g).stray = none) :
    (analysis.runBounded limit g).analysis.statistics =
      analysis.tally g (analysis.runBounded limit g).visits := by
  have begun : (analysis.start g).statistics = sizes g (analysis.numbering g).walker :=
    analysis.sizes_stamped g _
  rw [analysis.runBounded_of_calm limit calm]
  refine (rounds_statistics _ _ _ _ _).trans ?_
  rw [begun]
  rfl

/-! ## The stamps of a run -/

/-- Before the first pass the schedule is stamped from 1 on. -/
theorem order_stamped_getElem? (analysis : Analysis G σ) (g : G) {i : Nat} {block : BlockId}
    (found : (analysis.schedule g)[i]? = some block) :
    order (analysis.stamped g) block = i + 1 := by
  have known : ∀ block ∈ analysis.schedule g,
      (topology (FlowGraph.clearOrders g)).hasBlock block = true := by
    rw [FlowGraph.topology_clearOrders]
    exact analysis.schedule_hasBlock g
  have stamps := FlowGraph.order_stampEach (fun _ _ (s : Unit) => s) 1 known ()
  rw [stamped, FlowGraph.stamp, stamps, FlowGraph.restamp_getElem? (analysis.schedule_nodup g) found]
  exact Nat.add_comm 1 i

/-- All other blocks lose the stamps they had. -/
theorem order_stamped_of_not_mem (analysis : Analysis G σ) (g : G) {block : BlockId}
    (absent : block ∉ analysis.schedule g) : order (analysis.stamped g) block = 0 := by
  have known : ∀ block ∈ analysis.schedule g,
      (topology (FlowGraph.clearOrders g)).hasBlock block = true := by
    rw [FlowGraph.topology_clearOrders]
    exact analysis.schedule_hasBlock g
  have stamps := FlowGraph.order_stampEach (fun _ _ (s : Unit) => s) 1 known ()
  rw [stamped, FlowGraph.stamp, stamps, FlowGraph.restamp_of_not_mem absent,
    FlowGraph.order_clearOrders]

end Analysis

/-! ## Passes under two limits -/

section Limits

variable {G σ : Type} [FlowGraph G] (transfer : BlockTransfer G σ) (schedule : List BlockId)
  (feeds : BlockId → BlockId → Prop) [DecidableRel feeds]

/-- The rounds that a smaller limit allows come first. -/
theorem rounds_take {limit limit' : Nat} (le : limit ≤ limit') (queue : List BlockId)
    (progress : Progress G σ) :
    (rounds transfer schedule feeds limit' queue progress).visits.take limit =
      (rounds transfer schedule feeds limit queue progress).visits := by
  induction limit generalizing limit' queue progress with
  | zero => rfl
  | succ limit ih =>
      obtain ⟨limit', rfl⟩ : ∃ rest, limit' = rest + 1 := ⟨limit' - 1, by omega⟩
      simp only [rounds]
      split
      · exact congrArg _ (ih (Nat.le_of_succ_le_succ le) _ _)
      · simp

/-- Once rounds converge, a greater limit makes no difference. -/
theorem rounds_of_converged {limit limit' : Nat} (le : limit ≤ limit') (queue : List BlockId)
    (progress : Progress G σ)
    (converged : (rounds transfer schedule feeds limit queue progress).converged = true) :
    rounds transfer schedule feeds limit' queue progress =
      rounds transfer schedule feeds limit queue progress := by
  induction limit generalizing limit' queue progress with
  | zero => cases converged
  | succ limit ih =>
      obtain ⟨limit', rfl⟩ : ∃ rest, limit' = rest + 1 := ⟨limit' - 1, by omega⟩
      simp only [rounds] at converged ⊢
      split at converged
      · rename_i changed
        rw [if_pos changed, if_pos changed, ih (Nat.le_of_succ_le_succ le) _ _ converged]
      · rename_i unchanged
        rw [if_neg unchanged, if_neg unchanged]

/-- Rounds under a greater limit go on where those under a smaller one end. -/
theorem rounds_onward {limit limit' : Nat} (le : limit ≤ limit') (queue : List BlockId)
    (progress : Progress G σ) :
    Calls transfer (rounds transfer schedule feeds limit queue progress).progress.graph
      (rounds transfer schedule feeds limit queue progress).progress.memory
      ((rounds transfer schedule feeds limit' queue progress).visits.drop limit).flatten
      (rounds transfer schedule feeds limit' queue progress).progress.graph
      (rounds transfer schedule feeds limit' queue progress).progress.memory := by
  induction limit generalizing limit' queue progress with
  | zero => exact rounds_calls transfer schedule feeds limit' queue progress
  | succ limit ih =>
      obtain ⟨limit', rfl⟩ : ∃ rest, limit' = rest + 1 := ⟨limit' - 1, by omega⟩
      simp only [rounds]
      split
      · exact ih (Nat.le_of_succ_le_succ le) _ _
      · simpa using Calls.nil _ _

/-- Rounds that converge do so under every limit that leaves room for them, and no other. -/
theorem rounds_converged_iff {limit : Nat} (limit' : Nat) (queue : List BlockId)
    (progress : Progress G σ)
    (converged : (rounds transfer schedule feeds limit queue progress).converged = true) :
    (rounds transfer schedule feeds limit' queue progress).converged = true ↔
      (rounds transfer schedule feeds limit queue progress).visits.length ≤ limit' := by
  induction limit generalizing limit' queue progress with
  | zero => cases converged
  | succ limit ih =>
      simp only [rounds] at converged ⊢
      cases limit' with
      | zero =>
          refine iff_of_false Bool.false_ne_true ?_
          split <;> exact Nat.not_succ_le_zero _
      | succ limit' =>
          simp only [rounds]
          split at converged
          · rename_i changed
            rw [if_pos changed, if_pos changed]
            exact (ih limit' _ _ converged).trans Nat.succ_le_succ_iff.symm
          · rename_i unchanged
            rw [if_neg unchanged, if_neg unchanged]
            exact iff_of_true rfl (Nat.succ_le_succ (Nat.zero_le _))

end Limits

/-! ## Runs under two limits -/

namespace Analysis

variable {G σ : Type} [FlowGraph G]

/-- The shorter run was stopped after `limit` passes, which are the first of the longer run. -/
structure CutShort (analysis : Analysis G σ) (g : G) (limit : Nat) (shorter longer : Run G σ) :
    Prop where
  ending : shorter.ending = .passLimit limit
  /-- As many passes were made as the limit allows. -/
  made : shorter.visits.length = limit
  /-- They are the first passes of the longer run. -/
  first : longer.visits.take limit = shorter.visits
  /-- Their calls are all that was done since the blocks were stamped. -/
  calls : Calls analysis.transfer (analysis.stamped g) analysis.memory shorter.visits.flatten
    shorter.graph shorter.analysis.memory
  /-- The longer run goes on from there. -/
  onward : Calls analysis.transfer shorter.graph shorter.analysis.memory
    (longer.visits.drop limit).flatten longer.graph longer.analysis.memory
  /-- The counters kept are those of these passes. -/
  counted : shorter.analysis.statistics = analysis.tally g shorter.visits

/-- The run has stamped the blocks of its schedule and done nothing else. -/
structure Unstarted (analysis : Analysis G σ) (g : G) (run : Run G σ) : Prop where
  ending : run.ending = .passLimit 0
  visits : run.visits = []
  memory : run.analysis.memory = analysis.memory
  graph : run.graph = analysis.stamped g
  /-- The schedule is stamped from 1 on. -/
  stamped : ∀ i block, (analysis.schedule g)[i]? = some block → order run.graph block = i + 1
  /-- The other blocks have lost the stamps they had. -/
  cleared : ∀ block, block ∉ analysis.schedule g → order run.graph block = 0

theorem ending_eq_converged_iff (analysis : Analysis G σ) (limit : Nat) {g : G}
    (calm : (analysis.numbering g).stray = none) :
    (analysis.runBounded limit g).ending = .converged ↔
      (analysis.passes limit g).converged = true := by
  rw [analysis.runBounded_of_calm limit calm]
  cases (analysis.passes limit g).converged <;> simp

/-- A run without a limit of its own answers with a run that converged. -/
theorem run_eq_some_iff (analysis : Analysis G σ) (fuel : Nat) {g : G} {run : Run G σ}
    (calm : (analysis.numbering g).stray = none) :
    analysis.run fuel g = some run ↔
      (analysis.runBounded fuel g).ending = .converged ∧ analysis.runBounded fuel g = run := by
  rw [analysis.run_eq_ite fuel calm, Option.ite_none_right_eq_some, Option.some.injEq]

/-- A run that does not converge was stopped by its limit, in the middle of a longer run. -/
theorem cutShort (analysis : Analysis G σ) {limit limit' : Nat} (le : limit ≤ limit') {g : G}
    (calm : (analysis.numbering g).stray = none)
    (going : ¬ (analysis.passes limit g).converged = true) :
    analysis.CutShort g limit (analysis.runBounded limit g) (analysis.runBounded limit' g) := by
  have shorter := analysis.runBounded_of_calm limit calm
  have longer := analysis.runBounded_of_calm limit' calm
  have follows := rounds_followsWorklist analysis.transfer (analysis.schedule g) (analysis.Feeds g)
    limit (analysis.schedule g) (analysis.start g)
  constructor
  case ending => rw [shorter, if_neg going]
  case made =>
    rw [shorter]
    exact follows.stopped going
  case first =>
    rw [shorter, longer]
    exact rounds_take _ _ _ le _ _
  case calls =>
    rw [shorter]
    exact rounds_calls _ _ _ _ _ (analysis.start g)
  case onward =>
    rw [shorter, longer]
    exact rounds_onward _ _ _ le _ _
  case counted => exact analysis.runBounded_statistics limit calm

/-- **A limit cuts a run off and does nothing else.**  A run under a smaller limit meets a stray
only where every run does.  If it converges it is the run under the greater limit too; if not,
it has made as many passes as it was allowed, they are the first of the longer run, and it has
kept their counters.  A run that may make no pass stamps its blocks and leaves it at that.  And a
run converges as soon as its limit leaves room for the passes that it makes without one. -/
theorem runBounded_of_le (analysis : Analysis G σ) (g : G) {limit limit' : Nat}
    (le : limit ≤ limit') :
    let shorter := analysis.runBounded limit g
    let longer := analysis.runBounded limit' g
    ((topology g).Closed → (topology g).hasBlock analysis.entry = true →
        ∀ what, shorter.ending ≠ .stray what) ∧
      ((∀ what, shorter.ending ≠ .stray what) →
        ((shorter.ending = .converged ∧ longer = shorter ∧ analysis.run limit' g = some shorter) ∨
          (analysis.CutShort g limit shorter longer ∧ analysis.run limit g = none)) ∧
        analysis.Unstarted g (analysis.runBounded 0 g) ∧
        ∀ fuel run, analysis.run fuel g = some run →
          run.ending = .converged ∧ run.analysis.statistics = analysis.tally g run.visits ∧
            (shorter.ending = .converged ↔ run.analysis.statistics.passes ≤ limit)) := by
  dsimp only
  rw [← analysis.numbering_calm_iff limit g]
  refine ⟨analysis.numbering_calm, fun calm => ⟨?_, ?_, ?_⟩⟩
  · by_cases converged : (analysis.passes limit g).converged = true
    · have ending := (analysis.ending_eq_converged_iff limit calm).mpr converged
      have same : analysis.runBounded limit' g = analysis.runBounded limit g := by
        have passes : analysis.passes limit' g = analysis.passes limit g :=
          rounds_of_converged _ _ _ le _ _ converged
        rw [analysis.runBounded_of_calm limit' calm, analysis.runBounded_of_calm limit calm, passes,
          if_pos converged, if_pos converged]
      refine Or.inl ⟨ending, same, ?_⟩
      rw [run, same, ending]
      rfl
    · have cut := analysis.cutShort le calm converged
      exact Or.inr ⟨cut, if_pos cut.ending⟩
  · rw [analysis.runBounded_of_calm 0 calm]
    exact ⟨rfl, rfl, rfl, rfl, fun _ _ found => analysis.order_stamped_getElem? g found,
      fun _ absent => analysis.order_stamped_of_not_mem g absent⟩
  · intro fuel run answered
    obtain ⟨converged, rfl⟩ := (analysis.run_eq_some_iff fuel calm).mp answered
    have counted := analysis.runBounded_statistics fuel calm
    refine ⟨converged, counted, ?_⟩
    have passes : (analysis.runBounded fuel g).analysis.statistics.passes =
        (analysis.passes fuel g).visits.length := by
      rw [counted, analysis.runBounded_of_calm fuel calm]
      exact Nat.zero_add _
    rw [passes, analysis.ending_eq_converged_iff limit calm]
    exact rounds_converged_iff _ _ _ limit _ _
      ((analysis.ending_eq_converged_iff fuel calm).mp converged)

end Analysis

/-- Stopped after the second of its three passes, the run has the counters of two. -/
theorem calledTwice_cutShort :
    let shorter := (calleeChanges 6).runBounded 2 calledTwice
    let longer := (calleeChanges 6).runBounded 9 calledTwice
    (topology calledTwice).Closed ∧
      (topology calledTwice).hasBlock (calleeChanges 6).entry = true ∧
      (calleeChanges 6).CutShort calledTwice 2 shorter longer ∧
      shorter.visits.map (·.map (·.block.index)) = [[0, 2, 1, 3], [0, 2, 1]] ∧
      longer.visits.map (·.map (·.block.index)) = [[0, 2, 1, 3], [0, 2, 1], [0, 2, 1]] ∧
      shorter.analysis.statistics = ⟨4, 4, 2, 7, 7, 2, 1⟩ ∧ longer.ending = .converged ∧
      ¬ longer.analysis.statistics.passes ≤ 2 := by
  have closed : (topology calledTwice).Closed := by decide +kernel
  have known : (topology calledTwice).hasBlock (calleeChanges 6).entry = true := by decide
  have stopped : ((calleeChanges 6).runBounded 2 calledTwice).ending ≠ .converged := by
    decide +kernel
  have answered : (calleeChanges 6).run 9 calledTwice =
      some ((calleeChanges 6).runBounded 9 calledTwice) :=
    if_neg (by decide +kernel)
  obtain ⟨calm, cut⟩ := (calleeChanges 6).runBounded_of_le calledTwice (by decide : 2 ≤ 9)
  obtain ⟨same | short, -, room⟩ := cut (calm closed known)
  · exact absurd same.1 stopped
  · obtain ⟨converged, -, enough⟩ := room 9 _ answered
    exact ⟨closed, known, short.1, by decide +kernel, by decide +kernel, by decide +kernel, converged,
      fun few => stopped (enough.mpr few)⟩

end BlockFlow
