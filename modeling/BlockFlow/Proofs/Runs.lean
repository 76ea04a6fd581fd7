/-
# BlockFlow.Proofs.Runs -- runs, call by call

A run numbers its schedule, stamps it and works it off.  Here a run is given in those
terms (`runBounded_of_calm`), its recorded visits are tied to the calls of the transfer
function (`Calls`), and the sequence of calls is compared with what the worklist of the
schedule prescribes (`FollowsWorklist`): `runBounded_followsWorklist`.
-/
import BlockFlow.Proofs.Worklist
import BlockFlow.Table

namespace BlockFlow

set_option autoImplicit false

open FlowGraph (topology clearOrders)

/-! ## Stamping -/

section Stamps

variable {G σ : Type} [FlowGraph G]

/-- What writing one stamp keeps, stamping a list of blocks keeps. -/
theorem stampEach_preserves (Inv : G → Prop)
    (step : ∀ g block k, Inv g → Inv (FlowGraph.setOrder g block k))
    (visit : G → BlockId → σ → σ) (next : Nat) (blocks : List BlockId) (g : G) (seen : σ)
    (inv : Inv g) : Inv (FlowGraph.stampEach visit next blocks g seen).1 := by
  induction blocks generalizing next g seen with
  | nil => exact inv
  | cons block rest ih => exact ih _ _ _ (step g block next inv)

theorem topology_stampEach (visit : G → BlockId → σ → σ) (next : Nat) (blocks : List BlockId)
    (g : G) (seen : σ) : topology (FlowGraph.stampEach visit next blocks g seen).1 = topology g :=
  stampEach_preserves (topology · = topology g)
    (fun h block k same => (FlowGraph.topology_setOrder h block k).trans same) _ _ _ _ _ rfl

end Stamps

/-! ## A run in terms of its schedule -/

namespace Analysis

variable {G σ : Type} [FlowGraph G]

/-- The walk that numbers the blocks of a run. -/
def numbering (analysis : Analysis G σ) (g : G) : Walk :=
  (Walker.fresh analysis.mode).explore (topology g) analysis.entry

/-- The blocks of a run, in the order in which it numbers them. -/
def schedule (analysis : Analysis G σ) (g : G) : List BlockId :=
  (analysis.numbering g).walker.blocks

/-- Which block of a run feeds which. -/
def Feeds (analysis : Analysis G σ) (g : G) : BlockId → BlockId → Prop :=
  (analysis.numbering g).walker.Feeds (topology g)

instance (analysis : Analysis G σ) (g : G) : DecidableRel (analysis.Feeds g) :=
  inferInstanceAs (DecidableRel ((analysis.numbering g).walker.Feeds (topology g)))

/-- The graph with its schedule stamped and every other stamp cleared. -/
def stamped (analysis : Analysis G σ) (g : G) : G :=
  FlowGraph.stamp 1 (analysis.schedule g) (clearOrders g)

/-- Where the first pass of a run begins. -/
def start (analysis : Analysis G σ) (g : G) : Progress G σ :=
  ⟨analysis.stamped g, analysis.memory, sizes (analysis.stamped g) (analysis.numbering g).walker⟩

/-- The passes of a run, as its worklist makes them. -/
def passes (analysis : Analysis G σ) (limit : Nat) (g : G) : Passes G σ :=
  rounds analysis.transfer (analysis.schedule g) (analysis.Feeds g) limit (analysis.schedule g)
    (analysis.start g)

/-- The schedule depends on the shape of the graph only. -/
theorem schedule_congr {analysis other : Analysis G σ} {g h : G}
    (entry : other.entry = analysis.entry) (mode : other.mode = analysis.mode)
    (shape : topology h = topology g) : other.schedule h = analysis.schedule g := by
  unfold schedule numbering
  rw [entry, mode, shape]

/-- A run changes nothing in an analysis but its memory and its statistics. -/
theorem runBounded_analysis (analysis : Analysis G σ) (limit : Nat) (g : G) :
    (analysis.runBounded limit g).analysis.entry = analysis.entry ∧
      (analysis.runBounded limit g).analysis.mode = analysis.mode ∧
      (analysis.runBounded limit g).analysis.transfer = analysis.transfer := by
  simp only [runBounded]
  split <;> exact ⟨rfl, rfl, rfl⟩

@[simp] theorem topology_stamped (analysis : Analysis G σ) (g : G) :
    topology (analysis.stamped g) = topology g := by
  rw [stamped, FlowGraph.stamp, topology_stampEach, FlowGraph.topology_clearOrders]

theorem schedule_nodup (analysis : Analysis G σ) (g : G) : (analysis.schedule g).Nodup :=
  Walker.explore_blocks_nodup _ _ List.nodup_nil

theorem schedule_hasBlock (analysis : Analysis G σ) (g : G) :
    ∀ block ∈ analysis.schedule g, (topology g).hasBlock block :=
  Walker.explore_hasBlock _ (by simp [Walker.fresh, Walker.blocks])

theorem numbering_calm (analysis : Analysis G σ) {g : G} (closed : (topology g).Closed)
    (known : (topology g).hasBlock analysis.entry) : (analysis.numbering g).stray = none :=
  Walker.explore_stray closed _ known

/-- A run numbers its blocks, stamps them, and then makes passes unless it met a stray. -/
theorem runBounded_eq (analysis : Analysis G σ) (limit : Nat) (g : G) :
    analysis.runBounded limit g =
      match (analysis.numbering g).stray with
      | some what =>
        ⟨.stray what, analysis, analysis.stamped g, (analysis.numbering g).walker.entrances, []⟩
      | none =>
        let slots := Schedule.ofWalker (topology g) (analysis.numbering g).walker
        let passes := solve analysis.transfer slots limit (Marks.full slots.length)
          (analysis.start g)
        { ending := if passes.converged then .converged else .passLimit limit
          analysis :=
            { analysis with
              memory := passes.progress.memory
              statistics := passes.progress.statistics }
          graph := passes.progress.graph
          entrances := (analysis.numbering g).walker.entrances
          visits := passes.visits } := by
  have walk : ((Walker.fresh analysis.mode).run (clearOrders g) analysis.entry).walk =
      analysis.numbering g := by
    simp only [Walker.run, Walker.runWith, FlowGraph.topology_clearOrders]
    rfl
  have graph : ((Walker.fresh analysis.mode).run (clearOrders g) analysis.entry).graph =
      analysis.stamped g := by
    simp only [Walker.run, Walker.runWith, FlowGraph.topology_clearOrders]
    rfl
  simp only [runBounded, walk, graph, topology_stamped]
  rfl

/-- Where a run converges, the one without a limit of its own answers the same. -/
theorem run_of_converged {analysis : Analysis G σ} {fuel : Nat} {g : G}
    (converged : (analysis.runBounded fuel g).ending = .converged) :
    analysis.run fuel g = some (analysis.runBounded fuel g) := by
  rw [run, converged]
  rfl

/-- A run ends with a stray when its numbering meets one. -/
theorem numbering_calm_iff (analysis : Analysis G σ) (limit : Nat) (g : G) :
    (analysis.numbering g).stray = none ↔
      ∀ what, (analysis.runBounded limit g).ending ≠ .stray what := by
  rw [runBounded_eq]
  cases (analysis.numbering g).stray with
  | some what => simp
  | none =>
      refine iff_of_true rfl fun what => ?_
      dsimp only
      split <;> exact Ending.noConfusion

/-- A run whose numbering meets no stray works off its schedule. -/
theorem runBounded_of_calm (analysis : Analysis G σ) (limit : Nat) {g : G}
    (calm : (analysis.numbering g).stray = none) :
    analysis.runBounded limit g =
      { ending := if (analysis.passes limit g).converged then .converged else .passLimit limit
        analysis :=
          { analysis with
            memory := (analysis.passes limit g).progress.memory
            statistics := (analysis.passes limit g).progress.statistics }
        graph := (analysis.passes limit g).progress.graph
        entrances := (analysis.numbering g).walker.entrances
        visits := (analysis.passes limit g).visits } := by
  have slots := Schedule.ofWalker_listsDependents (topology g) (analysis.schedule_nodup g)
  have nodup : ((Schedule.ofWalker (topology g) (analysis.numbering g).walker).map
      (·.block)).Nodup := by
    rw [Schedule.ofWalker_blocks]
    exact analysis.schedule_nodup g
  simp only [runBounded_eq, calm]
  rw [solve_eq_rounds analysis.transfer nodup slots, queueOf_full, Schedule.ofWalker_blocks]
  rfl

end Analysis

/-! ## The calls behind the visits -/

section Calls

variable {G σ : Type} {transfer : BlockTransfer G σ}

/-- Calling `transfer` on the blocks of these visits in turn, from one graph and memory on,
reports the changes they record and ends in the other graph and memory. -/
inductive Calls (transfer : BlockTransfer G σ) : G → σ → List Visit → G → σ → Prop
  | nil (g : G) (memory : σ) : Calls transfer g memory [] g memory
  | cons {g : G} {memory : σ} {block : BlockId} {visits : List Visit} {g' : G} {memory' : σ}
      (later : Calls transfer (transfer block g memory).graph (transfer block g memory).memory
        visits g' memory') :
      Calls transfer g memory (⟨block, (transfer block g memory).changed⟩ :: visits) g' memory'

theorem Calls.append {g h k : G} {memory memory' memory'' : σ} {visits others : List Visit}
    (first : Calls transfer g memory visits h memory')
    (second : Calls transfer h memory' others k memory'') :
    Calls transfer g memory (visits ++ others) k memory'' := by
  induction first with
  | nil => exact second
  | cons _ ih => exact Calls.cons (ih second)

variable [FlowGraph G]

theorem drain_calls (queue : List BlockId) (progress : Progress G σ) :
    Calls transfer progress.graph progress.memory (drain transfer queue progress).1
      (drain transfer queue progress).2.graph (drain transfer queue progress).2.memory := by
  induction queue generalizing progress with
  | nil => exact Calls.nil _ _
  | cons block rest ih =>
      have later := ih (progress.visit transfer block).2
      exact Calls.cons later

theorem rounds_calls (transfer : BlockTransfer G σ) (schedule : List BlockId) (feeds : BlockId → BlockId → Prop)
    [DecidableRel feeds] (limit : Nat) (queue : List BlockId) (progress : Progress G σ) :
    Calls transfer progress.graph progress.memory
      (rounds transfer schedule feeds limit queue progress).visits.flatten
      (rounds transfer schedule feeds limit queue progress).progress.graph
      (rounds transfer schedule feeds limit queue progress).progress.memory := by
  induction limit generalizing queue progress with
  | zero => exact Calls.nil _ _
  | succ limit ih =>
      have round : Calls transfer progress.graph progress.memory _ _ _ :=
        drain_calls queue progress.beginPass
      simp only [rounds]
      split
      · rw [List.flatten_cons]
        exact round.append (ih _ _)
      · simpa using round

end Calls

/-! ## The order of the calls -/

/-- The passes of a worklist: the first works off `queue`, each later one what the pass
before it disturbed, and the last is the one that changes nothing or the `limit`-th. -/
structure FollowsWorklist (schedule : List BlockId) (feeds : BlockId → BlockId → Prop)
    [DecidableRel feeds] (queue : List BlockId) (limit : Nat) (converged : Prop)
    (passes : List (List Visit)) : Prop where
  first : ∀ pass, passes[0]? = some pass → pass.map (·.block) = queue
  next : ∀ (k : Nat) (pass later : List Visit), passes[k]? = some pass →
    passes[k + 1]? = some later →
    later.map (·.block) = schedule.filter (Disturbed feeds pass)
  quiet : ∀ (k : Nat) (pass : List Visit), passes[k]? = some pass →
    ((∀ visit ∈ pass, visit.changed = false) ↔ converged ∧ k + 1 = passes.length)
  within : passes.length ≤ limit
  stopped : ¬ converged → passes.length = limit
  settled : converged → passes ≠ []

theorem rounds_followsWorklist {G σ : Type} [FlowGraph G] (transfer : BlockTransfer G σ)
    (schedule : List BlockId) (feeds : BlockId → BlockId → Prop) [DecidableRel feeds]
    (limit : Nat) (queue : List BlockId) (progress : Progress G σ) :
    FollowsWorklist schedule feeds queue limit
      ((rounds transfer schedule feeds limit queue progress).converged = true)
      (rounds transfer schedule feeds limit queue progress).visits := by
  induction limit generalizing queue progress with
  | zero =>
      constructor <;> simp [rounds]
  | succ limit ih =>
      have blocks := drain_blocks transfer queue progress.beginPass
      simp only [rounds]
      generalize drain transfer queue progress.beginPass = round at blocks ⊢
      split
      · rename_i changed
        have busy : ¬ ∀ visit ∈ round.1, visit.changed = false := by
          simpa using changed
        obtain ⟨first, next, quiet, within, stopped, settled⟩ :=
          ih (schedule.filter (Disturbed feeds round.1)) round.2
        generalize rounds transfer schedule feeds limit
          (schedule.filter (Disturbed feeds round.1)) round.2 = later at *
        constructor
        case first =>
          intro pass found
          rw [List.getElem?_cons_zero, Option.some.injEq] at found
          exact found ▸ blocks
        case next =>
          intro k pass other here there
          rw [List.getElem?_cons_succ] at there
          cases k with
          | zero =>
              rw [List.getElem?_cons_zero, Option.some.injEq] at here
              exact here ▸ first other there
          | succ k => exact next k pass other here there
        case quiet =>
          intro k pass found
          cases k with
          | zero =>
              rw [List.getElem?_cons_zero, Option.some.injEq] at found
              subst found
              refine iff_of_false busy ?_
              rintro ⟨converged, last⟩
              have empty : later.visits = [] := by simpa using last.symm
              exact settled converged empty
          | succ k =>
              rw [List.length_cons, Nat.add_right_cancel_iff]
              exact quiet k pass found
        case within => exact Nat.succ_le_succ within
        case stopped => exact fun converged => congrArg Nat.succ (stopped converged)
        case settled => exact fun _ => List.cons_ne_nil _ _
      · rename_i unchanged
        have calm : ∀ visit ∈ round.1, visit.changed = false := by
          simpa using unchanged
        constructor
        case first =>
          intro pass found
          rw [List.getElem?_cons_zero, Option.some.injEq] at found
          exact found ▸ blocks
        case quiet =>
          intro k pass found
          obtain ⟨rfl, rfl⟩ : k = 0 ∧ round.1 = pass := by
            cases k <;> simp_all
          exact iff_of_true calm ⟨rfl, rfl⟩
        all_goals simp

namespace Analysis

variable {G σ : Type} [FlowGraph G]

/-- A run without a limit of its own answers where the bounded one converges. -/
theorem run_eq_ite (analysis : Analysis G σ) (limit : Nat) {g : G}
    (calm : (analysis.numbering g).stray = none) :
    analysis.run limit g = if (analysis.runBounded limit g).ending = .converged then
      some (analysis.runBounded limit g) else none := by
  rw [run, analysis.runBounded_of_calm limit calm]
  cases (analysis.passes limit g).converged <;> simp

/-- **A run is a worklist run of its schedule.**  It never meets a stray on a closed graph, and
where it meets none, its visits are the calls of the transfer function in turn, they come
pass by pass as the worklist of the schedule prescribes, and the run without a limit of its
own answers where such a run converges. -/
theorem runBounded_followsWorklist (analysis : Analysis G σ) (limit : Nat) (g : G) :
    let run := analysis.runBounded limit g
    ((topology g).Closed → (topology g).hasBlock analysis.entry →
        ∀ what, run.ending ≠ .stray what) ∧
      ((∀ what, run.ending ≠ .stray what) →
        (analysis.schedule g).Nodup ∧
          Calls analysis.transfer (analysis.stamped g) analysis.memory run.visits.flatten run.graph
            run.analysis.memory ∧
          FollowsWorklist (analysis.schedule g) (analysis.Feeds g) (analysis.schedule g) limit
            (run.ending = .converged) run.visits ∧
          (run.ending = .converged ∨ run.ending = .passLimit limit) ∧
          analysis.run limit g = if run.ending = .converged then some run else none) := by
  dsimp only
  rw [← analysis.numbering_calm_iff limit g]
  refine ⟨analysis.numbering_calm, fun calm => ?_⟩
  have worked := analysis.runBounded_of_calm limit calm
  have ending : (analysis.runBounded limit g).ending = .converged ↔
      (analysis.passes limit g).converged = true := by
    rw [worked]
    cases (analysis.passes limit g).converged <;> simp
  refine ⟨analysis.schedule_nodup g, ?_, ?_, ?_, analysis.run_eq_ite limit calm⟩
  · rw [worked]
    exact rounds_calls analysis.transfer (analysis.schedule g) (analysis.Feeds g) limit
      (analysis.schedule g) (analysis.start g)
  · rw [propext ending, worked]
    exact rounds_followsWorklist analysis.transfer (analysis.schedule g) (analysis.Feeds g) ..
  · rw [worked]
    cases (analysis.passes limit g).converged <;> simp

end Analysis

/-! ## A procedure called from two blocks -/

/-- Two blocks on the way from block 0 to block 3 call the one-block procedure at block 2. -/
def calledTwice : Table Unit where
  rows := #[⟨[⟨0⟩], [⟨1⟩], none⟩, ⟨[⟨1⟩], [⟨3⟩], some [⟨1⟩]⟩, ⟨[⟨2⟩], [], none⟩, ⟨[⟨3⟩], [], none⟩]
  subgraphs := #[(⟨0⟩, ⟨2⟩), (⟨1⟩, ⟨2⟩)]
  states := #[(), (), (), ()]
  orders := #[0, 0, 0, 0]

/-- Only the procedure changes, as long as fewer than `calls` calls were made before. -/
def calleeChanges (calls : Nat) : Analysis (Table Unit) Nat where
  entry := ⟨0⟩
  mode := .across
  transfer := fun block g memory => ⟨block = ⟨2⟩ && memory < calls, g, memory + 1⟩
  memory := 0

/-- Each change of the procedure brings back both callers, and block 3 is visited once. -/
theorem calledTwice_followsWorklist :
    let run := (calleeChanges 6).runBounded 9 calledTwice
    (topology calledTwice).Closed ∧ (topology calledTwice).hasBlock (calleeChanges 6).entry ∧
      FollowsWorklist [⟨0⟩, ⟨2⟩, ⟨1⟩, ⟨3⟩] ((calleeChanges 6).Feeds calledTwice)
        [⟨0⟩, ⟨2⟩, ⟨1⟩, ⟨3⟩] 9 True run.visits ∧
      run.visits.map (·.map (·.block.index)) = [[0, 2, 1, 3], [0, 2, 1], [0, 2, 1]] := by
  have closed : (topology calledTwice).Closed := by decide +kernel
  have known : (topology calledTwice).hasBlock (calleeChanges 6).entry := by decide
  have schedule : (calleeChanges 6).schedule calledTwice = [⟨0⟩, ⟨2⟩, ⟨1⟩, ⟨3⟩] := by
    decide +kernel
  have ending : ((calleeChanges 6).runBounded 9 calledTwice).ending = .converged := by
    decide +kernel
  obtain ⟨calm, worked⟩ := (calleeChanges 6).runBounded_followsWorklist 9 calledTwice
  have follows := (worked (calm closed known)).2.2.1
  simp only [schedule, ending] at follows
  exact ⟨closed, known, follows, by decide +kernel⟩

end BlockFlow
