/-
# BlockFlow.Proofs.Forgetting -- earlier traversals leave no trace on a run

A run reads the graph it is given, with its stamps, and an analysis that has counters of earlier
runs.  Neither stamps nor counters come through to it: the stamps are cleared before the first of
them could be seen, and the counters are replaced.  So a run is told by its graph once the stamps
are taken off, and by the entry, the mode, the transfer function and its memory
(`Analysis.runBounded_congr`).

What can happen between runs is an `Interlude`: writes to stamps, states and memory, walks, and runs
of the same analysis or of others.  Interludes change an analysis in its memory and its counters
only, and a graph, as long as the transfer functions keep to this, in states and stamps only
(`Interlude.apply_analysis`, `Interlude.skeleton_apply`).  After any sequence of interludes a run is
therefore the first run of a fresh analysis on any graph that has the same skeleton and the states
of now.
-/
import BlockFlow.Proofs.Frame

namespace BlockFlow

set_option autoImplicit false

open FlowGraph (topology clearOrders)

/-! ## What tells a run -/

namespace Analysis

variable {G σ : Type} [FlowGraph G]

/-- The analysis with its counters at 0. -/
def fresh (analysis : Analysis G σ) : Analysis G σ := { analysis with statistics := {} }

omit [FlowGraph G] in
theorem fresh_eq_iff {analysis other : Analysis G σ} :
    other.fresh = analysis.fresh ↔ other.entry = analysis.entry ∧ other.mode = analysis.mode ∧
      other.transfer = analysis.transfer ∧ other.memory = analysis.memory := by
  simp [fresh]

variable {analysis other : Analysis G σ} {g h : G}

/-- Graphs that are the same without their stamps have one shape. -/
theorem topology_of_clearOrders (same : clearOrders h = clearOrders g) : topology h = topology g := by
  rw [← FlowGraph.topology_clearOrders h, same, FlowGraph.topology_clearOrders]

/-- The first call of a run finds the same graph, whatever the stamps were. -/
theorem stamped_congr (entry : other.entry = analysis.entry) (mode : other.mode = analysis.mode)
    (same : clearOrders h = clearOrders g) : other.stamped h = analysis.stamped g := by
  rw [stamped, stamped, schedule_congr entry mode (topology_of_clearOrders same), same]

/-- **A run is told by what it is given, less the stamps and the counters.** -/
theorem runBounded_congr (alike : other.fresh = analysis.fresh)
    (same : clearOrders h = clearOrders g) (calm : (analysis.numbering g).stray = none)
    (limit : Nat) : other.runBounded limit h = analysis.runBounded limit g := by
  obtain ⟨entry, mode, transfer, memory⟩ := fresh_eq_iff.mp alike
  have shape := topology_of_clearOrders same
  have numbering : other.numbering h = analysis.numbering g := by
    rw [Analysis.numbering, Analysis.numbering, entry, mode, shape]
  have start : other.start h = analysis.start g := by
    rw [Analysis.start, Analysis.start, stamped_congr entry mode same, memory, numbering]
  have passes : other.passes limit h = analysis.passes limit g := by
    simp only [Analysis.passes, Analysis.Feeds, schedule, numbering, shape, start, transfer]
    congr!
  rw [other.runBounded_of_calm limit (numbering ▸ calm), analysis.runBounded_of_calm limit calm,
    passes, numbering, entry, mode, transfer]

end Analysis

/-- A node is its shell with its state. -/
theorem Node.eq_of_shell {S K : Type} {first second : Node S K} (shell : first.shell = second.shell)
    (state : first.state = second.state) : first = second := by
  cases first
  cases second
  simp only [Node.shell, Node.mk.injEq, true_and] at shell ⊢
  exact ⟨state, shell⟩

namespace Graph

variable {S K σ : Type}

/-- Skeleton and states are all there is to a graph without its stamps. -/
theorem clearOrders_eq_of_skeleton {g h : Graph S K} (skeleton : h.skeleton = g.skeleton)
    (states : ∀ node, h.state? node = g.state? node) : h.clearOrders = g.clearOrders := by
  simp only [Graph.skeleton, Graph.mk.injEq] at skeleton
  obtain ⟨shells, blocks, subgraphs, entry, tracks⟩ := skeleton
  have nodes : h.nodes = g.nodes := by
    refine Array.ext_getElem? fun i => ?_
    have shell : h.nodes[i]?.map Node.shell = g.nodes[i]?.map Node.shell := by
      rw [← Array.getElem?_map, shells, Array.getElem?_map]
    have state : h.nodes[i]?.map Node.state = g.nodes[i]?.map Node.state := states ⟨i⟩
    cases here : g.nodes[i]? with
    | none => simpa [here] using shell
    | some second =>
        simp only [here, Option.map_some, Option.map_eq_some_iff] at shell state
        obtain ⟨first, there, same⟩ := shell
        obtain ⟨_, again, agrees⟩ := state
        obtain rfl := Option.some.inj (there.symm.trans again)
        rw [there, Node.eq_of_shell same agrees]
  rw [clearOrders, clearOrders, Graph.mk.injEq]
  exact ⟨nodes, blocks, subgraphs, entry, tracks⟩

end Graph

/-! ## What happens between runs -/

section Interludes

variable {S K σ : Type}

/-- A visit of a block writes states and stamps of the graph, and leaves the rest of it alone. -/
def BlockTransfer.KeepsSkeleton (transfer : BlockTransfer (Graph S K) σ) : Prop :=
  ∀ block g memory, (transfer block g memory).graph.skeleton = g.skeleton

/-- Calls that write the state of their node make such visits. -/
theorem NodeTransfer.WritesOwnState.keepsSkeleton {transfer : NodeTransfer (Graph S K) σ}
    (writes : transfer.WritesOwnState) : (BlockTransfer.ofNode transfer).KeepsSkeleton :=
  fun block g memory => writes.skeleton (g.topology.nodes block) g memory

theorem Calls.skeleton {transfer : BlockTransfer (Graph S K) σ} (keeps : transfer.KeepsSkeleton)
    {g h : Graph S K} {memory memory' : σ} {visits : List Visit}
    (calls : Calls transfer g memory visits h memory') : h.skeleton = g.skeleton := by
  induction calls with
  | nil => rfl
  | @cons g memory block visits h memory' _ ih => exact ih.trans (keeps block g memory)

/-- So does a run, however it ends. -/
theorem Analysis.runBounded_skeleton {analysis : Analysis (Graph S K) σ}
    (keeps : analysis.transfer.KeepsSkeleton) (limit : Nat) (g : Graph S K) :
    (analysis.runBounded limit g).graph.skeleton = g.skeleton := by
  cases ended : (analysis.numbering g).stray with
  | some what =>
      rw [analysis.runBounded_eq, ended]
      exact Graph.skeleton_stamped analysis g
  | none =>
      exact ((analysis.runBounded_calls limit ended).skeleton keeps).trans
        (Graph.skeleton_stamped analysis g)

theorem Walker.skeleton_runAll (walker : Walker) (g : Graph S K) (entries : List BlockId) :
    (walker.runAll g entries).2.skeleton = g.skeleton := by
  induction entries generalizing walker g with
  | nil => rfl
  | cons entry later ih =>
      refine (ih _ _).trans ?_
      rw [run_graph]
      exact stampEach_preserves (fun h : Graph S K => h.skeleton = g.skeleton)
        (fun h block k same => (Graph.skeleton_setOrder h block k).trans same) _ _ _ _ _ rfl

/-- What may happen to an analysis and its graph before the analysis is run. -/
inductive Interlude (S K σ : Type) : Type 1
  | setOrder (block : BlockId) (k : Nat)
  | clearOrders
  /-- The state of a node is written. -/
  | setState (node : NodeId) (state : S)
  /-- The memory of the transfer function is written. -/
  | setMemory (memory : σ)
  /-- A walker of this mode is run from these entries in turn. -/
  | walk (mode : Mode) (entries : List BlockId)
  /-- The analysis is run, to its end or to the limit. -/
  | rerun (limit : Nat)
  /-- Another analysis, with an entry and a mode of its own, is run. -/
  | run {τ : Type} (other : Analysis (Graph S K) τ) (limit : Nat)

namespace Interlude

/-- The analysis and the graph after an interlude. -/
def apply : Interlude S K σ → Analysis (Graph S K) σ × Graph S K → Analysis (Graph S K) σ × Graph S K
  | setOrder block k, (analysis, g) => (analysis, g.setOrder block k)
  | clearOrders, (analysis, g) => (analysis, g.clearOrders)
  | setState node state, (analysis, g) => (analysis, g.modifyState node fun _ => state)
  | setMemory memory, (analysis, g) => ({ analysis with memory }, g)
  | walk mode entries, (analysis, g) => (analysis, ((Walker.fresh mode).runAll g entries).2)
  | rerun limit, (analysis, g) =>
    ((analysis.runBounded limit g).analysis, (analysis.runBounded limit g).graph)
  | run other limit, (analysis, g) => (analysis, (other.runBounded limit g).graph)

/-- The analysis and the graph after these interludes in turn. -/
def applyAll (past : List (Interlude S K σ)) (now : Analysis (Graph S K) σ × Graph S K) :
    Analysis (Graph S K) σ × Graph S K :=
  past.foldl (fun now interlude => interlude.apply now) now

/-- The transfer function of the interlude, if it has one, keeps to states and stamps; that of the
analysis is given. -/
def KeepsSkeleton (own : BlockTransfer (Graph S K) σ) : Interlude S K σ → Prop
  | rerun _ => own.KeepsSkeleton
  | run other _ => other.transfer.KeepsSkeleton
  | _ => True

/-- An interlude changes an analysis in its memory and its counters only. -/
theorem apply_analysis (interlude : Interlude S K σ) (now : Analysis (Graph S K) σ × Graph S K) :
    (interlude.apply now).1.entry = now.1.entry ∧ (interlude.apply now).1.mode = now.1.mode ∧
      (interlude.apply now).1.transfer = now.1.transfer := by
  cases interlude with
  | rerun limit => exact now.1.runBounded_analysis limit now.2
  | _ => exact ⟨rfl, rfl, rfl⟩

/-- An interlude changes a graph in its states and its stamps only. -/
theorem skeleton_apply {interlude : Interlude S K σ} {now : Analysis (Graph S K) σ × Graph S K}
    (keeps : interlude.KeepsSkeleton now.1.transfer) :
    (interlude.apply now).2.skeleton = now.2.skeleton := by
  cases interlude with
  | setOrder block k => exact Graph.skeleton_setOrder now.2 block k
  | clearOrders => exact Graph.skeleton_clearOrders now.2
  | setState node state => exact Graph.skeleton_modifyState now.2 node _
  | setMemory memory => rfl
  | walk mode entries => exact (Walker.fresh mode).skeleton_runAll now.2 entries
  | rerun limit => exact Analysis.runBounded_skeleton keeps limit now.2
  | run other limit => exact Analysis.runBounded_skeleton keeps limit now.2

theorem applyAll_analysis (past : List (Interlude S K σ))
    (now : Analysis (Graph S K) σ × Graph S K) :
    (applyAll past now).1.entry = now.1.entry ∧ (applyAll past now).1.mode = now.1.mode ∧
      (applyAll past now).1.transfer = now.1.transfer := by
  induction past generalizing now with
  | nil => exact ⟨rfl, rfl, rfl⟩
  | cons interlude later ih =>
      obtain ⟨entry, mode, transfer⟩ := interlude.apply_analysis now
      obtain ⟨entry', mode', transfer'⟩ := ih (interlude.apply now)
      exact ⟨entry'.trans entry, mode'.trans mode, transfer'.trans transfer⟩

theorem skeleton_applyAll {past : List (Interlude S K σ)}
    (now : Analysis (Graph S K) σ × Graph S K)
    (keeps : ∀ interlude ∈ past, interlude.KeepsSkeleton now.1.transfer) :
    (applyAll past now).2.skeleton = now.2.skeleton := by
  induction past generalizing now with
  | nil => rfl
  | cons interlude later ih =>
      obtain ⟨first, rest⟩ := List.forall_mem_cons.mp keeps
      obtain ⟨-, -, transfer⟩ := interlude.apply_analysis now
      exact (ih _ (transfer.symm ▸ rest)).trans (skeleton_apply first)

end Interlude

end Interludes

namespace Graph

variable {S K σ : Type}

/-- A graph has the shape of its skeleton. -/
theorem topology_skeleton (g : Graph S K) : g.skeleton.topology = g.topology := by
  have node : ∀ n, g.skeleton.node? n = (g.node? n).map Node.shell := fun _ => Array.getElem?_map ..
  have block : ∀ b, g.skeleton.block? b = (g.block? b).map Block.unstamped :=
    fun _ => Array.getElem?_map ..
  ext : 1
  case blockCount => exact Array.size_map
  case nodeCount => exact Array.size_map
  case blockOf =>
    funext n
    simp only [topology, blockOf, node, Option.bind_map]
    rfl
  all_goals
    funext x
    simp only [topology, node, block, Option.map_map]
    rfl

/-- **Earlier traversals leave no trace.**  Let anything happen to an analysis and to a graph that
operations have built: stamps, states and memory are written, and this analysis, others and walkers
are run on it.  A run of the analysis is then the first run of a fresh one, with the memory of now,
on any graph that has the skeleton and the states of now, whatever its stamps are: every call of the
transfer function is the same call, on the same graph, and so is all that the run leaves.  The
skeleton is the one that was built, and no run from one of its blocks meets a stray, if the transfer
functions of the earlier runs wrote states and stamps only. -/
theorem run_forgets (tracks : Bool) (ops : List (Op S K)) (analysis : Analysis (Graph S K) σ)
    (past : List (Interlude S K σ)) :
    let g := built tracks ops
    let now := Interlude.applyAll past (analysis, g)
    let first : Analysis (Graph S K) σ :=
      { entry := analysis.entry, mode := analysis.mode, transfer := analysis.transfer,
        memory := now.1.memory }
    (∀ h : Graph S K, h.skeleton = now.2.skeleton → (∀ node, h.state? node = now.2.state? node) →
      ∀ limit,
        let run := now.1.runBounded limit now.2
        (∀ what, run.ending ≠ .stray what) →
          run = first.runBounded limit h ∧ now.1.run limit now.2 = first.run limit h ∧
            now.1.stamped now.2 = first.stamped h ∧
            Calls analysis.transfer (first.stamped h) now.1.memory run.visits.flatten run.graph
              run.analysis.memory) ∧
      (g.topology.hasBlock analysis.entry = true →
        (∀ interlude ∈ past, interlude.KeepsSkeleton analysis.transfer) →
          now.2.skeleton = g.skeleton ∧
            ∀ limit what, (now.1.runBounded limit now.2).ending ≠ .stray what) := by
  intro g now first
  obtain ⟨entry, mode, transfer⟩ := Interlude.applyAll_analysis past (analysis, g)
  have alike : first.fresh = now.1.fresh :=
    Analysis.fresh_eq_iff.mpr ⟨entry.symm, mode.symm, transfer.symm, rfl⟩
  constructor
  · intro h same states limit run ends
    have cleared : h.clearOrders = now.2.clearOrders := clearOrders_eq_of_skeleton same states
    have calm := (now.1.numbering_calm_iff limit now.2).mpr ends
    have runs := Analysis.runBounded_congr alike cleared calm
    have stamped : first.stamped h = now.1.stamped now.2 :=
      Analysis.stamped_congr entry.symm mode.symm cleared
    have calls := now.1.runBounded_calls limit calm
    rw [transfer] at calls
    refine ⟨(runs limit).symm, ?_, stamped.symm, stamped.symm ▸ calls⟩
    rw [Analysis.run, Analysis.run, runs]
  · intro known keeps
    have skeleton : now.2.skeleton = g.skeleton :=
      Interlude.skeleton_applyAll (analysis, g) keeps
    have shape : FlowGraph.topology now.2 = FlowGraph.topology g := by
      show now.2.topology = g.topology
      rw [← topology_skeleton, skeleton, topology_skeleton]
    have calm : (now.1.numbering now.2).stray = none := by
      refine now.1.numbering_calm (shape ▸ (built_coherent tracks ops).closed) ?_
      rw [entry]
      exact shape ▸ known
    exact ⟨skeleton, fun limit => (now.1.numbering_calm_iff limit now.2).mp calm⟩

/-! ## A run that reads the stamps -/

/-- Each node is given the stamp of its block. -/
def recordsStamp : NodeTransfer (Graph Nat Nat) Nat := fun node g calls =>
  let stamp := ((g.blockOf node).map g.order).getD 0
  ⟨decide (g.state? node ≠ some stamp), g.modifyState node fun _ => stamp, calls + 1⟩

theorem recordsStamp_writesOwnState : recordsStamp.WritesOwnState :=
  fun node g _ => ⟨fun _ => ((g.blockOf node).map g.order).getD 0, rfl⟩

/-- The stamps of the blocks that block 0 leads to, followed into procedures. -/
def stampsRecorded : Analysis (Graph Nat Nat) Nat where
  entry := ⟨0⟩
  mode := .across
  transfer := .ofNode recordsStamp
  memory := 0

/-- A stamp is written by hand, the analysis is run for one pass, another one is run from block 3, a
walker is run, and then the memory and a state are written. -/
def beforeTheRun : List (Interlude Nat Nat Nat) :=
  [.setOrder ⟨1⟩ 7, .rerun 1, .run { stampsRecorded with entry := ⟨3⟩, mode := .within } 1,
    .walk .within [⟨2⟩], .setMemory 5, .setState ⟨0⟩ 4]

/-- Stamps and counters of these are left when the analysis is run again, but it runs as one that was
never run on a graph that was never stamped. -/
theorem stampsRecorded_forgets :
    let now := Interlude.applyAll beforeTheRun (stampsRecorded, built false aboutAProcedure)
    let first := { stampsRecorded with memory := 5 }
    let run := now.1.runBounded 9 now.2
    (built false aboutAProcedure : Graph Nat Nat).topology.hasBlock stampsRecorded.entry = true ∧
      (∀ interlude ∈ beforeTheRun, interlude.KeepsSkeleton stampsRecorded.transfer) ∧
      now.2.skeleton = (built false aboutAProcedure : Graph Nat Nat).skeleton ∧
      now.2.blocks.toList.map (·.order) = [2, 3, 1, 1] ∧
      now.2.clearOrders.blocks.toList.map (·.order) = [0, 0, 0, 0] ∧
      now.1.statistics = ⟨3, 3, 1, 3, 3, 3, 1⟩ ∧ first.statistics = {} ∧
      run = first.runBounded 9 now.2.clearOrders ∧
      run.visits.map (·.map (·.block.index)) = [[0, 1, 2], [0, 1, 2]] ∧
      run.graph.nodes.toList.map (·.state) = [1, 2, 3, 1, 0, 0] ∧
      run.graph.blocks.toList.map (·.order) = [1, 2, 3, 0] := by
  have known : (built false aboutAProcedure : Graph Nat Nat).topology.hasBlock
      stampsRecorded.entry = true := by
    decide +kernel
  have keeps : ∀ interlude ∈ beforeTheRun, interlude.KeepsSkeleton stampsRecorded.transfer := by
    have own := recordsStamp_writesOwnState.keepsSkeleton
    simp only [beforeTheRun, List.forall_mem_cons]
    exact ⟨trivial, own, own, trivial, trivial, trivial, List.forall_mem_nil _⟩
  obtain ⟨same, kept⟩ := run_forgets false aboutAProcedure stampsRecorded beforeTheRun
  obtain ⟨skeleton, calm⟩ := kept known keeps
  obtain ⟨run, -⟩ := same _ (skeleton_clearOrders _) (fun _ => rfl) 9 (calm 9)
  exact ⟨known, keeps, skeleton, by decide +kernel, by decide +kernel, by decide +kernel, rfl, run,
    by decide +kernel⟩

end Graph

end BlockFlow
