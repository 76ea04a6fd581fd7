/-
# BlockFlow.Proofs.FlowEquations -- runs solve forward equations

In a forward analysis a node reads the node before it in its block, and the first node of
a block reads the last nodes of the predecessors (`Topology.flowInputs`).  The blocks of
these inputs feed the block of the node, so no change of an input is ever missed: on
every graph built by operations, a run that converges has solved the equations of the
scheduled nodes, and from the bottom it converges to their least solution
(`Analysis.solves_flow_equations`).
-/
import BlockFlow.Proofs.Ascent
import Mathlib

namespace BlockFlow

set_option autoImplicit false

namespace Topology

/-- The node before `node` in its block, or, for a first node, the last nodes of all
predecessors of the block. -/
def flowInputs (shape : Topology) (node : NodeId) : List NodeId :=
  match shape.blockOf node with
  | none => []
  | some block =>
    match (shape.nodes block).idxOf node with
    | 0 => (shape.predecessors block).filterMap fun before => (shape.nodes before).getLast?
    | i + 1 => ((shape.nodes block)[i]?).toList

end Topology

namespace Graph.Coherent

variable {S K : Type} {g : Graph S K}

/-- An input is in the block of the node or in a predecessor of the block. -/
theorem mem_of_mem_flowInputs (coherent : g.Coherent) {node input : NodeId} {block : BlockId}
    (member : node ∈ g.topology.nodes block) (reads : input ∈ g.topology.flowInputs node) :
    input ∈ g.topology.nodes block ∨
      ∃ before ∈ g.topology.predecessors block, input ∈ g.topology.nodes before := by
  have place := (coherent.placed node block).mpr member
  simp only [Topology.flowInputs, place] at reads
  split at reads
  · obtain ⟨before, precedes, last⟩ := List.mem_filterMap.mp reads
    exact Or.inr ⟨before, precedes, List.mem_of_getLast? last⟩
  · rw [Option.mem_toList] at reads
    exact Or.inl (List.mem_of_getElem? reads)

theorem hasNode_of_mem_flowInputs (coherent : g.Coherent) {node input : NodeId} {block : BlockId}
    (member : node ∈ g.topology.nodes block) (reads : input ∈ g.topology.flowInputs node) :
    g.topology.hasNode input = true := by
  rcases coherent.mem_of_mem_flowInputs member reads with here | ⟨before, -, there⟩
  · exact coherent.node block input here
  · exact coherent.node before input there

/-- The block of an input is the block of the node or has it as a successor. -/
theorem flows_of_mem_flowInputs (coherent : g.Coherent) {node input : NodeId}
    {block source : BlockId} (member : node ∈ g.topology.nodes block)
    (reads : input ∈ g.topology.flowInputs node) (within : input ∈ g.topology.nodes source) :
    source = block ∨ block ∈ g.topology.successors source := by
  rcases coherent.mem_of_mem_flowInputs member reads with here | ⟨before, precedes, there⟩
  · exact Or.inl (coherent.block_unique within here)
  · obtain rfl := coherent.block_unique within there
    exact Or.inr ((coherent.edge source block).mpr precedes)

end Graph.Coherent

namespace Analysis

open Equations BlockFlow.Graph

variable {S K V σ : Type}

/-- **Runs solve forward equations.**  When a run converges, the equations of all scheduled
nodes hold and running again is one pass that changes nothing.  From the bottom of an
order without long chains, monotone equations make it converge to their least solution.  A run
without a limit of its own answers where the bounded one converges, and answers the same. -/
theorem solves_flow_equations (tracks : Bool) (ops : List (Op S K)) (eqs : Equations S V)
    (forward : eqs.inputs = Topology.flowInputs) (analysis : Analysis (Graph S K) σ)
    {transfer : NodeTransfer (Graph S K) σ} (each : analysis.transfer = .ofNode transfer)
    (assigned : eqs.AssignedBy (built tracks ops).topology transfer)
    (known : (built tracks ops).topology.hasBlock analysis.entry = true) :
    (∀ limit, analysis.run limit (built tracks ops) =
      if (analysis.runBounded limit (built tracks ops)).ending = .converged then
        some (analysis.runBounded limit (built tracks ops)) else none) ∧
    (∀ limit, (analysis.runBounded limit (built tracks ops)).ending = .converged →
      let first := analysis.runBounded limit (built tracks ops)
      (∀ node ∈ analysis.scheduledNodes (built tracks ops), eqs.Holds first.graph node) ∧
      ∀ again, 0 < again →
        let second := first.analysis.runBounded again first.graph
        second.ending = .converged ∧ first.analysis.run again first.graph = some second ∧
          (∃ pass, second.visits = [pass] ∧ ∀ visit ∈ pass, visit.changed = false) ∧
          ∀ node, eqs.value? second.graph node = eqs.value? first.graph node) ∧
    ∀ [PartialOrder V] [OrderBot V] (h : Nat),
      (∀ chain : LTSeries V, chain.head = ⊥ → chain.length ≤ h) →
      eqs.MonotoneRules (built tracks ops) →
      (∀ node ∈ analysis.scheduledNodes (built tracks ops),
        eqs.value? (built tracks ops) node = some ⊥) →
      ∀ limit, 1 + h * (analysis.scheduledNodes (built tracks ops)).length ≤ limit →
        let run := analysis.runBounded limit (built tracks ops)
        run.ending = .converged ∧ analysis.run limit (built tracks ops) = some run ∧
          IsLeast {w | eqs.Solution (built tracks ops)
            (analysis.scheduledNodes (built tracks ops)) w} (eqs.values run.graph) := by
  have coherent := built_coherent tracks ops
  generalize built tracks ops = g at *
  have parted := coherent.partitioned
  have holds : ∀ limit, (analysis.runBounded limit g).ending = .converged →
      ∀ node ∈ analysis.scheduledNodes g, eqs.Holds (analysis.runBounded limit g).graph node := by
    intro limit converged node scheduled
    obtain ⟨block, listed, member⟩ := List.mem_flatMap.mp scheduled
    have settled := (analysis.converged_holds each assigned parted known converged).2 block listed
    rcases settled node member with holds | ⟨input, reads, source, -, within, missed⟩
    · exact holds
    · -- the block of an input is never missed
      obtain ⟨apart, unfed, -⟩ := missed
      rw [forward] at reads
      rcases coherent.flows_of_mem_flowInputs member reads within with same | follows
      · exact absurd same apart
      · exact absurd (Or.inl follows) unfed
  refine ⟨fun limit => analysis.run_eq_ite limit (analysis.numbering_calm coherent.closed known),
    fun limit converged => ⟨holds limit converged, fun again positive => ?_⟩, ?_⟩
  · exact analysis.rerun_of_holds each assigned parted known converged (holds limit converged)
      positive
  · intro order bot h short monotone bottom limit enough
    have inputs : ∀ node ∈ analysis.scheduledNodes g, ∀ input ∈ eqs.inputs g.topology node,
        g.topology.hasNode input = true := by
      intro node scheduled input reads
      obtain ⟨block, -, member⟩ := List.mem_flatMap.mp scheduled
      rw [forward] at reads
      exact coherent.hasNode_of_mem_flowInputs member reads
    have inside : ∀ node ∈ analysis.scheduledNodes g, g.topology.hasNode node = true := by
      intro node scheduled
      obtain ⟨block, -, member⟩ := List.mem_flatMap.mp scheduled
      exact coherent.node block node member
    obtain ⟨rising, converges⟩ := analysis.ascent short each assigned monotone parted known inputs
      bottom limit
    have converged := converges enough
    exact ⟨converged, run_of_converged converged,
      rising.isLeast inside inputs (holds limit converged)⟩

end Analysis

/-! ## A value that comes back round a loop -/

open Equations BlockFlow.Graph

/-- A node is reached when it is node 3 or one of its inputs is reached. -/
def reachedFromThree : Equations Bool Bool where
  value := id
  inputs := Topology.flowInputs
  rule node _ xs := node = ⟨3⟩ || xs.any id

theorem reachedFromThree_monotone {K : Type} (g : Graph Bool K) :
    reachedFromThree.MonotoneRules g := by
  intro node rule found xs ys le
  obtain ⟨s, -, rfl⟩ := Option.map_eq_some_iff.mp found
  simp only [reachedFromThree]
  refine sup_le_sup_left ?_ (decide (node = ⟨3⟩))
  induction le with
  | nil => exact le_refl _
  | cons first _ ih =>
      rw [List.any_cons, List.any_cons]
      exact sup_le_sup first ih

/-- Block 1 holds nodes 1 and 2 and is in a loop with block 2, which holds node 3. -/
def loopBack : List (Op Bool Unit) :=
  [.addFreshBlock [false], .addFreshBlock [false, false], .addFreshBlock [false],
    .addEdge ⟨0⟩ ⟨1⟩, .addEdge ⟨1⟩ ⟨2⟩, .addEdge ⟨2⟩ ⟨1⟩]

def reachability : Analysis (Graph Bool Unit) Unit where
  entry := ⟨0⟩
  mode := .within
  transfer := .ofNode (reachedFromThree.assigning fun v _ => v)
  memory := ()

/-- What node 3 passes back to block 1 arrives in the second pass, and the third is quiet. -/
theorem reachability_solves :
    (reachability.runBounded 5 (built true loopBack)).visits.length = 3 ∧
      (∀ node ∈ reachability.scheduledNodes (built true loopBack),
        reachedFromThree.Holds (reachability.runBounded 5 (built true loopBack)).graph node) ∧
      IsLeast {w | reachedFromThree.Solution (built true loopBack) [⟨0⟩, ⟨1⟩, ⟨2⟩, ⟨3⟩] w}
        (reachedFromThree.values (reachability.runBounded 5 (built true loopBack)).graph) := by
  have nodes : reachability.scheduledNodes (built true loopBack) = [⟨0⟩, ⟨1⟩, ⟨2⟩, ⟨3⟩] := by
    decide +kernel
  obtain ⟨-, solves, ascends⟩ :=
    reachability.solves_flow_equations true loopBack reachedFromThree rfl rfl
    (assigning_assignedBy (fun _ _ => rfl) fun _ _ _ => rfl) (by decide +kernel)
  have short : ∀ chain : LTSeries Bool, chain.head = ⊥ → chain.length ≤ 1 := by
    intro chain _
    exact Nat.le_of_lt_succ chain.length_lt_card
  have bottom : ∀ node ∈ reachability.scheduledNodes (built true loopBack),
      reachedFromThree.value? (built true loopBack) node = some ⊥ := by
    rw [nodes]
    decide +kernel
  obtain ⟨converged, -, least⟩ := ascends 1 short (reachedFromThree_monotone _) bottom 5
    (by rw [nodes]; decide)
  rw [nodes] at least
  exact ⟨by decide +kernel, (solves 5 converged).1, least⟩

end BlockFlow
