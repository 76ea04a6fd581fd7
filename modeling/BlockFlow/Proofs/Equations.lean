/-
# BlockFlow.Proofs.Equations -- analyses that solve equations

An analysis may give each node a value that is to follow from the values of other nodes,
its inputs.  Such `Equations` are solved node by node: a transfer function that assigns
them (`AssignedBy`) sets the value of its node to what the inputs make of it and reports
a change when that is a new value.  It is asked to do so where a run can call it, at the nodes
of blocks on graphs of the shape with which the run begins.

When a run converges, an equation can fail only at a node one of whose inputs the schedule
missed: the block of the input changed after the block of the node was visited for the
last time, and does not feed it (`converged_holds`).  Where all equations hold, a run is
one pass that changes nothing (`runBounded_of_holds`).
-/
import BlockFlow.Proofs.Settling
import BlockFlow.Proofs.Coherence

namespace BlockFlow

set_option autoImplicit false

/-- Blocks share no nodes and list nodes of the graph only. -/
structure Topology.Partitioned (shape : Topology) : Prop extends shape.Closed where
  inside : ∀ block, ∀ node ∈ shape.nodes block, shape.hasNode node = true
  apart : ∀ {node a b}, node ∈ shape.nodes a → node ∈ shape.nodes b → a = b

/-- The node is one of a block. -/
def Topology.Placed (shape : Topology) (node : NodeId) : Prop := ∃ block, node ∈ shape.nodes block

theorem Topology.Partitioned.hasNode {shape : Topology} (parted : shape.Partitioned)
    {node : NodeId} (placed : shape.Placed node) : shape.hasNode node = true := by
  obtain ⟨block, member⟩ := placed
  exact parted.inside block node member

theorem Graph.Coherent.partitioned {S K : Type} {g : Graph S K} (coherent : g.Coherent) :
    g.topology.Partitioned where
  toClosed := coherent.closed
  inside := coherent.node
  apart inA inB := coherent.block_unique inA inB

/-- Equations for values that are part of the states `S` of a graph. -/
structure Equations (S V : Type) where
  value : S → V
  /-- The nodes whose values a node reads. -/
  inputs : Topology → NodeId → List NodeId
  /-- What a node makes of the values it reads.  It may look at what else the node holds. -/
  rule : NodeId → S → List V → V

namespace Equations

variable {S K V σ : Type} (eqs : Equations S V)

/-- The value at a node of the graph. -/
def value? (g : Graph S K) (node : NodeId) : Option V := (g.state? node).map eqs.value

/-- The rule of a node of the graph. -/
def rule? (g : Graph S K) (node : NodeId) : Option (List V → V) :=
  (g.state? node).map (eqs.rule node)

/-- The values that a node reads. -/
def read (g : Graph S K) (node : NodeId) : List V :=
  (eqs.inputs g.topology node).filterMap (eqs.value? g)

/-- The value that a node is due according to the values it reads. -/
def due? (g : Graph S K) (node : NodeId) : Option V :=
  (eqs.rule? g node).map fun rule => rule (eqs.read g node)

/-- The equation of a node. -/
def Holds (g : Graph S K) (node : NodeId) : Prop := eqs.value? g node = eqs.due? g node

instance [DecidableEq V] (g : Graph S K) : DecidablePred (eqs.Holds g) :=
  fun _ => inferInstanceAs (Decidable (_ = _))

/-- The shape of two graphs and the rules of their nodes are the same. -/
structure Alike (g g' : Graph S K) : Prop where
  topology : g'.topology = g.topology
  rules : ∀ node, eqs.rule? g' node = eqs.rule? g node

/-- On graphs of this shape the transfer function gives a node of a block the value it is due,
changes neither other values nor rules, and reports a change exactly when the value is a new
one. -/
structure AssignedBy (shape : Topology) (transfer : NodeTransfer (Graph S K) σ) : Prop where
  alike : ∀ node g memory, g.topology = shape → shape.Placed node →
    eqs.Alike g (transfer node g memory).graph
  assigns : ∀ node g memory, g.topology = shape → shape.Placed node →
    eqs.value? (transfer node g memory).graph node = eqs.due? g node
  others : ∀ node g memory, g.topology = shape → shape.Placed node → ∀ other, other ≠ node →
    eqs.value? (transfer node g memory).graph other = eqs.value? g other
  reports : ∀ node g memory, g.topology = shape → shape.Placed node →
    ((transfer node g memory).changed = true ↔
      eqs.value? (transfer node g memory).graph node ≠ eqs.value? g node)

/-- The transfer function that does just that, when values can be put into states. -/
def assigning [DecidableEq V] (put : V → S → S) : NodeTransfer (Graph S K) σ :=
  fun node g memory =>
    match eqs.due? g node with
    | none => ⟨false, g, memory⟩
    | some v => ⟨eqs.value? g node ≠ some v, g.modifyState node (put v), memory⟩

variable {eqs}

theorem assigning_assignedBy [DecidableEq V] {put : V → S → S} {shape : Topology}
    (values : ∀ v s, eqs.value (put v s) = v)
    (rules : ∀ node v s, eqs.rule node (put v s) = eqs.rule node s) :
    eqs.AssignedBy shape (eqs.assigning put : NodeTransfer (Graph S K) σ) := by
  have state (g : Graph S K) (node other : NodeId) (v : V) :
      (g.modifyState node (put v)).state? other =
        if other = node then (g.state? other).map (put v) else g.state? other := by
    unfold Graph.state? Graph.modifyState
    rw [Graph.node?_modifyNode]
    split
    · cases g.node? other <;> rfl
    · rfl
  -- only a node with a state is due a value
  have due (g : Graph S K) (node : NodeId) :
      eqs.due? g node = none ∧ eqs.value? g node = none ∨
        ∃ s v, g.state? node = some s ∧ eqs.due? g node = some v := by
    cases here : g.state? node with
    | none => exact .inl ⟨by simp [due?, rule?, here], by simp [value?, here]⟩
    | some s => exact .inr ⟨s, eqs.rule node s (eqs.read g node), rfl, by simp [due?, rule?, here]⟩
  constructor
  case alike =>
    intro node g memory _ _
    obtain ⟨now, -⟩ | ⟨s, v, -, now⟩ := due g node
    · simp only [assigning, now]
      exact ⟨rfl, fun _ => rfl⟩
    · simp only [assigning, now]
      refine ⟨Graph.topology_modifyState g node (put v), fun other => ?_⟩
      unfold rule?
      rw [state]
      split
      · rw [Option.map_map]
        exact congrArg (Option.map · _) (funext fun s => rules other v s)
      · rfl
  case assigns =>
    intro node g memory _ _
    obtain ⟨now, absent⟩ | ⟨s, v, here, now⟩ := due g node
    · simp [assigning, now, absent]
    · simp [assigning, now, value?, state, here, values]
  case others =>
    intro node g memory _ _ other apart
    obtain ⟨now, -⟩ | ⟨s, v, -, now⟩ := due g node
    · simp [assigning, now]
    · simp [assigning, now, value?, state, apart]
  case reports =>
    intro node g memory _ _
    obtain ⟨now, -⟩ | ⟨s, v, here, now⟩ := due g node
    · simp [assigning, now]
    · have new : eqs.value? (g.modifyState node (put v)) node = some v := by
        simp [value?, state, here, values]
      simp only [assigning, now, new, decide_eq_true_eq]
      exact ne_comm

/-! ## What an equation depends on -/

theorem Alike.refl (g : Graph S K) : eqs.Alike g g := ⟨rfl, fun _ => rfl⟩

theorem Alike.trans {g h k : Graph S K} (first : eqs.Alike g h) (second : eqs.Alike h k) :
    eqs.Alike g k :=
  ⟨second.topology.trans first.topology, fun node => (second.rules node).trans (first.rules node)⟩

theorem Alike.hasNode {g g' : Graph S K} (alike : eqs.Alike g g') {node : NodeId}
    (known : g.topology.hasNode node = true) : g'.topology.hasNode node = true := by
  rw [alike.topology]
  exact known

/-- What a node is due changes only when one of its inputs does. -/
theorem Alike.due?_eq {g g' : Graph S K} (alike : eqs.Alike g g') {node : NodeId}
    (same : ∀ input ∈ eqs.inputs g.topology node, eqs.value? g' input = eqs.value? g input) :
    eqs.due? g' node = eqs.due? g node := by
  have reads : eqs.read g' node = eqs.read g node := by
    unfold read
    rw [alike.topology]
    exact List.filterMap_congr same
  rw [due?, due?, alike.rules, reads]

theorem Holds.of_alike {g g' : Graph S K} {node : NodeId} (holds : eqs.Holds g node)
    (alike : eqs.Alike g g') (own : eqs.value? g' node = eqs.value? g node)
    (same : ∀ input ∈ eqs.inputs g.topology node, eqs.value? g' input = eqs.value? g input) :
    eqs.Holds g' node := by
  unfold Holds
  rw [own, alike.due?_eq same]
  exact holds

/-! ## Visiting a block -/

namespace AssignedBy

variable {shape : Topology} {transfer : NodeTransfer (Graph S K) σ}
  (assigned : eqs.AssignedBy shape transfer)

include assigned

/-- A visit of a node that leaves its value alone leaves all values alone. -/
theorem value?_of_own {node : NodeId} {g : Graph S K} {memory : σ} (shaped : g.topology = shape)
    (placed : shape.Placed node)
    (own : eqs.value? (transfer node g memory).graph node = eqs.value? g node) (other : NodeId) :
    eqs.value? (transfer node g memory).graph other = eqs.value? g other := by
  by_cases same : other = node
  · exact same ▸ own
  · exact assigned.others node g memory shaped placed other same

/-- A visit keeps the shape and the rules, and the values of all nodes outside the block. -/
theorem onEach_frame {nodes : List NodeId} {g : Graph S K} (shaped : g.topology = shape)
    (placed : ∀ node ∈ nodes, shape.Placed node) (memory : σ) :
    eqs.Alike g (transfer.onEach nodes g memory).graph ∧ ∀ other, other ∉ nodes →
      eqs.value? (transfer.onEach nodes g memory).graph other = eqs.value? g other := by
  induction nodes generalizing g memory with
  | nil => exact ⟨Alike.refl g, fun _ _ => rfl⟩
  | cons node rest ih =>
      obtain ⟨here, inside⟩ := List.forall_mem_cons.mp placed
      have alike := assigned.alike node g memory shaped here
      obtain ⟨later, frame⟩ := ih (alike.topology.trans shaped) inside (transfer node g memory).memory
      refine ⟨alike.trans later, fun other outside => ?_⟩
      rw [List.mem_cons, not_or] at outside
      exact (frame other outside.2).trans
        (assigned.others node g memory shaped here other outside.1)

/-- A visit that reports no change has changed no value, and the equations of the block
hold. -/
theorem onEach_quiet {nodes : List NodeId} {g : Graph S K} (shaped : g.topology = shape)
    (placed : ∀ node ∈ nodes, shape.Placed node) (memory : σ)
    (quiet : (transfer.onEach nodes g memory).changed = false) :
    (∀ other, eqs.value? (transfer.onEach nodes g memory).graph other = eqs.value? g other) ∧
      ∀ node ∈ nodes, eqs.Holds (transfer.onEach nodes g memory).graph node := by
  induction nodes generalizing g memory with
  | nil => exact ⟨fun _ => rfl, fun _ member => absurd member List.not_mem_nil⟩
  | cons node rest ih =>
      obtain ⟨here, inside⟩ := List.forall_mem_cons.mp placed
      have alike := assigned.alike node g memory shaped here
      have onward := alike.topology.trans shaped
      obtain ⟨calm, still⟩ := (Bool.or_eq_false_iff).mp quiet
      have own : eqs.value? (transfer node g memory).graph node = eqs.value? g node := by
        by_contra new
        rw [(assigned.reports node g memory shaped here).mpr new] at calm
        cases calm
      have first := assigned.value?_of_own shaped here own
      obtain ⟨values, holds⟩ := ih onward inside (transfer node g memory).memory still
      have later := (assigned.onEach_frame onward inside (transfer node g memory).memory).1
      refine ⟨fun other => (values other).trans (first other), fun other member => ?_⟩
      rcases List.mem_cons.mp member with rfl | member
      · have settled : eqs.Holds (transfer other g memory).graph other := by
          unfold Holds
          rw [assigned.assigns other g memory shaped here, alike.due?_eq fun input _ => first input]
        exact settled.of_alike later (values other) fun input _ => values input
      · exact holds other member

/-- A visit of a block whose equations hold reports no change and changes no value. -/
theorem onEach_rest {nodes : List NodeId} {g : Graph S K} (shaped : g.topology = shape)
    (placed : ∀ node ∈ nodes, shape.Placed node)
    (holds : ∀ node ∈ nodes, eqs.Holds g node) (memory : σ) :
    (transfer.onEach nodes g memory).changed = false ∧
      ∀ other, eqs.value? (transfer.onEach nodes g memory).graph other = eqs.value? g other := by
  induction nodes generalizing g memory with
  | nil => exact ⟨rfl, fun _ => rfl⟩
  | cons node rest ih =>
      obtain ⟨here, inside⟩ := List.forall_mem_cons.mp placed
      have alike := assigned.alike node g memory shaped here
      have own : eqs.value? (transfer node g memory).graph node = eqs.value? g node :=
        (assigned.assigns node g memory shaped here).trans (holds node List.mem_cons_self).symm
      have calm : (transfer node g memory).changed = false := by
        rw [← Bool.not_eq_true, assigned.reports node g memory shaped here]
        exact not_not.mpr own
      have first := assigned.value?_of_own shaped here own
      have settled : ∀ other ∈ rest, eqs.Holds (transfer node g memory).graph other :=
        fun other member => (holds other (List.mem_cons_of_mem _ member)).of_alike alike
          (first other) fun input _ => first input
      obtain ⟨still, values⟩ := ih (alike.topology.trans shaped) inside settled
        (transfer node g memory).memory
      exact ⟨Bool.or_eq_false_iff.mpr ⟨calm, still⟩,
        fun other => (values other).trans (first other)⟩

end AssignedBy

/-! ## Runs -/

/-- `source` changed after the last visit to `reader` and does not feed it. -/
def Missed (feeds : BlockId → BlockId → Prop) (visits : List Visit) (source reader : BlockId) :
    Prop :=
  source ≠ reader ∧ ¬ feeds source reader ∧ ChangedSince visits source reader

instance (feeds : BlockId → BlockId → Prop) [DecidableRel feeds] (visits : List Visit) :
    DecidableRel (Missed feeds visits) :=
  fun _ _ => inferInstanceAs (Decidable (_ ∧ _ ∧ _))

variable (eqs) in
/-- The equations of the block hold, except where the schedule missed the block of an input. -/
def Settled (shape : Topology) (schedule : List BlockId) (feeds : BlockId → BlockId → Prop)
    (block : BlockId) (visits : List Visit) (g : Graph S K) : Prop :=
  ∀ node ∈ shape.nodes block, eqs.Holds g node ∨
    ∃ input ∈ eqs.inputs shape node, ∃ source ∈ schedule,
      input ∈ shape.nodes source ∧ Missed feeds visits source block

/-- Assigning equations settles them. -/
theorem AssignedBy.settles {transfer : NodeTransfer (Graph S K) σ} {start : Graph S K}
    (assigned : eqs.AssignedBy start.topology transfer) (parted : start.topology.Partitioned)
    (schedule : List BlockId) (feeds : BlockId → BlockId → Prop) :
    Settles (BlockTransfer.ofNode transfer) feeds schedule (eqs.Alike start)
      (eqs.Settled start.topology schedule feeds) := by
  have inside {g : Graph S K} (alike : eqs.Alike start g) (block : BlockId) :
      ∀ node ∈ g.topology.nodes block, start.topology.Placed node := by
    rw [alike.topology]
    exact fun node member => ⟨block, member⟩
  constructor
  case kept =>
    intro block _ g memory alike
    exact alike.trans (assigned.onEach_frame alike.topology (inside alike block) memory).1
  case quiet =>
    intro block _ g memory visits alike quiet node member
    have holds := (assigned.onEach_quiet alike.topology (inside alike block) memory quiet).2
    rw [← alike.topology] at member
    exact Or.inl (holds node member)
  case apart =>
    intro block here other _ apart g memory visits alike feeding fine node member
    have frame := assigned.onEach_frame alike.topology (inside alike block) memory
    have elsewhere : ∀ n, n ∉ start.topology.nodes block →
        eqs.value? (BlockTransfer.ofNode transfer block g memory).graph n = eqs.value? g n := by
      intro n outside
      rw [← alike.topology] at outside
      exact frame.2 n outside
    have own : node ∉ start.topology.nodes block := fun inBlock => apart (parted.apart member inBlock)
    rcases fine node member with holds | ⟨input, reads, source, scheduled, within, distinct, unfed, since⟩
    · cases changed : (BlockTransfer.ofNode transfer block g memory).changed with
      | false =>
          have still := (assigned.onEach_quiet alike.topology (inside alike block) memory changed).1
          exact Or.inl (holds.of_alike frame.1 (still node) fun input _ => still input)
      | true =>
          by_cases touched : ∃ input ∈ eqs.inputs start.topology node,
              input ∈ start.topology.nodes block
          · obtain ⟨input, reads, within⟩ := touched
            refine Or.inr ⟨input, reads, block, here, within, Ne.symm apart, feeding changed, ?_⟩
            exact changedSince_concat.mpr ⟨Ne.symm apart, Or.inl rfl⟩
          · refine Or.inl (holds.of_alike frame.1 (elsewhere node own) fun input reads => ?_)
            rw [alike.topology] at reads
            exact elsewhere input fun within => touched ⟨input, reads, within⟩
    · refine Or.inr ⟨input, reads, source, scheduled, within, distinct, unfed, ?_⟩
      exact changedSince_concat.mpr ⟨Ne.symm apart, Or.inr since⟩

end Equations

/-! ## Stamps and states -/

namespace Graph

variable {S K σ : Type}

/-- Stamping blocks leaves the nodes alone. -/
theorem nodes_stamped (analysis : Analysis (Graph S K) σ) (g : Graph S K) :
    (analysis.stamped g).nodes = g.nodes :=
  stampEach_preserves (fun h : Graph S K => h.nodes = g.nodes) (fun _ _ _ same => same) _ _ _ _ _ rfl

theorem state?_stamped (analysis : Analysis (Graph S K) σ) (g : Graph S K) (node : NodeId) :
    (analysis.stamped g).state? node = g.state? node := by
  rw [state?, state?, node?, node?, nodes_stamped]

end Graph

namespace Analysis

variable {S K V σ : Type} {eqs : Equations S V}

open Equations

/-- The nodes of the scheduled blocks. -/
def scheduledNodes {G : Type} [FlowGraph G] (analysis : Analysis G σ) (g : G) : List NodeId :=
  (analysis.schedule g).flatMap (FlowGraph.topology g).nodes

theorem alike_stamped (eqs : Equations S V) (analysis : Analysis (Graph S K) σ) (g : Graph S K) :
    eqs.Alike g (analysis.stamped g) where
  topology := analysis.topology_stamped g
  rules node := congrArg (Option.map (eqs.rule node)) (Graph.state?_stamped analysis g node)

theorem value?_stamped (eqs : Equations S V) (analysis : Analysis (Graph S K) σ) (g : Graph S K)
    (node : NodeId) : eqs.value? (analysis.stamped g) node = eqs.value? g node :=
  congrArg (Option.map eqs.value) (Graph.state?_stamped analysis g node)

/-- **When a run converges, an equation holds unless the schedule missed one of its inputs.** -/
theorem converged_holds (analysis : Analysis (Graph S K) σ) {transfer : NodeTransfer (Graph S K) σ}
    {g : Graph S K} (each : analysis.transfer = .ofNode transfer)
    (assigned : eqs.AssignedBy g.topology transfer) (parted : g.topology.Partitioned)
    (known : g.topology.hasBlock analysis.entry = true) {limit : Nat}
    (converged : (analysis.runBounded limit g).ending = .converged) :
    eqs.Alike g (analysis.runBounded limit g).graph ∧
      ∀ block ∈ analysis.schedule g,
        eqs.Settled g.topology (analysis.schedule g) (analysis.Feeds g) block
          (analysis.runBounded limit g).visits.flatten (analysis.runBounded limit g).graph := by
  have worked := analysis.runBounded_of_calm limit
    (analysis.numbering_calm parted.toClosed known)
  have done : (analysis.passes limit g).converged = true := by
    rw [worked] at converged
    by_contra going
    simp [going] at converged
  have settles := assigned.settles parted (analysis.schedule g) (analysis.Feeds g)
  rw [← each] at settles
  have settled := rounds_settle settles limit (fun _ member => member) [] (analysis.start g)
    (analysis.alike_stamped eqs g) (fun block scheduled notQueued => absurd scheduled notQueued) done
  rw [worked]
  exact settled

/-- **Where all equations hold, a run is one pass that changes nothing.** -/
theorem runBounded_of_holds (analysis : Analysis (Graph S K) σ)
    {transfer : NodeTransfer (Graph S K) σ} {g : Graph S K}
    (each : analysis.transfer = .ofNode transfer) (assigned : eqs.AssignedBy g.topology transfer)
    (parted : g.topology.Partitioned)
    (known : g.topology.hasBlock analysis.entry = true)
    (holds : ∀ node ∈ analysis.scheduledNodes g, eqs.Holds g node) {limit : Nat}
    (positive : 0 < limit) :
    (analysis.runBounded limit g).ending = .converged ∧
      (∃ pass, (analysis.runBounded limit g).visits = [pass] ∧
        pass.map (·.block) = analysis.schedule g ∧ ∀ visit ∈ pass, visit.changed = false) ∧
      ∀ node, eqs.value? (analysis.runBounded limit g).graph node = eqs.value? g node := by
  have worked := analysis.runBounded_of_calm limit
    (analysis.numbering_calm parted.toClosed known)
  have quiet : ∀ block ∈ analysis.schedule g, ∀ (h : Graph S K) (memory : σ),
      (eqs.Alike g h ∧ ∀ node, eqs.value? h node = eqs.value? g node) →
      (analysis.transfer block h memory).changed = false ∧
        (eqs.Alike g (analysis.transfer block h memory).graph ∧
          ∀ node, eqs.value? (analysis.transfer block h memory).graph node = eqs.value? g node) := by
    rintro block scheduled h memory ⟨alike, values⟩
    rw [each]
    have inside : ∀ node ∈ h.topology.nodes block, g.topology.Placed node := by
      rw [alike.topology]
      exact fun node member => ⟨block, member⟩
    have here : ∀ node ∈ h.topology.nodes block, eqs.Holds h node := by
      intro node member
      rw [alike.topology] at member
      exact (holds node (List.mem_flatMap.mpr ⟨block, scheduled, member⟩)).of_alike alike
        (values node) fun input _ => values input
    obtain ⟨calm, still⟩ := assigned.onEach_rest alike.topology inside here memory
    exact ⟨calm, alike.trans (assigned.onEach_frame alike.topology inside memory).1,
      fun node => (still node).trans (values node)⟩
  obtain ⟨converged, pass, -, values⟩ := rounds_rest (analysis.schedule g) (analysis.Feeds g) quiet
    positive (analysis.start g) ⟨analysis.alike_stamped eqs g, analysis.value?_stamped eqs g⟩
  have done : (analysis.passes limit g).converged = true := converged
  rw [worked]
  exact ⟨if_pos done, pass, values⟩

/-- When a run converges with all equations of the scheduled nodes holding, the next run is
one pass that changes nothing. -/
theorem rerun_of_holds (analysis : Analysis (Graph S K) σ) {transfer : NodeTransfer (Graph S K) σ}
    {g : Graph S K} (each : analysis.transfer = .ofNode transfer)
    (assigned : eqs.AssignedBy g.topology transfer) (parted : g.topology.Partitioned)
    (known : g.topology.hasBlock analysis.entry = true) {limit : Nat}
    (converged : (analysis.runBounded limit g).ending = .converged)
    (holds : ∀ node ∈ analysis.scheduledNodes g, eqs.Holds (analysis.runBounded limit g).graph node)
    {again : Nat} (positive : 0 < again) :
    let first := analysis.runBounded limit g
    let second := first.analysis.runBounded again first.graph
    second.ending = .converged ∧ first.analysis.run again first.graph = some second ∧
      (∃ pass, second.visits = [pass] ∧ ∀ visit ∈ pass, visit.changed = false) ∧
      ∀ node, eqs.value? second.graph node = eqs.value? first.graph node := by
  obtain ⟨entry, mode, same⟩ := analysis.runBounded_analysis limit g
  have shape := (analysis.converged_holds each assigned parted known converged).1.topology
  generalize analysis.runBounded limit g = first at *
  have nodes : first.analysis.scheduledNodes first.graph = analysis.scheduledNodes g := by
    unfold scheduledNodes
    rw [schedule_congr entry mode shape]
    exact congrArg (fun shape : Topology => (analysis.schedule g).flatMap shape.nodes) shape
  have quiet := first.analysis.runBounded_of_holds (same.trans each) (shape ▸ assigned)
    (shape ▸ parted) (by rw [shape, entry]; exact known) (nodes ▸ holds) positive
  obtain ⟨done, ⟨pass, visits, -, calm⟩, values⟩ := quiet
  exact ⟨done, run_of_converged done, ⟨pass, visits, calm⟩, values⟩

end Analysis

end BlockFlow
