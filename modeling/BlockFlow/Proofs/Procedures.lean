/-
# BlockFlow.Proofs.Procedures -- equations across separate procedures

A traversal opens a scope at its entry and at the entry block of every procedure it comes to
call (`Topology.Opens`).  The region of a scope is where control gets from there.  Procedures
are `Separate` when no block is in the regions of two scopes.  They may be called from
several places, call each other and themselves, and call back into the region of the entry.

When procedures are separate every numbered block belongs to the scope whose region it is in
(`scopeOf_of_flows`), so a change anywhere in a procedure brings back all its callers.  A node
may then read from the whole region of a procedure that its block calls (`Topology.Near`), and
still all equations hold when a run converges (`Analysis.solves_procedure_equations`).
-/
import BlockFlow.Proofs.CallEquations
import BlockFlow.Proofs.Walks

namespace BlockFlow

set_option autoImplicit false

namespace Topology

/-! ## Scopes and their regions -/

/-- A traversal from `entry` may open a scope at `block`. -/
def Opens (shape : Topology) (discovery : Option Discovery) (entry block : BlockId) : Prop :=
  block = entry ∨ ∃ caller, shape.Reaches discovery entry caller ∧
    ∃ sub ∈ shape.calls discovery caller, shape.entryBlock sub = block

/-- Control does not get to one block from two scopes. -/
def Separate (shape : Topology) (discovery : Option Discovery) (entry : BlockId) : Prop :=
  ∀ a b, shape.Opens discovery entry a → shape.Opens discovery entry b → a ≠ b →
    ∀ block, ¬ (shape.Flows a block ∧ shape.Flows b block)

/-- A traversal from `entry` comes to `block`, which is in the region of a scope it opens. -/
structure Home (shape : Topology) (discovery : Option Discovery) (entry block scope : BlockId) :
    Prop where
  reached : shape.Reaches discovery entry block
  opened : shape.Opens discovery entry scope
  flows : shape.Flows scope block

/-- Where the nodes of `block` may read from. -/
inductive Near (shape : Topology) (discovery : Option Discovery) (block : BlockId) : BlockId → Prop
  /-- The block itself. -/
  | own : Near shape discovery block block
  /-- A block control comes from. -/
  | before {source : BlockId} (precedes : source ∈ shape.predecessors block) :
      Near shape discovery block source
  /-- Any block in the region of a procedure that the block calls. -/
  | callee {sub : SubgraphId} {source : BlockId} (called : sub ∈ shape.calls discovery block)
      (flows : shape.Flows (shape.entryBlock sub) source) : Near shape discovery block source
  /-- A block that calls a procedure beginning at the block. -/
  | caller {sub : SubgraphId} {source : BlockId} (called : sub ∈ shape.calls discovery source)
      (enters : shape.entryBlock sub = block) : Near shape discovery block source

variable {shape : Topology} {discovery : Option Discovery}

theorem Closed.hasBlock_of_reaches (closed : shape.Closed) {entry block : BlockId}
    (known : shape.hasBlock entry = true) (reaches : shape.Reaches discovery entry block) :
    shape.hasBlock block = true := by
  induction reaches with
  | refl => exact known
  | tail _ leads ih => exact closed.hasBlock_of_leads ih leads

namespace Home

variable {entry block scope : BlockId}

theorem start : shape.Home discovery entry entry entry := ⟨.refl, Or.inl rfl, .refl⟩

theorem call (home : shape.Home discovery entry block scope) {sub : SubgraphId}
    (called : sub ∈ shape.calls discovery block) :
    shape.Home discovery entry (shape.entryBlock sub) (shape.entryBlock sub) :=
  ⟨home.reached.tail (Or.inr ⟨sub, called, rfl⟩), Or.inr ⟨block, home.reached, sub, called, rfl⟩,
    .refl⟩

theorem flow (home : shape.Home discovery entry block scope) {next : BlockId}
    (follows : next ∈ shape.successors block) : shape.Home discovery entry next scope :=
  ⟨home.reached.tail (Or.inl follows), home.opened, home.flows.tail follows⟩

end Home

/-- In separate procedures a block has one home. -/
theorem Separate.home_unique {entry block scope other : BlockId}
    (separate : shape.Separate discovery entry) (home : shape.Home discovery entry block scope)
    (opens : shape.Opens discovery entry other) (flows : shape.Flows other block) :
    scope = other := by
  by_contra apart
  exact separate scope other home.opened opens apart block ⟨home.flows, flows⟩

/-- Procedures are separate when every block has a home that control keeps to and that is the
block itself where a scope is opened. -/
theorem separate_of_home (closed : shape.Closed) {entry : BlockId}
    (known : shape.hasBlock entry = true) (home : BlockId → BlockId) (start : home entry = entry)
    (edges : ∀ i < shape.blockCount, ∀ next ∈ shape.successors ⟨i⟩, home next = home ⟨i⟩)
    (calls : ∀ i < shape.blockCount, ∀ sub ∈ shape.calls discovery ⟨i⟩,
      home (shape.entryBlock sub) = shape.entryBlock sub) :
    shape.Separate discovery entry := by
  have opened : ∀ block, shape.Opens discovery entry block →
      shape.hasBlock block = true ∧ home block = block := by
    rintro block (rfl | ⟨caller, reaches, sub, called, rfl⟩)
    · exact ⟨known, start⟩
    · have inside := closed.hasBlock_of_reaches known reaches
      exact ⟨closed.hasBlock_of_leads inside (Or.inr ⟨sub, called, rfl⟩),
        calls caller.index (of_decide_eq_true inside) sub called⟩
  have stays : ∀ scope block, shape.hasBlock scope = true → shape.Flows scope block →
      shape.hasBlock block = true ∧ home block = home scope := by
    intro scope block inside flows
    induction flows with
    | refl => exact ⟨inside, rfl⟩
    | @tail mid next _ follows ih =>
        exact ⟨closed.successor mid ih.1 next follows,
          (edges mid.index (of_decide_eq_true ih.1) next follows).trans ih.2⟩
  rintro a b opensA opensB apart block ⟨fromA, fromB⟩
  obtain ⟨knownA, homeA⟩ := opened a opensA
  obtain ⟨knownB, homeB⟩ := opened b opensB
  refine apart ?_
  calc a = home a := homeA.symm
    _ = home block := (stays a block knownA fromA).2.symm
    _ = home b := (stays b block knownB fromB).2
    _ = b := homeB

end Topology

namespace Walker

variable {shape : Topology}

/-- When procedures are separate, a numbered block is in the scope whose region it is in. -/
theorem scopeOf_of_flows (closed : shape.Closed) (mode : Mode) {entry : BlockId}
    (known : shape.hasBlock entry = true) (separate : shape.Separate mode.discovery entry)
    {scope block : BlockId} (opens : shape.Opens mode.discovery entry scope)
    (flows : shape.Flows scope block)
    (numbered : block ∈ ((fresh mode).explore shape entry).walker.blocks) :
    ((fresh mode).explore shape entry).walker.scopeOf block = some scope := by
  have finishes := explore_finishes closed (fresh_sound shape mode) known
  -- whatever is numbered has its scope for a home
  have homes := finishes.passesOn
    (P := fun block scope => shape.Home mode.discovery entry block scope)
    (by
      intro block scope home visit onward
      simp only [Walker.onward, List.mem_append, List.mem_map] at onward
      rcases onward with ⟨sub, called, rfl⟩ | ⟨next, follows, rfl⟩
      · exact home.call called
      · exact home.flow follows)
    (by
      intro visit member
      rw [List.mem_singleton] at member
      exact member ▸ .start)
  obtain ⟨item, listed, rfl⟩ := List.mem_map.mp numbered
  have home := (homes item listed).resolve_left List.not_mem_nil
  rw [scopeOf_of_mem (finishes.sound (fresh_sound shape mode)).nodup listed,
    separate.home_unique home opens flows]

end Walker

namespace Analysis

open Equations BlockFlow.Graph

variable {S K V σ : Type}

/-- A block that a node may read from is never missed. -/
theorem not_missed_of_near {g : Graph S K} (coherent : g.Coherent)
    (analysis : Analysis (Graph S K) σ) (known : g.topology.hasBlock analysis.entry = true)
    (separate : g.topology.Separate analysis.mode.discovery analysis.entry)
    {block source : BlockId} (listed : block ∈ analysis.schedule g)
    (scheduled : source ∈ analysis.schedule g) (visits : List Visit)
    (near : g.topology.Near analysis.mode.discovery block source) :
    ¬ Missed (analysis.Feeds g) visits source block := by
  rintro ⟨apart, unfed, -⟩
  have discovery : (analysis.numbering g).walker.discovery = analysis.mode.discovery :=
    Walker.explore_discovery _ _ _
  cases near with
  | own => exact apart rfl
  | before precedes => exact unfed (Or.inl ((coherent.edge source block).mpr precedes))
  | @callee sub _ called flows =>
      have sound := Walker.fresh_sound g.topology analysis.mode
      have reached := ((Walker.explore_mem_blocks coherent.closed sound
        (fun _ member => absurd member List.not_mem_nil) known block).mp listed).resolve_left
          List.not_mem_nil
      have scope := Walker.scopeOf_of_flows coherent.closed analysis.mode known separate
        (Or.inr ⟨block, reached, sub, called, rfl⟩) flows scheduled
      refine unfed (Or.inr (Or.inr ⟨g.topology.entryBlock sub, scope, ?_⟩))
      rw [discovery]
      exact List.mem_map_of_mem called
  | @caller sub _ called enters =>
      refine unfed (Or.inr (Or.inl ?_))
      rw [discovery, ← enters]
      exact List.mem_map_of_mem called

/-- **Runs solve equations across separate procedures.**  When a run converges, the equations
of all scheduled nodes hold, though a node may read from anywhere in the procedures its
block calls; and running again is one pass that changes nothing. -/
theorem solves_procedure_equations (tracks : Bool) (ops : List (Op S K)) (eqs : Equations S V)
    (analysis : Analysis (Graph S K) σ) {transfer : NodeTransfer (Graph S K) σ}
    (each : analysis.transfer = .ofNode transfer)
    (assigned : eqs.AssignedBy (built tracks ops).topology transfer)
    (known : (built tracks ops).topology.hasBlock analysis.entry = true)
    (separate : (built tracks ops).topology.Separate analysis.mode.discovery analysis.entry)
    (near : ∀ block ∈ analysis.schedule (built tracks ops),
      ∀ node ∈ (built tracks ops).topology.nodes block,
        ∀ input ∈ eqs.inputs (built tracks ops).topology node,
          ∃ source, input ∈ (built tracks ops).topology.nodes source ∧
            (built tracks ops).topology.Near analysis.mode.discovery block source)
    {limit : Nat} (converged : (analysis.runBounded limit (built tracks ops)).ending = .converged) :
    let first := analysis.runBounded limit (built tracks ops)
    analysis.run limit (built tracks ops) = some first ∧
      (∀ node ∈ analysis.scheduledNodes (built tracks ops), eqs.Holds first.graph node) ∧
      ∀ again, 0 < again →
        let second := first.analysis.runBounded again first.graph
        second.ending = .converged ∧ first.analysis.run again first.graph = some second ∧
          (∃ pass, second.visits = [pass] ∧ ∀ visit ∈ pass, visit.changed = false) ∧
          ∀ node, eqs.value? second.graph node = eqs.value? first.graph node := by
  have coherent := built_coherent tracks ops
  generalize built tracks ops = g at *
  have parted := coherent.partitioned
  have settled := (analysis.converged_holds each assigned parted known converged).2
  have holds : ∀ node ∈ analysis.scheduledNodes g,
      eqs.Holds (analysis.runBounded limit g).graph node := by
    intro node scheduled
    obtain ⟨block, listed, member⟩ := List.mem_flatMap.mp scheduled
    rcases settled block listed node member with holds | ⟨input, reads, source, here, within, missed⟩
    · exact holds
    · obtain ⟨other, inOther, isNear⟩ := near block listed node member input reads
      obtain rfl := coherent.block_unique within inOther
      exact absurd missed (analysis.not_missed_of_near coherent known separate listed here _ isNear)
  exact ⟨run_of_converged converged, holds, fun again positive =>
    analysis.rerun_of_holds each assigned parted known converged holds positive⟩

end Analysis

/-! ## A nest of procedures that calls its entry again -/

namespace Topology

variable {shape : Topology}

/-- Breadth-first search finds only what control gets to. -/
theorem flows_of_mem_search {start : BlockId} (budget done : Nat) {found : List BlockId}
    (sound : ∀ block ∈ found, shape.Flows start block) :
    ∀ block ∈ shape.search budget done found, shape.Flows start block := by
  fun_induction search shape budget done found with
  | case1 => exact sound
  | case2 => exact sound
  | case3 done found budget block here ih =>
      refine ih fun next member => ?_
      rcases Distinct.mem_addAll.mp member with old | follows
      · exact sound next old
      · exact (sound block (List.mem_of_getElem? here)).tail follows

theorem flows_of_mem_reachable {start block : BlockId} (found : block ∈ shape.reachable start) :
    shape.Flows start block :=
  flows_of_mem_search _ _ (by
    intro first member
    rw [List.mem_singleton] at member
    exact member ▸ .refl) block found

/-- The blocks that the nodes of `block` may read from. -/
def around (shape : Topology) (discovery : Option Discovery) (block : BlockId) : List BlockId :=
  block :: shape.predecessors block ++
    (shape.calls discovery block).flatMap (fun sub => shape.reachable (shape.entryBlock sub)) ++
    ((List.range shape.blockCount).map BlockId.mk).filter fun source =>
      (shape.calls discovery source).any (shape.entryBlock · = block)

theorem near_of_mem_around {discovery : Option Discovery} {block source : BlockId}
    (member : source ∈ shape.around discovery block) : shape.Near discovery block source := by
  simp only [around, List.mem_append, List.mem_cons, List.mem_flatMap, List.mem_filter,
    List.any_eq_true, decide_eq_true_eq] at member
  rcases member with ((rfl | precedes) | ⟨sub, called, found⟩) | ⟨-, sub, called, enters⟩
  · exact .own
  · exact .before precedes
  · exact .callee called (flows_of_mem_reachable found)
  · exact .caller called enters

/-- All nodes that a node may read when procedures are separate. -/
def procedureInputs (discovery : Option Discovery) (shape : Topology) (node : NodeId) :
    List NodeId :=
  match shape.blockOf node with
  | none => []
  | some block => (shape.around discovery block).flatMap shape.nodes

end Topology

open Equations BlockFlow.Graph

theorem Graph.Coherent.near_procedureInputs {S K : Type} {g : Graph S K} (coherent : g.Coherent)
    (discovery : Option Discovery) (block : BlockId) :
    ∀ node ∈ g.topology.nodes block, ∀ input ∈ g.topology.procedureInputs discovery node,
      ∃ source, input ∈ g.topology.nodes source ∧ g.topology.Near discovery block source := by
  intro node member input reads
  rw [Topology.procedureInputs, (coherent.placed node block).mpr member] at reads
  obtain ⟨source, around, within⟩ := List.mem_flatMap.mp reads
  exact ⟨source, within, Topology.near_of_mem_around around⟩

/-- A node is reached when it is node 3 or any node it may read is reached. -/
def reachedAcross : Equations Bool Bool where
  value := id
  inputs := Topology.procedureInputs (some .cache)
  rule node _ xs := node = ⟨3⟩ || xs.any id

def procedureReachability : Analysis (Graph Bool Unit) Unit where
  entry := ⟨0⟩
  mode := .across
  transfer := .ofNode (reachedAcross.assigning fun v _ => v)
  memory := ()

/-- Blocks 0 and 1 both call the procedure at block 2, a loop through block 3, which calls the
procedure at block 4, and that calls back to block 0. -/
def procedureNest : List (Op Bool Unit) :=
  [.addFreshBlock [false], .addFreshBlock [false], .addFreshBlock [false], .addFreshBlock [false],
    .addFreshBlock [false], .addEdge ⟨0⟩ ⟨1⟩, .addEdge ⟨2⟩ ⟨3⟩, .addEdge ⟨3⟩ ⟨2⟩,
    .addSubgraph ⟨0⟩ ⟨2⟩, .addSubgraph ⟨1⟩ ⟨2⟩, .addSubgraph ⟨3⟩ ⟨4⟩, .addSubgraph ⟨4⟩ ⟨0⟩]

/-- A change at the far end of the loop comes back to both callers. -/
theorem procedureNest_solved :
    let g : Graph Bool Unit := built true procedureNest
    g.topology.hasBlock procedureReachability.entry = true ∧
      g.topology.Separate (some .cache) procedureReachability.entry ∧
      (procedureReachability.runBounded 5 g).ending = .converged ∧
      (∀ node ∈ [⟨0⟩, ⟨2⟩, ⟨3⟩, ⟨4⟩, ⟨1⟩],
        reachedAcross.Holds (procedureReachability.runBounded 5 g).graph node) ∧
      (procedureReachability.runBounded 5 g).visits.map (·.map (·.block.index)) =
        [[0, 2, 3, 4, 1], [0, 2, 3, 4, 1], [0, 2, 3, 4, 1]] := by
  have coherent := built_coherent true procedureNest
  have known : (built true procedureNest : Graph Bool Unit).topology.hasBlock
      procedureReachability.entry = true := by decide +kernel
  have separate : (built true procedureNest : Graph Bool Unit).topology.Separate (some .cache)
      procedureReachability.entry :=
    Topology.separate_of_home coherent.closed known
      (fun block => if block.index < 2 then ⟨0⟩ else if block.index < 4 then ⟨2⟩ else block)
      rfl (by decide +kernel) (by decide +kernel)
  have converged : (procedureReachability.runBounded 5 (built true procedureNest)).ending =
      .converged := by decide +kernel
  have nodes : procedureReachability.scheduledNodes (built true procedureNest) =
      [⟨0⟩, ⟨2⟩, ⟨3⟩, ⟨4⟩, ⟨1⟩] := by decide +kernel
  obtain ⟨-, holds, -⟩ := procedureReachability.solves_procedure_equations true procedureNest
    reachedAcross rfl (assigning_assignedBy (fun _ _ => rfl) fun _ _ _ => rfl) known separate
    (fun block _ => coherent.near_procedureInputs (some .cache) block) converged
  rw [nodes] at holds
  exact ⟨known, separate, converged, holds, by decide +kernel⟩

end BlockFlow
