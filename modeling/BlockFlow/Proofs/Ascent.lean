/-
# BlockFlow.Proofs.Ascent -- monotone equations from the bottom up

Where values are ordered, the rules are monotone and the scheduled nodes start at the
bottom, every change of a run is a step up: no value is ever above what its node is due
(`Rising`).  The values stay below every solution of the equations, so the run comes to
the least one, and it comes there after at most as many changes as the scheduled nodes
have steps to climb (`Analysis.ascent`, `Rising.isLeast`).
-/
import BlockFlow.Proofs.Equations
import Mathlib.Order.KrullDimension
import Mathlib.Algebra.Order.BigOperators.Group.List
import Mathlib.Order.Bounds.Defs

namespace BlockFlow

set_option autoImplicit false

namespace Equations

variable {S K V σ : Type} [PartialOrder V] [OrderBot V] (eqs : Equations S V)

/-- The value at each node, the bottom where the graph has no node. -/
def values (g : Graph S K) (node : NodeId) : V := (eqs.value? g node).getD ⊥

/-- Higher inputs never make a node due less. -/
def MonotoneRules (g : Graph S K) : Prop :=
  ∀ node rule, eqs.rule? g node = some rule →
    ∀ xs ys : List V, List.Forall₂ (· ≤ ·) xs ys → rule xs ≤ rule ys

/-- Values that satisfy the equations of `nodes` and are those of the graph elsewhere. -/
structure Solution (g : Graph S K) (nodes : List NodeId) (w : NodeId → V) : Prop where
  solves : ∀ node ∈ nodes, ∀ rule, eqs.rule? g node = some rule →
    w node = rule ((eqs.inputs g.topology node).map w)
  agrees : ∀ node, node ∉ nodes → ∀ v, eqs.value? g node = some v → w node = v

/-- No value is above what its node is due, or above any solution. -/
structure Rising (start : Graph S K) (nodes : List NodeId) (g : Graph S K) : Prop where
  alike : eqs.Alike start g
  rises : ∀ node ∈ nodes, ∀ rule, eqs.rule? start node = some rule →
    eqs.values g node ≤ rule ((eqs.inputs start.topology node).map (eqs.values g))
  kept : ∀ node, node ∉ nodes → eqs.value? g node = eqs.value? start node
  below : ∀ w, eqs.Solution start nodes w → ∀ node, eqs.values g node ≤ w node

/-- How many steps above the bottom `v` is. -/
noncomputable def rank (v : V) : Nat := (Order.height v).toNat

/-- How many steps the values of `nodes` are above the bottom together. -/
noncomputable def ranks (nodes : List NodeId) (g : Graph S K) : Nat :=
  (nodes.map fun node => rank (eqs.values g node)).sum

variable {eqs}

/-! ## Values of known nodes -/

theorem value?_eq_values {g : Graph S K} {node : NodeId}
    (known : g.topology.hasNode node = true) : eqs.value? g node = some (eqs.values g node) := by
  obtain ⟨data, found⟩ := Graph.hasNode_iff.mp known
  simp [values, value?, Graph.state?, found]

omit [PartialOrder V] [OrderBot V] in
theorem exists_rule {g : Graph S K} {node : NodeId} (known : g.topology.hasNode node = true) :
    ∃ rule, eqs.rule? g node = some rule := by
  obtain ⟨data, found⟩ := Graph.hasNode_iff.mp known
  exact ⟨eqs.rule node data.state, by simp [rule?, Graph.state?, found]⟩

/-- Where the inputs are known, what a node reads are their values. -/
theorem read_eq_values {g : Graph S K} {node : NodeId}
    (inputs : ∀ input ∈ eqs.inputs g.topology node, g.topology.hasNode input = true) :
    eqs.read g node = (eqs.inputs g.topology node).map (eqs.values g) := by
  have some_values : eqs.read g node =
      (eqs.inputs g.topology node).filterMap (some ∘ eqs.values g) :=
    List.filterMap_congr fun input member => value?_eq_values (inputs input member)
  rw [some_values, List.filterMap_eq_map]

/-! ## Ranks -/

section Ranks

variable {h : Nat} (short : ∀ chain : LTSeries V, chain.head = ⊥ → chain.length ≤ h)

include short

theorem height_le (v : V) : Order.height v ≤ h := by
  refine Order.height_le fun chain _ => ?_
  rcases eq_or_lt_of_le (bot_le : ⊥ ≤ chain.head) with same | above
  · exact_mod_cast short chain same.symm
  · have longer := short (chain.cons ⊥ above) (RelSeries.head_cons ..)
    rw [RelSeries.cons_length] at longer
    exact_mod_cast Nat.le_of_succ_le longer

theorem height_ne_top (v : V) : Order.height v ≠ ⊤ :=
  ne_top_of_le_ne_top (ENat.natCast_ne_top h) (height_le short v)

theorem rank_le (v : V) : rank v ≤ h := ENat.toNat_le_of_le_natCast (height_le short v)

theorem rank_mono {v w : V} (le : v ≤ w) : rank v ≤ rank w :=
  ENat.toNat_le_toNat (Order.height_mono le) (height_ne_top short w)

theorem rank_strictMono {v w : V} (lt : v < w) : rank v < rank w := by
  have higher := Order.height_strictMono lt (lt_top_iff_ne_top.mpr (height_ne_top short v))
  rw [← ENat.natCast_toNat (height_ne_top short v), ← ENat.natCast_toNat (height_ne_top short w)] at higher
  exact_mod_cast higher

theorem ranks_le (nodes : List NodeId) (g : Graph S K) :
    eqs.ranks nodes g ≤ h * nodes.length := by
  have bounded := List.sum_le_card_nsmul (nodes.map fun node => rank (eqs.values g node)) h
    fun r member => by
      obtain ⟨node, -, rfl⟩ := List.mem_map.mp member
      exact rank_le short _
  rw [List.length_map, smul_eq_mul, Nat.mul_comm] at bounded
  exact bounded

end Ranks

/-! ## One step up -/

section Visits

variable {transfer : NodeTransfer (Graph S K) σ} {start : Graph S K} {nodes : List NodeId}

omit [OrderBot V] in
theorem forall₂_map_le {v w : NodeId → V} (le : ∀ node, v node ≤ w node) (inputs : List NodeId) :
    List.Forall₂ (· ≤ ·) (inputs.map v) (inputs.map w) := by
  rw [List.forall₂_map_left_iff, List.forall₂_map_right_iff, List.forall₂_same]
  exact fun node _ => le node

/-- A visit of a node gives it the value it is due. -/
theorem values_visit (assigned : eqs.AssignedBy start.topology transfer) {g : Graph S K}
    {node : NodeId} (shaped : g.topology = start.topology) (placed : start.topology.Placed node)
    (inputs : ∀ input ∈ eqs.inputs g.topology node, g.topology.hasNode input = true)
    {rule : List V → V} (found : eqs.rule? g node = some rule) (memory : σ) :
    eqs.values (transfer node g memory).graph node =
      rule ((eqs.inputs g.topology node).map (eqs.values g)) := by
  rw [values, assigned.assigns node g memory shaped placed, due?, found, read_eq_values inputs]
  rfl

/-- A visit of a node leaves the values of other nodes alone. -/
theorem values_visit_other (assigned : eqs.AssignedBy start.topology transfer) {g : Graph S K}
    {node : NodeId} (shaped : g.topology = start.topology) (placed : start.topology.Placed node)
    (memory : σ) {other : NodeId} (apart : other ≠ node) :
    eqs.values (transfer node g memory).graph other = eqs.values g other := by
  rw [values, values, assigned.others node g memory shaped placed other apart]

/-- Visits of nodes whose values rise keep them rising, and every change is a step up. -/
theorem Rising.visit {h : Nat}
    (short : ∀ chain : LTSeries V, chain.head = ⊥ → chain.length ≤ h)
    (assigned : eqs.AssignedBy start.topology transfer) (monotone : eqs.MonotoneRules start)
    (parted : start.topology.Partitioned) (placed : ∀ node ∈ nodes, start.topology.Placed node)
    (inputs : ∀ node ∈ nodes, ∀ input ∈ eqs.inputs start.topology node,
      start.topology.hasNode input = true)
    {g : Graph S K} (rising : eqs.Rising start nodes g) {node : NodeId} (member : node ∈ nodes)
    (memory : σ) :
    eqs.Rising start nodes (transfer node g memory).graph ∧
      eqs.ranks nodes g + (transfer node g memory).changed.toNat ≤
        eqs.ranks nodes (transfer node g memory).graph := by
  obtain ⟨alike, rises, kept, below⟩ := rising
  have shaped := alike.topology
  have here := placed node member
  have known : g.topology.hasNode node = true := alike.hasNode (parted.hasNode here)
  obtain ⟨rule, found⟩ := exists_rule (parted.hasNode here)
  have new : eqs.values (transfer node g memory).graph node =
      rule ((eqs.inputs start.topology node).map (eqs.values g)) := by
    have reads : ∀ input ∈ eqs.inputs g.topology node, g.topology.hasNode input = true := by
      rw [alike.topology]
      exact inputs node member
    rw [values_visit assigned shaped here reads ((alike.rules node).trans found), alike.topology]
  have old : ∀ other, other ≠ node →
      eqs.values (transfer node g memory).graph other = eqs.values g other :=
    fun _ => values_visit_other assigned shaped here memory
  have up : ∀ other, eqs.values g other ≤ eqs.values (transfer node g memory).graph other := by
    intro other
    by_cases same : other = node
    · rw [same, new]
      exact rises node member rule found
    · rw [old other same]
  constructor
  · constructor
    case alike => exact alike.trans (assigned.alike node g memory shaped here)
    case rises =>
      intro other scheduled rule' found'
      -- what the node is due has not gone down, since no input has
      have due := monotone other rule' found' _ _
        (forall₂_map_le up (eqs.inputs start.topology other))
      by_cases same : other = node
      · subst same
        obtain rfl : rule' = rule := Option.some.inj (found'.symm.trans found)
        rw [new]
        exact due
      · rw [old other same]
        exact le_trans (rises other scheduled rule' found') due
    case kept =>
      intro other outside
      have apart : other ≠ node := fun same => outside (same ▸ member)
      exact (assigned.others node g memory shaped here other apart).trans (kept other outside)
    case below =>
      intro w solution other
      by_cases same : other = node
      · rw [same, new, solution.solves node member rule found]
        exact monotone node rule found _ _
          (forall₂_map_le (below w solution) (eqs.inputs start.topology node))
      · rw [old other same]
        exact below w solution other
  · cases changed : (transfer node g memory).changed with
    | false => exact List.sum_le_sum fun other _ => rank_mono short (up other)
    | true =>
        have differs := (assigned.reports node g memory shaped here).mp changed
        have known' := (assigned.alike node g memory shaped here).hasNode known
        rw [value?_eq_values known, value?_eq_values known', Ne, Option.some.injEq] at differs
        have above := lt_of_le_of_ne (up node) (Ne.symm differs)
        exact List.sum_lt_sum _ _ (fun other _ => rank_mono short (up other))
          ⟨node, member, rank_strictMono short above⟩

/-- So do visits of blocks of such nodes. -/
theorem Rising.onEach {h : Nat}
    (short : ∀ chain : LTSeries V, chain.head = ⊥ → chain.length ≤ h)
    (assigned : eqs.AssignedBy start.topology transfer) (monotone : eqs.MonotoneRules start)
    (parted : start.topology.Partitioned) (placed : ∀ node ∈ nodes, start.topology.Placed node)
    (inputs : ∀ node ∈ nodes, ∀ input ∈ eqs.inputs start.topology node,
      start.topology.hasNode input = true)
    {visited : List NodeId} (listed : ∀ node ∈ visited, node ∈ nodes) {g : Graph S K}
    (rising : eqs.Rising start nodes g) (memory : σ) :
    eqs.Rising start nodes (transfer.onEach visited g memory).graph ∧
      eqs.ranks nodes g + (transfer.onEach visited g memory).changed.toNat ≤
        eqs.ranks nodes (transfer.onEach visited g memory).graph := by
  induction visited generalizing g memory with
  | nil => exact ⟨rising, Nat.le_refl _⟩
  | cons node rest ih =>
      obtain ⟨first, step⟩ := rising.visit short assigned monotone parted placed inputs
        (listed node List.mem_cons_self) memory
      obtain ⟨last, steps⟩ := ih (fun other member => listed other (List.mem_cons_of_mem _ member))
        first (transfer node g memory).memory
      refine ⟨last, ?_⟩
      have either : (transfer.onEach (node :: rest) g memory).changed.toNat ≤
          (transfer node g memory).changed.toNat +
            (transfer.onEach rest (transfer node g memory).graph
              (transfer node g memory).memory).changed.toNat := by
        simp only [NodeTransfer.onEach]
        cases (transfer node g memory).changed <;> simp
      refine Nat.le_trans (Nat.add_le_add_left either _) ?_
      rw [← Nat.add_assoc]
      exact Nat.le_trans (Nat.add_le_add_right step _) steps

/-- At the bottom everything can rise. -/
theorem rising_of_bottom {g : Graph S K} (alike : eqs.Alike start g)
    (same : ∀ node, eqs.value? g node = eqs.value? start node)
    (bottom : ∀ node ∈ nodes, eqs.value? start node = some ⊥) : eqs.Rising start nodes g := by
  constructor
  case alike => exact alike
  case rises =>
    intro node member rule _
    rw [values, same, bottom node member]
    exact bot_le
  case kept => exact fun node _ => same node
  case below =>
    intro w solution node
    rw [values, same]
    by_cases member : node ∈ nodes
    · rw [bottom node member]
      exact bot_le
    · cases found : eqs.value? start node with
      | none => exact bot_le
      | some v => exact le_of_eq (solution.agrees node member v found).symm

/-- Where values have risen to satisfy the equations, they are the least solution. -/
theorem Rising.isLeast {g : Graph S K} (rising : eqs.Rising start nodes g)
    (inside : ∀ node ∈ nodes, start.topology.hasNode node = true)
    (inputs : ∀ node ∈ nodes, ∀ input ∈ eqs.inputs start.topology node,
      start.topology.hasNode input = true)
    (holds : ∀ node ∈ nodes, eqs.Holds g node) :
    IsLeast {w | eqs.Solution start nodes w} (eqs.values g) := by
  constructor
  · constructor
    case solves =>
      intro node member rule found
      have here := holds node member
      have known : g.topology.hasNode node = true := rising.alike.hasNode (inside node member)
      have reads : ∀ input ∈ eqs.inputs g.topology node, g.topology.hasNode input = true := by
        rw [rising.alike.topology]
        exact inputs node member
      rw [Holds, value?_eq_values known, due?, rising.alike.rules, found,
        read_eq_values reads, rising.alike.topology, Option.map_some, Option.some.injEq] at here
      exact here
    case agrees =>
      intro node outside v found
      rw [values, rising.kept node outside, found, Option.getD_some]
  · exact fun w solution node => rising.below w solution node

end Visits

end Equations

/-! ## Runs from the bottom -/

namespace Analysis

open Equations

variable {S K V σ : Type} [PartialOrder V] [OrderBot V] {eqs : Equations S V}
  (analysis : Analysis (Graph S K) σ) {transfer : NodeTransfer (Graph S K) σ} {g : Graph S K}
  {h : Nat}

/-- **A run from the bottom converges** when it may make one pass more than all scheduled
nodes together have steps to climb, and wherever it stops no value is too high. -/
theorem ascent (short : ∀ chain : LTSeries V, chain.head = ⊥ → chain.length ≤ h)
    (each : analysis.transfer = .ofNode transfer) (assigned : eqs.AssignedBy g.topology transfer)
    (monotone : eqs.MonotoneRules g) (parted : g.topology.Partitioned)
    (known : g.topology.hasBlock analysis.entry = true)
    (inputs : ∀ node ∈ analysis.scheduledNodes g, ∀ input ∈ eqs.inputs g.topology node,
      g.topology.hasNode input = true)
    (bottom : ∀ node ∈ analysis.scheduledNodes g, eqs.value? g node = some ⊥) (limit : Nat) :
    eqs.Rising g (analysis.scheduledNodes g) (analysis.runBounded limit g).graph ∧
      (1 + h * (analysis.scheduledNodes g).length ≤ limit →
        (analysis.runBounded limit g).ending = .converged) := by
  have placed : ∀ node ∈ analysis.scheduledNodes g, g.topology.Placed node := by
    intro node member
    obtain ⟨block, -, within⟩ := List.mem_flatMap.mp member
    exact ⟨block, within⟩
  have step : ∀ block ∈ analysis.schedule g, ∀ (k : Graph S K) (memory : σ),
      eqs.Rising g (analysis.scheduledNodes g) k →
      eqs.Rising g (analysis.scheduledNodes g) (analysis.transfer block k memory).graph ∧
        eqs.ranks (analysis.scheduledNodes g) k +
            (analysis.transfer block k memory).changed.toNat ≤
          eqs.ranks (analysis.scheduledNodes g) (analysis.transfer block k memory).graph := by
    intro block scheduled k memory rising
    have listed : ∀ node ∈ k.topology.nodes block, node ∈ analysis.scheduledNodes g := by
      rw [rising.alike.topology]
      exact fun node member => List.mem_flatMap.mpr ⟨block, scheduled, member⟩
    rw [each]
    exact rising.onEach short assigned monotone parted placed inputs listed memory
  have begins : eqs.Rising g (analysis.scheduledNodes g) (analysis.start g).graph :=
    rising_of_bottom (analysis.alike_stamped eqs g) (analysis.value?_stamped eqs g) bottom
  have worked := analysis.runBounded_of_calm limit
    (analysis.numbering_calm parted.toClosed known)
  have calls := rounds_calls analysis.transfer (analysis.schedule g) (analysis.Feeds g) limit
    (analysis.schedule g) (analysis.start g)
  have follows := rounds_followsWorklist analysis.transfer (analysis.schedule g)
    (analysis.Feeds g) limit (analysis.schedule g) (analysis.start g)
  rw [worked]
  constructor
  · exact (calls.measured step (follows.block_mem fun _ member => member) begins).1
  · intro enough
    have done : (analysis.passes limit g).converged = true :=
      rounds_converged_of_measure step (fun k _ => ranks_le short _ k) (by omega)
        (analysis.start g) begins
    exact if_pos done

end Analysis

end BlockFlow
