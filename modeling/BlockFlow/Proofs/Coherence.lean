/-
# BlockFlow.Proofs.Coherence -- what holds of every graph that was built step by step

A graph is `Coherent` when its tables agree with each other: the place of a node and the
node list of the block, the two directions of an edge, a subgraph and its entry, and a
block's call-site cache and the nodes that own subgraphs.  Every operation keeps a graph
coherent, so every graph that operations have built is (`built_coherent`).

The cache is the case with an idea in it: a new owner is put at the end of the list and
the list is sorted, and that is the list of owners in block order (`noteSite_filter`).
-/
import BlockFlow.Proofs.History
import BlockFlow.Proofs.Numbering
import Mathlib.Data.List.Sort

namespace BlockFlow

set_option autoImplicit false

/-! ## Call sites in block order -/

theorem pairwise_idxOf {nodes : List NodeId} (distinct : nodes.Nodup) :
    nodes.Pairwise fun a b => nodes.idxOf a ≤ nodes.idxOf b := by
  rw [List.pairwise_iff_getElem]
  intro i j below above order
  rw [distinct.idxOf_getElem i below, distinct.idxOf_getElem j above]
  exact Nat.le_of_lt order

/-- Noting one more owner on the list of owners gives the list of owners. -/
theorem noteSite_filter {nodes : List NodeId} (distinct : nodes.Nodup) {owner : NodeId}
    (member : owner ∈ nodes) (owns : NodeId → Bool) :
    noteSite nodes owner (nodes.filter owns) = nodes.filter fun n => owns n || n = owner := by
  unfold noteSite
  by_cases noted : owner ∈ nodes.filter owns
  · rw [if_pos noted]
    refine List.filter_congr fun n _ => ?_
    by_cases same : n = owner
    · subst same
      simp [(List.mem_filter.mp noted).2]
    · simp [same]
  · rw [if_neg noted]
    have order := pairwise_idxOf distinct
    refine @List.Perm.eq_of_pairwise _ (fun a b => nodes.idxOf a ≤ nodes.idxOf b) _ _ ?_ ?_
      (order.sublist List.filter_sublist) ?_
    · intro a b here there before after
      have inside : b ∈ nodes := List.mem_of_mem_filter there
      exact ((List.idxOf_inj inside).mp (Nat.le_antisymm after before)).symm
    · have sorted := @List.pairwise_mergeSort _
        (fun a b : NodeId => decide (nodes.idxOf a ≤ nodes.idxOf b))
        (by intro a b c; simp only [decide_eq_true_eq]; exact Nat.le_trans)
        (by intro a b; simpa using Nat.le_total _ _) (nodes.filter owns ++ [owner])
      simpa using sorted
    · refine (List.mergeSort_perm _ _).trans ?_
      have once : (nodes.filter owns ++ [owner]).Nodup :=
        List.nodup_append.mpr ⟨distinct.filter _, List.nodup_singleton _, by
          intro a here b single same
          rw [List.mem_singleton] at single
          exact noted (single ▸ same ▸ here)⟩
      rw [List.perm_ext_iff_of_nodup once (distinct.filter _)]
      intro n
      simp only [List.mem_append, List.mem_filter, List.mem_singleton, Bool.or_eq_true,
        decide_eq_true_eq]
      constructor
      · rintro (⟨inside, owned⟩ | rfl)
        · exact ⟨inside, Or.inl owned⟩
        · exact ⟨member, Or.inr rfl⟩
      · rintro ⟨inside, owned | same⟩
        · exact Or.inl ⟨inside, owned⟩
        · exact Or.inr same

namespace Topology

/-- Whether `node` owns a subgraph. -/
def owns (shape : Topology) (node : NodeId) : Bool := !(shape.subgraphs node).isEmpty

end Topology

namespace Graph

variable {S K : Type}

/-! ## Coherent graphs -/

/-- The tables of the graph agree with each other. -/
structure Coherent (g : Graph S K) : Prop where
  /-- A node is placed in the block that lists it. -/
  placed : ∀ node block, g.topology.blockOf node = some block ↔ node ∈ g.topology.nodes block
  /-- No block lists a node twice. -/
  distinct : ∀ block, (g.topology.nodes block).Nodup
  /-- Blocks list nodes of the graph. -/
  node : ∀ block, ∀ node ∈ g.topology.nodes block, g.topology.hasNode node = true
  /-- An edge is known at both ends. -/
  edge : ∀ source target,
    target ∈ g.topology.successors source ↔ source ∈ g.topology.predecessors target
  /-- Edges lead to blocks of the graph. -/
  target : ∀ source, ∀ target ∈ g.topology.successors source, g.topology.hasBlock target = true
  /-- Subgraphs have a handle in the table. -/
  handle : ∀ node, ∀ sub ∈ g.topology.subgraphs node, sub.index < g.subgraphs.size
  /-- A subgraph begins at the first node of a block of the graph. -/
  entry : ∀ node, ∀ sub ∈ g.topology.subgraphs node,
    g.topology.hasBlock (g.topology.entryBlock sub) = true ∧
      (g.topology.nodes (g.topology.entryBlock sub)).head? = some (g.topology.entryNode sub)
  /-- Only placed nodes own subgraphs. -/
  caller : ∀ node, g.topology.owns node = true → ∃ block, node ∈ g.topology.nodes block
  /-- Call-site caches list the owners of the block in block order. -/
  sites : ∀ block sites, g.topology.callSites block = some sites →
    sites = (g.topology.nodes block).filter g.topology.owns

/-- Only blocks of the graph list nodes. -/
theorem hasBlock_of_mem_nodes {g : Graph S K} {node : NodeId} {block : BlockId}
    (member : node ∈ g.topology.nodes block) : g.topology.hasBlock block = true := by
  rw [hasBlock_iff]
  cases found : g.block? block with
  | none => simp [topology, found] at member
  | some data => exact ⟨data, rfl⟩

theorem not_hasBlock_nextBlock (g : Graph S K) : ¬ g.topology.hasBlock g.nextBlock = true := by
  simp [Topology.hasBlock, topology, nextBlock]

namespace Coherent

variable {g g' : Graph S K}

theorem empty (tracks : Bool) : (Graph.empty tracks : Graph S K).Coherent := by
  constructor
  case sites =>
    intro block sites found
    cases tracks with
    | false => simp [topology, Graph.empty] at found
    | true =>
        have none : sites = [] := by simpa [topology, Graph.empty, block?] using found.symm
        simp [none, topology, Graph.empty, block?]
  all_goals simp [topology, Graph.empty, blockOf, node?, block?, Topology.owns]

/-- Coherence is a matter of the topology and the number of subgraphs. -/
theorem of_topology_eq (coherent : g.Coherent) (same : g'.topology = g.topology)
    (count : g'.subgraphs.size = g.subgraphs.size) : g'.Coherent := by
  obtain ⟨placed, distinct, node, edge, target, handle, entry, caller, sites⟩ := coherent
  constructor <;> rw [same]
  case handle => exact count ▸ handle
  all_goals assumption

theorem hasBlock_of_blockOf (coherent : g.Coherent) (node : NodeId) (block : BlockId)
    (placed : g.topology.blockOf node = some block) : g.topology.hasBlock block = true :=
  hasBlock_of_mem_nodes ((coherent.placed node block).mp placed)

/-- A block lists only nodes placed there, so two blocks share none. -/
theorem block_unique (coherent : g.Coherent) {node : NodeId} {a b : BlockId}
    (inA : node ∈ g.topology.nodes a) (inB : node ∈ g.topology.nodes b) : a = b := by
  have placedA := (coherent.placed node a).mpr inA
  have placedB := (coherent.placed node b).mpr inB
  exact Option.some.inj (placedA.symm.trans placedB)

theorem addNode (coherent : g.Coherent) (state : S) : (g.addNode state).2.Coherent := by
  obtain ⟨placed, distinct, node, edge, target, handle, entry, caller, sites⟩ := coherent
  constructor <;> rw [topology_addNode]
  case node =>
    intro block n member
    have bound : n.index < g.topology.nodeCount := of_decide_eq_true (node block n member)
    exact decide_eq_true (Nat.lt_succ_of_lt bound)
  case handle => exact handle
  all_goals assumption

theorem addBlock (coherent : g.Coherent) {nodes : List NodeId} {block : BlockId}
    (accepted : g.addBlock nodes = .ok (block, g')) : g'.Coherent := by
  obtain ⟨rfl, subgraphs, -, once, free, shape⟩ := addBlock_spec accepted
  have fresh := g.not_hasBlock_nextBlock
  -- a node that is to be placed was in no block, so it owns nothing
  have outside : ∀ n ∈ nodes, ∀ b, n ∉ g.topology.nodes b := by
    intro n new b old
    have place := (coherent.placed n b).mpr old
    rw [(free n new).2] at place
    cases place
  constructor <;> rw [shape]
  case placed =>
    intro n b
    dsimp only
    by_cases new : n ∈ nodes <;> by_cases here : b = g.nextBlock
    · simp [new, here]
    · simp [new, here, outside n new b, Ne.symm here]
    · have elsewhere : ¬ g.topology.blockOf n = some b := by
        intro place
        exact fresh (here ▸ coherent.hasBlock_of_blockOf n b place)
      simp only [new, here, if_true, if_false]
      exact iff_of_false (here ▸ elsewhere) (by simp)
    · simp only [new, here, if_false]
      exact coherent.placed n b
  case distinct =>
    intro b
    dsimp only
    split
    · exact once
    · exact coherent.distinct b
  case node =>
    intro b n member
    dsimp only at member
    split at member
    · exact (free n member).1
    · exact coherent.node b n member
  case edge => exact coherent.edge
  case target =>
    intro a b member
    have bound : b.index < g.topology.blockCount := of_decide_eq_true (coherent.target a b member)
    exact decide_eq_true (Nat.lt_succ_of_lt bound)
  case handle =>
    intro n sub member
    rw [subgraphs]
    exact coherent.handle n sub member
  case entry =>
    intro n sub member
    obtain ⟨known, first⟩ := coherent.entry n sub member
    have old : g.topology.entryBlock sub ≠ g.nextBlock := fun same => fresh (same ▸ known)
    have bound : (g.topology.entryBlock sub).index < g.topology.blockCount :=
      of_decide_eq_true known
    refine ⟨decide_eq_true (Nat.lt_succ_of_lt bound), ?_⟩
    dsimp only
    rw [if_neg old]
    exact first
  case caller =>
    intro n owner
    obtain ⟨b, member⟩ := coherent.caller n owner
    have old : b ≠ g.nextBlock := fun same => fresh (same ▸ hasBlock_of_mem_nodes member)
    refine ⟨b, ?_⟩
    dsimp only
    rw [if_neg old]
    exact member
  case sites =>
    intro b sites found
    have listed := coherent.sites b sites found
    dsimp only
    split
    · rename_i same
      subst same
      have none : g.topology.nodes g.nextBlock = [] := by
        refine List.eq_nil_iff_forall_not_mem.mpr fun n member => ?_
        exact fresh (hasBlock_of_mem_nodes member)
      rw [none] at listed
      rw [listed, List.filter_nil, eq_comm, List.filter_eq_nil_iff]
      intro n new owner
      obtain ⟨b, old⟩ := coherent.caller n owner
      exact outside n new b old
    · exact listed

theorem addEdge (coherent : g.Coherent) {source target : BlockId}
    (accepted : g.addEdge source target = .ok g') : g'.Coherent := by
  obtain ⟨start, finish, subgraphs, shape⟩ := addEdge_spec accepted
  obtain ⟨placed, distinct, node, edge, known, handle, entry, caller, sites⟩ := coherent
  constructor <;> rw [shape]
  case edge =>
    intro a b
    have old := edge a b
    dsimp only
    by_cases out : a = source <;> by_cases back : b = target
    · simp [out, back, Distinct.mem_add]
    · simpa [out, back, Distinct.mem_add] using out ▸ old
    · simpa [out, back, Distinct.mem_add] using back ▸ old
    · simpa [out, back] using old
  case target =>
    intro a b member
    dsimp only at member
    split at member
    · rcases Distinct.mem_add.mp member with old | rfl
      · exact known a b old
      · exact finish
    · exact known a b member
  case handle =>
    rw [subgraphs]
    exact handle
  all_goals assumption

theorem addSubgraph (coherent : g.Coherent) {owner : NodeId} {entry : BlockId} {sub : SubgraphId}
    (accepted : g.addSubgraph owner entry = .ok (sub, g')) : g'.Coherent := by
  obtain ⟨rfl, count, home, first, place, -, known, head, shape⟩ :=
    addSubgraph_spec coherent.hasBlock_of_blockOf accepted
  have member : owner ∈ g.topology.nodes home := (coherent.placed owner home).mp place
  -- the handle is new, so what older handles stand for has not changed
  have old : ∀ n, ∀ s ∈ g.topology.subgraphs n, s ≠ g.nextSubgraph := by
    intro n s listed same
    have bound := coherent.handle n s listed
    rw [same] at bound
    exact Nat.lt_irrefl _ bound
  have owns : ∀ n, g'.topology.owns n = (g.topology.owns n || n = owner) := by
    intro n
    rw [shape]
    by_cases same : n = owner <;> simp [Topology.owns, same]
  constructor
  case sites =>
    intro b sites found
    rw [shape] at found
    simp only [Option.map_eq_some_iff] at found
    obtain ⟨before, cached, rfl⟩ := found
    have listed := coherent.sites b before cached
    have now : g'.topology.nodes b = g.topology.nodes b := by rw [shape]
    rw [now, funext owns]
    split
    · rename_i same
      subst same
      rw [listed]
      exact noteSite_filter (coherent.distinct b) member _
    · rename_i apart
      rw [listed]
      refine List.filter_congr fun n inside => ?_
      have other : n ≠ owner := by
        intro same
        exact apart (coherent.block_unique inside (same ▸ member))
      simp [other]
  case caller =>
    intro n owner'
    have now : g'.topology.nodes = g.topology.nodes := by rw [shape]
    rw [now]
    rw [owns, Bool.or_eq_true, decide_eq_true_eq] at owner'
    rcases owner' with before | rfl
    · exact coherent.caller n before
    · exact ⟨home, member⟩
  case handle =>
    intro n s listed
    rw [count]
    rw [shape] at listed
    dsimp only at listed
    split at listed
    · rcases List.mem_append.mp listed with before | new
      · exact Nat.lt_succ_of_lt (coherent.handle n s before)
      · rw [List.mem_singleton] at new
        exact new ▸ Nat.lt_succ_self _
    · exact Nat.lt_succ_of_lt (coherent.handle n s listed)
  case entry =>
    intro n s listed
    rw [shape] at listed ⊢
    dsimp only at listed ⊢
    by_cases new : s = g.nextSubgraph
    · simp only [new, if_true]
      exact ⟨known, head⟩
    · simp only [new, if_false]
      split at listed
      · rcases List.mem_append.mp listed with before | single
        · exact coherent.entry n s before
        · exact absurd (List.mem_singleton.mp single) new
      · exact coherent.entry n s listed
  all_goals rw [shape]
  case placed => exact coherent.placed
  case distinct => exact coherent.distinct
  case node => exact coherent.node
  case edge => exact coherent.edge
  case target => exact coherent.target

/-! ## What a traversal finds -/

/-- Both ways of looking for calls find the subgraphs of all nodes of the block. -/
theorem callees_eq (coherent : g.Coherent) (how : Discovery) (block : BlockId) :
    g.topology.callees how block =
      (g.topology.nodes block).flatMap g.topology.subgraphs := by
  cases how with
  | scan => rfl
  | cache =>
      unfold Topology.callees Topology.sites
      cases cached : g.topology.callSites block with
      | none => rfl
      | some sites =>
          -- the nodes that the cache leaves out own nothing
          rw [coherent.sites block sites cached]
          dsimp only [Option.getD_some]
          induction g.topology.nodes block with
          | nil => rfl
          | cons node rest ih =>
              by_cases owner : g.topology.owns node = true
              · rw [List.filter_cons_of_pos owner, List.flatMap_cons, List.flatMap_cons, ih]
              · have none : g.topology.subgraphs node = [] := by simpa [Topology.owns] using owner
                rw [List.filter_cons_of_neg owner, List.flatMap_cons, ih, none, List.nil_append]

theorem mem_nodes_of_mem_sites (coherent : g.Coherent) {how : Discovery} {block : BlockId}
    {node : NodeId} (site : node ∈ g.topology.sites how block) :
    node ∈ g.topology.nodes block := by
  cases how with
  | scan => exact site
  | cache =>
      cases cached : g.topology.callSites block with
      | none => simpa [Topology.sites, cached] using site
      | some sites =>
          rw [Topology.sites, cached, Option.getD_some, coherent.sites block sites cached] at site
          exact List.mem_of_mem_filter site

/-- A walk on a coherent graph meets nothing that is not there. -/
theorem closed (coherent : g.Coherent) : g.topology.Closed where
  successor block _ := coherent.target block
  site how block _ node site := coherent.node block node (coherent.mem_nodes_of_mem_sites site)
  entry how block _ sub called := by
    rw [coherent.callees_eq, List.mem_flatMap] at called
    obtain ⟨node, -, owned⟩ := called
    exact (coherent.entry node sub owned).1

end Coherent

theorem stepwise_coherent : Stepwise (Coherent : Graph S K → Prop) where
  addNode _ state coherent := coherent.addNode state
  addBlock _ _ _ _ coherent accepted := coherent.addBlock accepted
  addEdge _ _ _ _ coherent accepted := coherent.addEdge accepted
  setEntry _ _ _ coherent accepted := by
    obtain ⟨-, rfl⟩ := setEntry_spec accepted
    exact coherent.of_topology_eq rfl rfl
  addSubgraph _ _ _ _ _ coherent accepted := coherent.addSubgraph accepted
  setParameters _ _ _ _ coherent accepted := by
    obtain ⟨shape, subgraphs⟩ := setParameters_spec accepted
    exact coherent.of_topology_eq shape (congrArg Array.size subgraphs)
  modifyState _ _ _ coherent := coherent.of_topology_eq (topology_modifyState ..) rfl
  setOrder _ _ _ coherent := coherent.of_topology_eq (topology_setOrder ..) rfl
  clearOrders _ coherent := coherent.of_topology_eq (topology_clearOrders _) rfl

/-- **Every graph that operations have built is coherent.** -/
theorem built_coherent (tracks : Bool) (ops : List (Op S K)) : (built tracks ops).Coherent :=
  stepwise_coherent.history ops (Coherent.empty tracks)

end Graph

end BlockFlow
