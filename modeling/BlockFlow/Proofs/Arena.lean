/-
# BlockFlow.Proofs.Arena -- the tables of a graph after any operations

A graph says several things twice: where a node is placed and what a block lists, an edge at
its source and at its target, a call at its owner, in the table of subgraphs and in the cache
of the owner's block, and the first node of a procedure in the subgraph and in its entry
block.  `Arena` says of each table what its entries are, with every handle they hold in range.

Whatever operations are tried, in whatever order and whether they are accepted or refused,
what they have built is such an arena (`built_arena`).  Three invariants carry this:

* `Coherent`, what the topology shows;
* `Filed`, what a traversal does not read: the handles of blocks, the caches of graphs that
  keep none, and the entry of the graph;
* `Owned`, the table of subgraphs as the account of all calls.

Agreement alone leaves open where the entries come from.  The edge lists have a history that no
table shows, told in `BlockFlow.Proofs.EdgeLists`; the other entries are those of the accepted
operations, in their order and with nothing left out (`BlockFlow.Proofs.TableEntries`).
-/
import BlockFlow.Proofs.EdgeLists
import BlockFlow.Proofs.TableEntries

namespace BlockFlow

set_option autoImplicit false

namespace Graph

variable {S K : Type}

/-! ## What the tables hold -/

/-- The subgraphs that `node` owns, in the order they were attached. -/
def ownedBy (g : Graph S K) (node : NodeId) : List SubgraphId :=
  ((List.range g.subgraphs.size).map SubgraphId.mk).filter fun sub =>
    (g.subgraph? sub).any (·.owner = node)

/-- All node handles that are stored, other than those of parameters. -/
def nodeHandles (g : Graph S K) : List NodeId :=
  g.blocks.toList.flatMap (fun block => block.nodes ++ block.callSites) ++
    g.subgraphs.toList.flatMap fun sub => [sub.owner, sub.entryNode]

/-- All block handles that are stored. -/
def blockHandles (g : Graph S K) : List BlockId :=
  g.nodes.toList.filterMap (·.block) ++
    g.blocks.toList.flatMap (fun block => block.id :: (block.successors ++ block.predecessors)) ++
    g.subgraphs.toList.map (·.entryBlock) ++ g.entry.toList

/-- All subgraph handles that are stored. -/
def subgraphHandles (g : Graph S K) : List SubgraphId := g.nodes.toList.flatMap (·.subgraphs)

/-- The tables agree with each other, and `edges` were added in turn. -/
structure Arena (g : Graph S K) (tracks : Bool) (edges : List (BlockId × BlockId)) : Prop where
  /-- Call sites are tracked if they were from the start. -/
  tracking : g.tracksCallSites = tracks
  /-- A block stands in the table at its handle. -/
  id : ∀ block data, g.block? block = some data → data.id = block
  /-- A block lists nodes, and none of them twice. -/
  nodes : ∀ block data, g.block? block = some data → data.nodes ≠ [] ∧ data.nodes.Nodup
  /-- A node is placed in the block that lists it. -/
  placed : ∀ node block,
    g.blockOf node = some block ↔ ∃ data, g.block? block = some data ∧ node ∈ data.nodes
  /-- Successors are the targets of the edges from the block, in the order they came first. -/
  successors : ∀ block data, g.block? block = some data →
    data.successors = (targets edges block).eraseDups
  /-- Predecessors are the sources of the edges to the block, in the order they came first. -/
  predecessors : ∀ block data, g.block? block = some data →
    data.predecessors = (sources edges block).eraseDups
  /-- No block is listed twice at one end of its edges. -/
  edgesOnce : ∀ block data, g.block? block = some data →
    data.successors.Nodup ∧ data.predecessors.Nodup
  /-- An edge is listed at both of its ends. -/
  bothEnds : ∀ source target start finish,
    g.block? source = some start → g.block? target = some finish →
      (source ∈ finish.predecessors ↔ target ∈ start.successors)
  /-- A subgraph is owned by a placed node. -/
  owner : ∀ sub data, g.subgraph? sub = some data → ∃ block, g.blockOf data.owner = some block
  /-- A subgraph begins at the first node of its entry block. -/
  entryNode : ∀ sub data, g.subgraph? sub = some data →
    ∃ entry, g.block? data.entryBlock = some entry ∧ entry.nodes.head? = some data.entryNode
  /-- A node lists the subgraphs it owns, in the order they were attached. -/
  subgraphs : ∀ node data, g.node? node = some data → data.subgraphs = g.ownedBy node
  /-- Tracked call sites are the nodes of the block that own subgraphs, in block order. -/
  callSites : tracks = true → ∀ block data, g.block? block = some data →
    data.callSites = data.nodes.filter fun node => !(g.ownedBy node).isEmpty
  /-- Handles of nodes are in range. -/
  nodeHandle : ∀ node ∈ g.nodeHandles, node.index < g.nodes.size
  /-- Handles of blocks are in range. -/
  blockHandle : ∀ block ∈ g.blockHandles, block.index < g.blocks.size
  /-- Handles of subgraphs are in range. -/
  subgraphHandle : ∀ sub ∈ g.subgraphHandles, sub.index < g.subgraphs.size

/-- Attaching a subgraph adds it to its table; blocks change in nothing but a call site. -/
theorem addSubgraph_eq {g g' : Graph S K} {owner : NodeId} {entry : BlockId} {sub : SubgraphId}
    (accepted : g.addSubgraph owner entry = .ok (sub, g')) :
    ∃ (home : BlockId) (first : NodeId) (attached : Graph S K),
      g' = (if g.tracksCallSites then attached.modifyBlock home (·.addCallSite owner)
        else attached) ∧
      attached.subgraphs = g.subgraphs.push ⟨owner, entry, first⟩ ∧
      attached.blocks = g.blocks ∧ attached.entry = g.entry ∧
      attached.tracksCallSites = g.tracksCallSites := by
  obtain ⟨caller, found, accepted⟩ := bind_ok accepted
  cases placed : caller.block with
  | none =>
      simp only [placed] at accepted
      cases accepted
  | some home =>
      simp only [placed] at accepted
      obtain ⟨data, target, accepted⟩ := bind_ok accepted
      cases accepted
      exact ⟨home, data.first, _, rfl, rfl, rfl, rfl, rfl⟩

/-! ## What no traversal reads -/

/-- Blocks, caches that are not kept and the entry are as they were filed. -/
structure Filed (g : Graph S K) (tracks : Bool) : Prop where
  /-- Call sites are tracked if they were from the start. -/
  tracking : g.tracksCallSites = tracks
  /-- A block stands in the table at its handle. -/
  id : ∀ block data, g.block? block = some data → data.id = block
  /-- A graph that does not track call sites notes none. -/
  untracked : tracks = false → ∀ block data, g.block? block = some data → data.callSites = []
  /-- The entry is a block of the graph. -/
  entry : ∀ block, g.entry = some block → g.topology.hasBlock block = true

namespace Filed

variable {g g' : Graph S K} {tracks : Bool}

theorem empty (tracks : Bool) : (Graph.empty tracks : Graph S K).Filed tracks := by
  constructor <;> simp [Graph.empty, block?]

/-- A step that makes no block may change blocks in what is not filed. -/
theorem of_blocks (filed : g.Filed tracks) (same : g'.tracksCallSites = g.tracksCallSites)
    (entry : g'.entry = g.entry) (size : g'.blocks.size = g.blocks.size)
    (read : ∀ block data, g'.block? block = some data → ∃ before, g.block? block = some before ∧
      data.id = before.id ∧ (tracks = false → data.callSites = before.callSites)) :
    g'.Filed tracks := by
  constructor
  case tracking => exact same.trans filed.tracking
  case id =>
    intro block data found
    obtain ⟨before, here, id, -⟩ := read block data found
    exact id.trans (filed.id block before here)
  case untracked =>
    intro untracked block data found
    obtain ⟨before, here, -, callSites⟩ := read block data found
    exact (callSites untracked).trans (filed.untracked untracked block before here)
  case entry =>
    intro block chosen
    have known : block.index < g.blocks.size :=
      of_decide_eq_true (filed.entry block (entry ▸ chosen))
    exact decide_eq_true (known.trans_eq size.symm)

theorem of_blocks_eq (filed : g.Filed tracks) (blocks : g'.blocks = g.blocks)
    (entry : g'.entry = g.entry) (same : g'.tracksCallSites = g.tracksCallSites) :
    g'.Filed tracks := by
  refine filed.of_blocks same entry (congrArg Array.size blocks) fun block data found => ?_
  rw [block?, blocks] at found
  exact ⟨data, found, rfl, fun _ => rfl⟩

theorem modifyBlock (filed : g.Filed tracks) (block : BlockId) {f : Block → Block}
    (id : ∀ data, (f data).id = data.id)
    (callSites : tracks = false → ∀ data, (f data).callSites = data.callSites) :
    (g.modifyBlock block f).Filed tracks := by
  refine filed.of_blocks rfl rfl Array.size_modify fun b data found => ?_
  rw [block?_modifyBlock] at found
  split at found
  · obtain ⟨before, here, rfl⟩ := Option.map_eq_some_iff.mp found
    exact ⟨before, here, id before, fun untracked => callSites untracked before⟩
  · exact ⟨data, found, rfl, fun _ => rfl⟩

theorem addBlock (filed : g.Filed tracks) {nodes : List NodeId} {block : BlockId}
    (accepted : g.addBlock nodes = .ok (block, g')) : g'.Filed tracks := by
  cases nodes with
  | nil => cases accepted
  | cons first rest =>
      unfold Graph.addBlock at accepted
      dsimp only at accepted
      split at accepted
      · cases accepted
      · cases accepted
        rw [place_eq]
        have read := block?_push g { id := g.nextBlock, first, rest }
        constructor
        case tracking => exact filed.tracking
        case id =>
          intro b data found
          replace found := (read b).symm.trans found
          split at found
          · rename_i same
            cases found
            exact same.symm
          · exact filed.id b data found
        case untracked =>
          intro untracked b data found
          replace found := (read b).symm.trans found
          split at found
          · cases found
            rfl
          · exact filed.untracked untracked b data found
        case entry =>
          intro b chosen
          have known : b.index < g.blocks.size := of_decide_eq_true (filed.entry b chosen)
          exact decide_eq_true ((Nat.lt_succ_of_lt known).trans_eq (Array.size_push _).symm)

theorem addSubgraph (filed : g.Filed tracks) {owner : NodeId} {entry : BlockId}
    {sub : SubgraphId} (accepted : g.addSubgraph owner entry = .ok (sub, g')) :
    g'.Filed tracks := by
  obtain ⟨home, first, attached, rfl, -, blocks, chosen, same⟩ := addSubgraph_eq accepted
  have before : attached.Filed tracks := filed.of_blocks_eq blocks chosen same
  split
  · rename_i tracked
    refine before.modifyBlock home (fun block => ?_) fun untracked => ?_
    · rw [addCallSite_eq]
    · exact absurd (filed.tracking.symm.trans tracked) (Bool.eq_false_iff.mp untracked)
  · exact before

end Filed

theorem stepwise_filed (tracks : Bool) : Stepwise fun g : Graph S K => g.Filed tracks where
  addNode _ _ filed := filed.of_blocks_eq rfl rfl rfl
  addBlock _ _ _ _ filed accepted := filed.addBlock accepted
  addEdge _ _ _ _ filed accepted := by
    obtain ⟨leaving, start, accepted⟩ := bind_ok accepted
    obtain ⟨entering, finish, accepted⟩ := bind_ok accepted
    cases accepted
    refine Filed.modifyBlock (Filed.modifyBlock filed _ ?_ ?_) _ ?_ ?_
    all_goals intros; rfl
  setEntry _ _ _ filed accepted := by
    obtain ⟨known, rfl⟩ := setEntry_spec accepted
    exact ⟨filed.tracking, filed.id, filed.untracked,
      fun _ chosen => Option.some.inj chosen ▸ known⟩
  addSubgraph _ _ _ _ _ filed accepted := filed.addSubgraph accepted
  setParameters _ _ _ _ filed accepted := by
    obtain ⟨data, found, accepted⟩ := bind_ok accepted
    cases accepted
    exact filed.of_blocks_eq rfl rfl rfl
  modifyState _ _ _ filed := filed.of_blocks_eq rfl rfl rfl
  setOrder _ block _ filed := filed.modifyBlock block (fun _ => rfl) fun _ _ => rfl
  clearOrders g filed := by
    refine filed.of_blocks rfl rfl Array.size_map fun block data found => ?_
    obtain ⟨before, here, rfl⟩ := Option.map_eq_some_iff.mp (block?_clearOrders g block ▸ found)
    exact ⟨before, here, rfl, fun _ => rfl⟩

/-! ## Who owns which subgraph -/

/-- The lists of subgraphs at the nodes are what the table of subgraphs says. -/
def Owned (g : Graph S K) : Prop := ∀ node, g.topology.subgraphs node = g.ownedBy node

theorem ownedBy_congr {g g' : Graph S K} (same : g'.subgraphs = g.subgraphs) (node : NodeId) :
    g'.ownedBy node = g.ownedBy node := by
  unfold ownedBy subgraph?
  rw [same]

/-- A new subgraph is the last that its owner owns. -/
theorem ownedBy_push {g g' : Graph S K} {made : Subgraph}
    (pushed : g'.subgraphs = g.subgraphs.push made) (node : NodeId) :
    g'.ownedBy node =
      if node = made.owner then g.ownedBy node ++ [g.nextSubgraph] else g.ownedBy node := by
  have read (sub : SubgraphId) : g'.subgraph? sub =
      if sub = g.nextSubgraph then some made else g.subgraph? sub := by
    rw [← subgraph?_push, ← pushed]
    rfl
  have before : ((List.range g.subgraphs.size).map SubgraphId.mk).filter (fun sub =>
      (g'.subgraph? sub).any (·.owner = node)) = g.ownedBy node := by
    refine List.filter_congr fun sub member => ?_
    obtain ⟨i, below, rfl⟩ := List.mem_map.mp member
    have old : (⟨i⟩ : SubgraphId) ≠ g.nextSubgraph := by
      intro same
      have index : i = g.subgraphs.size := congrArg SubgraphId.index same
      exact absurd (List.mem_range.mp below) (by omega)
    rw [read, if_neg old]
  have last : g'.subgraph? ⟨g.subgraphs.size⟩ = some made := (read _).trans (if_pos rfl)
  rw [ownedBy, pushed, Array.size_push, List.range_succ, List.map_append, List.filter_append, before]
  by_cases owner : made.owner = node
  · rw [if_pos owner.symm]
    simp [last, owner, nextSubgraph]
  · rw [if_neg (Ne.symm owner)]
    simp [last, owner]

namespace Owned

variable {g g' : Graph S K}

theorem of_eq (owned : g.Owned) (lists : g'.topology.subgraphs = g.topology.subgraphs)
    (table : g'.subgraphs = g.subgraphs) : g'.Owned := by
  intro node
  rw [lists, ownedBy_congr table]
  exact owned node

theorem of_topology_eq (owned : g.Owned) (same : g'.topology = g.topology)
    (table : g'.subgraphs = g.subgraphs) : g'.Owned :=
  owned.of_eq (by rw [same]) table

theorem addSubgraph (owned : g.Owned) (coherent : g.Coherent) {owner : NodeId} {entry : BlockId}
    {sub : SubgraphId} (accepted : g.addSubgraph owner entry = .ok (sub, g')) : g'.Owned := by
  obtain ⟨rfl, -, home, first, -, -, -, -, shape⟩ :=
    addSubgraph_spec coherent.hasBlock_of_blockOf accepted
  obtain ⟨_, _, attached, made, table, -⟩ := addSubgraph_eq accepted
  have pushed : g'.subgraphs = attached.subgraphs := by
    rw [made]
    split <;> rfl
  intro node
  rw [shape, ownedBy_push (pushed.trans table), ← owned node]

end Owned

theorem stepwise_owned : Stepwise fun g : Graph S K => g.Coherent ∧ g.Owned where
  addNode _ state := fun ⟨coherent, owned⟩ =>
    ⟨coherent.addNode state, owned.of_eq (by rw [topology_addNode]) rfl⟩
  addBlock _ _ _ _ := fun ⟨coherent, owned⟩ accepted => by
    obtain ⟨-, table, -, -, -, shape⟩ := addBlock_spec accepted
    exact ⟨coherent.addBlock accepted, owned.of_eq (by rw [shape]) table⟩
  addEdge _ _ _ _ := fun ⟨coherent, owned⟩ accepted => by
    obtain ⟨-, -, table, shape⟩ := addEdge_spec accepted
    exact ⟨coherent.addEdge accepted, owned.of_eq (by rw [shape]) table⟩
  setEntry _ _ _ := fun ⟨coherent, owned⟩ accepted =>
    ⟨stepwise_coherent.setEntry _ _ _ coherent accepted, by
      obtain ⟨-, rfl⟩ := setEntry_spec accepted
      exact owned⟩
  addSubgraph _ _ _ _ _ := fun ⟨coherent, owned⟩ accepted =>
    ⟨coherent.addSubgraph accepted, owned.addSubgraph coherent accepted⟩
  setParameters _ _ _ _ := fun ⟨coherent, owned⟩ accepted => by
    obtain ⟨shape, table⟩ := setParameters_spec accepted
    exact ⟨stepwise_coherent.setParameters _ _ _ _ coherent accepted,
      owned.of_topology_eq shape table⟩
  modifyState _ _ _ := fun ⟨coherent, owned⟩ =>
    ⟨stepwise_coherent.modifyState _ _ _ coherent,
      owned.of_topology_eq (topology_modifyState ..) rfl⟩
  setOrder _ _ _ := fun ⟨coherent, owned⟩ =>
    ⟨stepwise_coherent.setOrder _ _ _ coherent, owned.of_topology_eq (topology_setOrder ..) rfl⟩
  clearOrders _ := fun ⟨coherent, owned⟩ =>
    ⟨stepwise_coherent.clearOrders _ coherent, owned.of_topology_eq (topology_clearOrders _) rfl⟩

theorem built_owned (tracks : Bool) (ops : List (Op S K)) : (built tracks ops).Owned :=
  (stepwise_owned.history ops ⟨Coherent.empty tracks, fun _ => rfl⟩).2

/-! ## Arenas -/

section Tables

variable {g : Graph S K}

theorem exists_node? {data : Node S K} (member : data ∈ g.nodes.toList) :
    ∃ node, g.node? node = some data := by
  obtain ⟨i, found⟩ := List.mem_iff_getElem?.mp member
  exact ⟨⟨i⟩, by simpa [node?] using found⟩

theorem exists_block? {data : Block} (member : data ∈ g.blocks.toList) :
    ∃ block, g.block? block = some data := by
  obtain ⟨i, found⟩ := List.mem_iff_getElem?.mp member
  exact ⟨⟨i⟩, by simpa [block?] using found⟩

theorem exists_subgraph? {data : Subgraph} (member : data ∈ g.subgraphs.toList) :
    ∃ sub, g.subgraph? sub = some data := by
  obtain ⟨i, found⟩ := List.mem_iff_getElem?.mp member
  exact ⟨⟨i⟩, by simpa [subgraph?] using found⟩

theorem mem_topology_nodes {node : NodeId} {block : BlockId} :
    node ∈ g.topology.nodes block ↔ ∃ data, g.block? block = some data ∧ node ∈ data.nodes := by
  cases found : g.block? block <;> simp [topology, found]

/-- Only blocks of the graph have successors. -/
theorem hasBlock_of_mem_successors {source target : BlockId}
    (member : target ∈ g.topology.successors source) : g.topology.hasBlock source = true := by
  rw [hasBlock_iff]
  cases found : g.block? source with
  | none => simp [topology, found] at member
  | some data => exact ⟨data, rfl⟩

/-- A subgraph of the table is owned by its owner. -/
theorem mem_ownedBy {sub : SubgraphId} {data : Subgraph} (found : g.subgraph? sub = some data) :
    sub ∈ g.ownedBy data.owner := by
  refine List.mem_filter.mpr ⟨List.mem_map.mpr ⟨sub.index, ?_, rfl⟩, ?_⟩
  · exact List.mem_range.mpr (Array.getElem?_eq_some_iff.mp found).1
  · simp [found]

end Tables

section Accounts

variable {g : Graph S K} {tracks : Bool} {edges : List (BlockId × BlockId)}

/-- The owner of a subgraph is placed, and the subgraph begins where its entry block does. -/
theorem Owned.subgraph (owned : g.Owned) (coherent : g.Coherent) {sub : SubgraphId}
    {data : Subgraph} (found : g.subgraph? sub = some data) :
    (∃ block, data.owner ∈ g.topology.nodes block) ∧
      ∃ entry, g.block? data.entryBlock = some entry ∧
        entry.nodes.head? = some data.entryNode := by
  have listed : sub ∈ g.topology.subgraphs data.owner := owned data.owner ▸ mem_ownedBy found
  have owner : g.topology.owns data.owner = true := by
    simpa [Topology.owns] using List.ne_nil_of_mem listed
  obtain ⟨known, first⟩ := coherent.entry data.owner sub listed
  have begins : g.topology.entryBlock sub = data.entryBlock := by simp [topology, found]
  have leads : g.topology.entryNode sub = data.entryNode := by simp [topology, found]
  rw [begins, leads] at first
  obtain ⟨entry, target⟩ := hasBlock_iff.mp (begins ▸ known)
  exact ⟨coherent.caller _ owner, entry, target, by simpa [topology, target] using first⟩

/-- A block notes no callers but its own nodes. -/
theorem Filed.callSites_subset (filed : g.Filed tracks) (coherent : g.Coherent) {block : BlockId}
    {data : Block} (found : g.block? block = some data) : data.callSites ⊆ data.nodes := by
  cases tracked : tracks with
  | false =>
      rw [filed.untracked tracked block data found]
      exact List.nil_subset _
  | true =>
      have cached : g.topology.callSites block = some data.callSites := by
        simp [topology, filed.tracking, tracked, found]
      have listed := coherent.sites block _ cached
      have nodes : g.topology.nodes block = data.nodes := by simp [topology, found]
      rw [listed, nodes]
      exact List.filter_subset_self _

theorem Coherent.nodeHandle (coherent : g.Coherent) (filed : g.Filed tracks) (owned : g.Owned) :
    ∀ node ∈ g.nodeHandles, node.index < g.nodes.size := by
  have placed : ∀ block, ∀ node ∈ g.topology.nodes block, node.index < g.nodes.size :=
    fun block node member => of_decide_eq_true (coherent.node block node member)
  intro node stored
  rcases List.mem_append.mp stored with stored | stored
  · obtain ⟨data, member, inside⟩ := List.mem_flatMap.mp stored
    obtain ⟨block, found⟩ := exists_block? member
    refine placed block node (mem_topology_nodes.mpr ⟨data, found, ?_⟩)
    rcases List.mem_append.mp inside with listed | caller
    · exact listed
    · exact filed.callSites_subset coherent found caller
  · obtain ⟨data, member, inside⟩ := List.mem_flatMap.mp stored
    obtain ⟨sub, found⟩ := exists_subgraph? member
    obtain ⟨⟨block, owner⟩, entry, target, first⟩ := owned.subgraph coherent found
    rcases List.mem_pair.mp inside with rfl | rfl
    · exact placed block _ owner
    · exact placed data.entryBlock _
        (mem_topology_nodes.mpr ⟨entry, target, List.mem_of_mem_head? first⟩)

theorem Coherent.blockHandle (coherent : g.Coherent) (filed : g.Filed tracks) (owned : g.Owned) :
    ∀ block ∈ g.blockHandles, block.index < g.blocks.size := by
  have bound : ∀ block, g.topology.hasBlock block = true → block.index < g.blocks.size :=
    fun _ known => of_decide_eq_true known
  intro block stored
  refine bound block ?_
  simp only [blockHandles, List.mem_append, List.mem_filterMap, List.mem_flatMap, List.mem_map,
    List.mem_cons, Option.mem_toList] at stored
  rcases stored with
    ((⟨data, member, place⟩ | ⟨data, member, own | next | before⟩) | ⟨data, member, rfl⟩) | chosen
  · obtain ⟨node, found⟩ := exists_node? member
    exact coherent.hasBlock_of_blockOf node block (by simp [topology, blockOf, found, place])
  · obtain ⟨home, found⟩ := exists_block? member
    rw [own, filed.id home data found]
    exact hasBlock_iff.mpr ⟨data, found⟩
  · obtain ⟨home, found⟩ := exists_block? member
    exact coherent.target home block (by simpa [topology, found] using next)
  · -- a predecessor has a successor, so it is a block
    obtain ⟨home, found⟩ := exists_block? member
    have leaves : home ∈ g.topology.successors block :=
      (coherent.edge block home).mpr (by simpa [topology, found] using before)
    exact hasBlock_of_mem_successors leaves
  · obtain ⟨sub, found⟩ := exists_subgraph? member
    obtain ⟨-, entry, target, -⟩ := owned.subgraph coherent found
    exact hasBlock_iff.mpr ⟨entry, target⟩
  · exact filed.entry block chosen

theorem Coherent.subgraphHandle (coherent : g.Coherent) :
    ∀ sub ∈ g.subgraphHandles, sub.index < g.subgraphs.size := by
  intro sub stored
  obtain ⟨data, member, listed⟩ := List.mem_flatMap.mp stored
  obtain ⟨node, found⟩ := exists_node? member
  exact coherent.handle node sub (by simpa [topology, found] using listed)

/-- A graph whose accounts agree is an arena. -/
theorem Coherent.arena (coherent : g.Coherent) (filed : g.Filed tracks) (owned : g.Owned)
    (added : ∀ block, g.topology.successors block = (targets edges block).eraseDups ∧
      g.topology.predecessors block = (sources edges block).eraseDups) : g.Arena tracks edges := by
  have nodes : ∀ {block data}, g.block? block = some data →
      g.topology.nodes block = data.nodes := fun found => by simp [topology, found]
  have successors : ∀ {block data}, g.block? block = some data →
      data.successors = (targets edges block).eraseDups := fun {block data} found => by
    rw [← (added block).1]
    simp [topology, found]
  have predecessors : ∀ {block data}, g.block? block = some data →
      data.predecessors = (sources edges block).eraseDups := fun {block data} found => by
    rw [← (added block).2]
    simp [topology, found]
  constructor
  case tracking => exact filed.tracking
  case id => exact filed.id
  case nodes =>
    intro block data found
    exact ⟨List.cons_ne_nil _ _, nodes found ▸ coherent.distinct block⟩
  case placed =>
    intro node block
    exact (coherent.placed node block).trans mem_topology_nodes
  case successors => exact fun _ _ => successors
  case predecessors => exact fun _ _ => predecessors
  case edgesOnce =>
    intro block data found
    rw [successors found, predecessors found, ← Distinct.addAll_nil, ← Distinct.addAll_nil]
    exact ⟨Distinct.nodup_addAll _ List.nodup_nil, Distinct.nodup_addAll _ List.nodup_nil⟩
  case bothEnds =>
    intro source target start finish leaving entering
    have edge := coherent.edge source target
    rw [(added source).1, (added target).2, ← successors leaving, ← predecessors entering] at edge
    exact edge.symm
  case owner =>
    intro sub data found
    obtain ⟨⟨block, member⟩, -⟩ := owned.subgraph coherent found
    exact ⟨block, (coherent.placed _ block).mpr member⟩
  case entryNode => exact fun _ _ found => (owned.subgraph coherent found).2
  case subgraphs =>
    intro node data found
    rw [← owned node]
    simp [topology, found]
  case callSites =>
    rintro rfl block data found
    have cached : g.topology.callSites block = some data.callSites := by
      simp [topology, filed.tracking, found]
    rw [coherent.sites block _ cached, nodes found]
    refine List.filter_congr fun node _ => ?_
    rw [Topology.owns, owned node]
  case nodeHandle => exact coherent.nodeHandle filed owned
  case blockHandle => exact coherent.blockHandle filed owned
  case subgraphHandle => exact coherent.subgraphHandle

end Accounts

/-- **Whatever operations are tried, they build an arena.**  Its edges are those added by the
calls that were not refused, and its tables hold what the accepted operations put in: every node,
every block and every subgraph is the next entry of its table. -/
theorem built_arena (tracks : Bool) (ops : List (Op S K)) :
    (built tracks ops).Arena tracks ((empty tracks).edgesAlong ops) ∧
      (built tracks ops).entries =
        ((empty tracks).accepted ops).foldl Entries.record Entries.empty := by
  have coherent : (built tracks ops).Coherent := built_coherent tracks ops
  have filed := (stepwise_filed tracks).history ops (Filed.empty (S := S) (K := K) tracks)
  exact ⟨coherent.arena filed (built_owned tracks ops) fun block => built_edges tracks ops block,
    entries_history ops (empty tracks)⟩

end Graph

end BlockFlow
