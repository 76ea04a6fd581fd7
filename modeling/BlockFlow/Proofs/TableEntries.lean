/-
# BlockFlow.Proofs.TableEntries -- where the entries of the tables come from

Handles are given out in order, so the tables of a graph can be told from the operations alone.
`Entries` is what the tables were filled with: the state of each node, the nodes of each block,
the owner and the entry block of each subgraph, and the entry of the graph.  `Entries.record`
says what an operation puts in, and it does not ask whether the operation is accepted.

Each step puts in just what it names, behind what is there; states and the entry are all that is
ever written again (`entries_addNode` and those after it).  The shapes are put together from steps, so an accepted
operation puts in what is recorded of it (`entries_run`).  A refused one changes nothing, so
after a history the tables hold the record of the operations `accepted` (`entries_history`).
-/
import BlockFlow.Proofs.InPlace

namespace BlockFlow

set_option autoImplicit false

namespace Graph

variable {S K : Type}

/-- What the tables of a graph were filled with, each entry at the place of its handle. -/
structure Entries (S : Type) where
  /-- What is known at each node. -/
  states : List S
  /-- The nodes of each block. -/
  blocks : List (List NodeId)
  /-- The owner of each subgraph, and the block where it begins. -/
  calls : List (NodeId × BlockId)
  /-- The block control enters first, once it is chosen. -/
  entry : Option BlockId
deriving DecidableEq

namespace Entries

/-- Nothing was put in. -/
def empty : Entries S := ⟨[], [], [], none⟩

/-- A block of fresh nodes, one for each state. -/
def freshBlock (entries : Entries S) (states : List S) : Entries S :=
  { entries with
    states := entries.states ++ states
    blocks := entries.blocks ++
      [(List.range states.length).map fun j => NodeId.mk (entries.states.length + j)] }

/-- What an operation puts in. -/
def record (entries : Entries S) : Op S K → Entries S
  | .addNode state => { entries with states := entries.states ++ [state] }
  | .addBlock nodes => { entries with blocks := entries.blocks ++ [nodes] }
  | .setEntry block => { entries with entry := some block }
  | .addSubgraph owner entryBlock | .addCall owner entryBlock _ =>
    { entries with calls := entries.calls ++ [(owner, entryBlock)] }
  | .addFreshBlock states => entries.freshBlock states
  | .addChain len state | .addRing len state =>
    ((List.range len).map state).foldl (fun entries state => entries.freshBlock [state]) entries
  | .modifyState node f => { entries with states := entries.states.modify node.index f }
  | .addEdge _ _ | .setParameters _ _ | .setOrder _ _ | .clearOrders => entries

end Entries

/-- What the tables hold, other than what each step keeps up with in them. -/
def entries (g : Graph S K) : Entries S where
  states := g.nodes.toList.map (·.state)
  blocks := g.blocks.toList.map (·.nodes)
  calls := g.subgraphs.toList.map fun sub => (sub.owner, sub.entryBlock)
  entry := g.entry

/-- The operations that are not refused, tried in turn. -/
def accepted (g : Graph S K) : List (Op S K) → List (Op S K)
  | [] => []
  | op :: rest =>
    match op.run g with
    | .ok g' => op :: accepted g' rest
    | .error _ => accepted g rest

/-! ## Single steps -/

section Steps

variable {g g' : Graph S K}

/-- What is attached to a node may change without its state. -/
theorem entries_modifyNode (g : Graph S K) (node : NodeId) {f : Node S K → Node S K}
    (same : ∀ data, (f data).state = data.state) : (g.modifyNode node f).entries = g.entries := by
  simp only [entries, modifyNode, ← Array.toList_map, map_modify_of_eq same]

/-- And what is attached to a block, without its nodes. -/
theorem entries_modifyBlock (g : Graph S K) (block : BlockId) {f : Block → Block}
    (same : ∀ data, (f data).nodes = data.nodes) : (g.modifyBlock block f).entries = g.entries := by
  simp only [entries, modifyBlock, ← Array.toList_map, map_modify_of_eq same]

theorem entries_addNode (g : Graph S K) (state : S) :
    (g.addNode state).2.entries = { g.entries with states := g.entries.states ++ [state] } := by
  simp [entries, addNode]

theorem entries_place (g : Graph S K) (block : BlockId) (nodes : List NodeId) :
    (g.place block nodes).entries = g.entries := by
  induction nodes generalizing g with
  | nil => rfl
  | cons node rest ih => exact (ih _).trans (entries_modifyNode g node fun _ => rfl)

theorem entries_addBlock {nodes : List NodeId} {block : BlockId}
    (accepted : g.addBlock nodes = .ok (block, g')) :
    g'.entries = { g.entries with blocks := g.entries.blocks ++ [nodes] } := by
  cases nodes with
  | nil => cases accepted
  | cons first rest =>
      unfold addBlock at accepted
      dsimp only at accepted
      split at accepted
      · cases accepted
      · cases accepted
        rw [← entries_place g g.nextBlock (first :: rest)]
        simp [entries, Block.nodes]

theorem entries_addEdge {source target : BlockId} (accepted : g.addEdge source target = .ok g') :
    g'.entries = g.entries := by
  obtain ⟨leaving, start, accepted⟩ := bind_ok accepted
  obtain ⟨entering, finish, accepted⟩ := bind_ok accepted
  cases accepted
  rw [entries_modifyBlock, entries_modifyBlock]
  all_goals exact fun _ => rfl

theorem entries_setEntry {block : BlockId} (accepted : g.setEntry block = .ok g') :
    g'.entries = { g.entries with entry := some block } := by
  obtain ⟨-, rfl⟩ := setEntry_spec accepted
  rfl

theorem entries_addSubgraph {owner : NodeId} {entryBlock : BlockId} {sub : SubgraphId}
    (accepted : g.addSubgraph owner entryBlock = .ok (sub, g')) :
    g'.entries = { g.entries with calls := g.entries.calls ++ [(owner, entryBlock)] } := by
  obtain ⟨caller, found, accepted⟩ := bind_ok accepted
  cases placed : caller.block with
  | none =>
      simp only [placed] at accepted
      cases accepted
  | some home =>
      simp only [placed] at accepted
      obtain ⟨data, target, accepted⟩ := bind_ok accepted
      cases accepted
      have owned := entries_modifyNode g owner (f := fun data =>
        { data with subgraphs := data.subgraphs ++ [g.nextSubgraph] }) fun _ => rfl
      rw [← owned]
      split
      · rw [entries_modifyBlock]
        · simp [entries]
        · intro data
          rw [addCallSite_eq]
          rfl
      · simp [entries]

theorem entries_setParameters {node : NodeId} {params : Parameters K}
    (accepted : g.setParameters node params = .ok g') : g'.entries = g.entries := by
  obtain ⟨data, found, accepted⟩ := bind_ok accepted
  cases accepted
  exact entries_modifyNode g node fun _ => rfl

theorem entries_modifyState (g : Graph S K) (node : NodeId) (f : S → S) :
    (g.modifyState node f).entries =
      { g.entries with states := g.entries.states.modify node.index f } := by
  have states : (g.modifyState node f).entries.states =
      g.entries.states.modify node.index f := by
    refine List.ext_getElem? fun i => ?_
    simp only [entries, modifyState, modifyNode, Array.toList_modify, List.getElem?_map,
      List.getElem?_modify]
    cases g.nodes.toList[i]? <;> split <;> rfl
  rw [← states]
  rfl

/-! ## Shapes -/

theorem entries_addNodes (states : List S) (g : Graph S K) :
    (g.addNodes states).2.entries =
      { g.entries with states := g.entries.states ++ states } := by
  induction states generalizing g with
  | nil => simp [addNodes]
  | cons state rest ih =>
      show ((g.addNode state).2.addNodes rest).2.entries = _
      rw [ih, entries_addNode]
      simp

theorem entries_addFreshBlock {states : List S} {block : BlockId}
    (accepted : g.addFreshBlock states = .ok (block, g')) :
    g'.entries = g.entries.freshBlock states := by
  have made : (g.addNodes states).2.addBlock (g.addNodes states).1 = .ok (block, g') := accepted
  rw [entries_addBlock made, entries_addNodes, (addNodes_fresh states g).2]
  simp [Entries.freshBlock, entries]

theorem entries_addEdgeFrom {previous : Option BlockId} {block : BlockId}
    (accepted : g.addEdgeFrom previous block = .ok g') : g'.entries = g.entries := by
  cases previous with
  | none =>
      cases accepted
      rfl
  | some before => exact entries_addEdge accepted

theorem entries_addChainAfter {states : List S} {g g' : Graph S K} {previous : Option BlockId}
    {blocks : List BlockId} (accepted : g.addChainAfter previous states = .ok (blocks, g')) :
    g'.entries = states.foldl (fun entries state => entries.freshBlock [state]) g.entries := by
  induction states generalizing g g' previous blocks with
  | nil =>
      cases accepted
      rfl
  | cons state rest ih =>
      obtain ⟨⟨block, made⟩, fresh, accepted⟩ := bind_ok accepted
      obtain ⟨linked, edge, accepted⟩ := bind_ok accepted
      obtain ⟨⟨others, last⟩, later, accepted⟩ := bind_ok accepted
      cases accepted
      rw [ih later, entries_addEdgeFrom edge, entries_addFreshBlock fresh]
      rfl

theorem entries_addRing {len : Nat} {state : Nat → S} {blocks : List BlockId}
    (accepted : g.addRing len state = .ok (blocks, g')) :
    g'.entries = g.entries.record (.addRing len state : Op S K) := by
  obtain ⟨⟨chain, made⟩, straight, accepted⟩ := bind_ok accepted
  have line : made.entries = g.entries.record (.addRing len state : Op S K) :=
    entries_addChainAfter straight
  cases chain with
  | nil =>
      cases accepted
      exact line
  | cons first rest =>
      obtain ⟨closed, edge, accepted⟩ := bind_ok accepted
      cases accepted
      exact (entries_addEdge edge).trans line

theorem entries_addCall {owner : NodeId} {entryBlock : BlockId} {params : Option (Parameters K)}
    {sub : SubgraphId} (accepted : g.addCall owner entryBlock params = .ok (sub, g')) :
    g'.entries = { g.entries with calls := g.entries.calls ++ [(owner, entryBlock)] } := by
  obtain ⟨⟨made, attached⟩, call, accepted⟩ := bind_ok accepted
  cases params with
  | none =>
      cases accepted
      exact entries_addSubgraph call
  | some declared =>
      obtain ⟨entry, found, accepted⟩ := bind_ok accepted
      obtain ⟨last, declares, accepted⟩ := bind_ok accepted
      cases accepted
      exact (entries_setParameters declares).trans (entries_addSubgraph call)

/-! ## Operations -/

/-- **An accepted operation puts in what is recorded of it.** -/
theorem entries_run {op : Op S K} (accepted : op.run g = .ok g') :
    g'.entries = g.entries.record op := by
  cases op with
  | addNode state =>
      cases accepted
      exact entries_addNode g state
  | addBlock nodes =>
      obtain ⟨block, accepted⟩ := answer_ok accepted
      exact entries_addBlock accepted
  | addEdge source target => exact entries_addEdge accepted
  | setEntry block => exact entries_setEntry accepted
  | addSubgraph owner entryBlock =>
      obtain ⟨sub, accepted⟩ := answer_ok accepted
      exact entries_addSubgraph accepted
  | setParameters node params => exact entries_setParameters accepted
  | addFreshBlock states =>
      obtain ⟨block, accepted⟩ := answer_ok accepted
      exact entries_addFreshBlock accepted
  | addChain len state =>
      obtain ⟨blocks, accepted⟩ := answer_ok accepted
      exact entries_addChainAfter accepted
  | addRing len state =>
      obtain ⟨blocks, accepted⟩ := answer_ok accepted
      exact entries_addRing accepted
  | addCall owner entryBlock params =>
      obtain ⟨sub, accepted⟩ := answer_ok accepted
      exact entries_addCall accepted
  | modifyState node f =>
      cases accepted
      exact entries_modifyState g node f
  | setOrder block k =>
      cases accepted
      exact entries_modifyBlock g block fun _ => rfl
  | clearOrders =>
      cases accepted
      simp only [entries, clearOrders, Array.toList_map, List.map_map]
      rfl

end Steps

/-- **A history makes of the tables what the record of its accepted operations makes of them.** -/
theorem entries_history (ops : List (Op S K)) (g : Graph S K) :
    (g.history ops).entries = (g.accepted ops).foldl Entries.record g.entries := by
  induction ops generalizing g with
  | nil => rfl
  | cons op rest ih =>
      show ((op.apply g).history rest).entries = _
      rw [ih, accepted]
      cases outcome : op.run g with
      | error reason => simp only [Op.apply, outcome]
      | ok g' => simp only [Op.apply, outcome, List.foldl_cons, entries_run outcome]

/-- Two blocks, a call, and a block of nodes that have one already. -/
example : (built true [.addFreshBlock [3, 4], .addChain 1 fun _ => 5, .addCall ⟨0⟩ ⟨1⟩ none,
    .addBlock [⟨1⟩], .modifyState ⟨1⟩ (· + 1)] : Graph Nat Unit).entries =
      ⟨[3, 5, 5], [[⟨0⟩, ⟨1⟩], [⟨2⟩]], [(⟨0⟩, ⟨1⟩)], none⟩ := by
  decide +kernel

end Graph

end BlockFlow
