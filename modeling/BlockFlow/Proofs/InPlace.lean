/-
# BlockFlow.Proofs.InPlace -- construction that writes as it goes

A construction step answers with a new graph or with a refusal, and after a refusal the graph it
was tried on is still there.  Here the same steps are programs that own a single graph and write
to it piece by piece (`Edit`): whatever has been written when a program is refused stays written.

Still a refused program leaves its graph untouched (`Op.on_edit`).  Single steps look at all their
arguments before they write.  The shapes are put together from steps with writes in between, so
for them it matters that once the first write is made no later step is refused:

* fresh nodes are detached, so they can always become a block (`addFreshBlock_ok`);
* the edges of a chain or a ring join blocks that have just been made;
* after a call is attached its entry block still has a first node, which can be given
  parameters, because the tables of the graph agree (`addCall_ok`).
-/
import BlockFlow.Proofs.Coherence
import BlockFlow.Proofs.Shapes

namespace BlockFlow

set_option autoImplicit false

/-- A program on one graph, which it changes in place.  A refusal takes nothing back. -/
abbrev Edit (S K α : Type) := ExceptT GraphError (StateM (Graph S K)) α

namespace Edit

variable {S K α β : Type}

/-- What the program answers when it is run on `g`, and the graph it leaves. -/
def on (edit : Edit S K α) (g : Graph S K) : Except GraphError α × Graph S K := edit.run.run g

/-! ## Single steps -/

/-- Look up a node. -/
def node (node : NodeId) : Edit S K (Node S K) := do
  match (← get).node? node with
  | some data => return data
  | none => throw (.unknownNode node)

/-- Look up a block. -/
def block (block : BlockId) : Edit S K Block := do
  match (← get).block? block with
  | some data => return data
  | none => throw (.unknownBlock block)

def addNode (state : S) : Edit S K NodeId := do
  let id := (← get).nextNode
  modify fun g => { g with nodes := g.nodes.push { state } }
  return id

/-- Look at `nodes` one by one: each must be known, detached and new to the block `id`. -/
def checkNodes (id : BlockId) : (earlier nodes : List NodeId) → Edit S K Unit
  | _, [] => return
  | earlier, first :: rest => do
    let data ← node first
    if let some home := data.block then
      throw (.alreadyPlaced first home)
    if first ∈ earlier then
      throw (.alreadyPlaced first id)
    checkNodes id (first :: earlier) rest

def addBlock (nodes : List NodeId) : Edit S K BlockId := do
  match nodes with
  | [] => throw .emptyBlock
  | first :: rest =>
    let id := (← get).nextBlock
    checkNodes id [] nodes
    nodes.forM fun node => modify (·.modifyNode node fun data => { data with block := some id })
    modify fun g => { g with blocks := g.blocks.push { id, first, rest } }
    return id

def addEdge (source target : BlockId) : Edit S K Unit := do
  let _ ← block source
  let _ ← block target
  modify (·.modifyBlock source fun b => { b with successors := Distinct.add b.successors target })
  modify (·.modifyBlock target fun b => { b with predecessors := Distinct.add b.predecessors source })

def setEntry (entry : BlockId) : Edit S K Unit := do
  let _ ← block entry
  modify fun g => { g with entry := some entry }

def addSubgraph (owner : NodeId) (entryBlock : BlockId) : Edit S K SubgraphId := do
  let caller ← node owner
  let some home := caller.block | throw (.notPlaced owner)
  let entry ← block entryBlock
  let id := (← get).nextSubgraph
  modify fun g => { g with subgraphs := g.subgraphs.push ⟨owner, entryBlock, entry.first⟩ }
  modify (·.modifyNode owner fun n => { n with subgraphs := n.subgraphs ++ [id] })
  if (← get).tracksCallSites then
    modify (·.modifyBlock home (·.addCallSite owner))
  return id

def setParameters (node : NodeId) (params : Parameters K) : Edit S K Unit := do
  let _ ← Edit.node node
  modify (·.modifyNode node fun n => { n with parameters := some params })

/-! ## Shapes -/

def addNodes : List S → Edit S K (List NodeId)
  | [] => return []
  | state :: rest => do
    let id ← addNode state
    return id :: (← addNodes rest)

def addFreshBlock (states : List S) : Edit S K BlockId := do
  addBlock (← addNodes states)

def addEdgeFrom (previous : Option BlockId) (block : BlockId) : Edit S K Unit :=
  match previous with
  | none => return
  | some before => addEdge before block

def addChainAfter (previous : Option BlockId) : List S → Edit S K (List BlockId)
  | [] => return []
  | state :: rest => do
    let block ← addFreshBlock [state]
    addEdgeFrom previous block
    return block :: (← addChainAfter (some block) rest)

def addRing (len : Nat) (state : Nat → S) : Edit S K (List BlockId) := do
  let blocks ← addChainAfter none ((List.range len).map state)
  match blocks with
  | [] => return []
  | first :: rest =>
    addEdge (rest.getLastD first) first
    return first :: rest

def addCall (owner : NodeId) (entryBlock : BlockId) (params : Option (Parameters K)) :
    Edit S K SubgraphId := do
  let sub ← addSubgraph owner entryBlock
  if let some declared := params then
    setParameters (← block entryBlock).first declared
  return sub

/-! ## Running programs -/

theorem on_get (g : Graph S K) : (get : Edit S K (Graph S K)).on g = (.ok g, g) := rfl

theorem on_modify (f : Graph S K → Graph S K) (g : Graph S K) :
    (modify f : Edit S K PUnit).on g = (.ok (), f g) := rfl

theorem on_bind (edit : Edit S K α) (next : α → Edit S K β) (g : Graph S K) :
    (edit >>= next).on g = match edit.on g with
      | (.ok a, g') => (next a).on g'
      | (.error reason, g') => (.error reason, g') := by
  cases ran : edit.on g with
  | mk outcome g' =>
      unfold on at ran ⊢
      simp only [ExceptT.run_bind, StateT.run_bind, ran]
      cases outcome <;> rfl

/-- What a step comes to when it is tried on `g`: a refusal leaves `g` as it was. -/
def settled (g : Graph S K) : Except GraphError (α × Graph S K) → Except GraphError α × Graph S K
  | .ok (a, g') => (.ok a, g')
  | .error reason => (.error reason, g)

/-! ## Single steps look before they write -/

theorem on_node (node : NodeId) (g : Graph S K) : (Edit.node node).on g = (g.requireNode node, g) := by
  rw [Edit.node, on_bind, on_get]
  unfold Graph.requireNode
  cases found : g.node? node <;> simp only [found] <;> rfl

theorem on_block (block : BlockId) (g : Graph S K) :
    (Edit.block block).on g = (g.requireBlock block, g) := by
  rw [Edit.block, on_bind, on_get]
  unfold Graph.requireBlock
  cases found : g.block? block <;> simp only [found] <;> rfl

theorem on_checkNodes (id : BlockId) (earlier nodes : List NodeId) (g : Graph S K) :
    (checkNodes id earlier nodes).on g = match g.placementError id earlier nodes with
      | some reason => (.error reason, g)
      | none => (.ok (), g) := by
  induction nodes generalizing earlier with
  | nil => rfl
  | cons first rest ih =>
      rw [checkNodes, on_bind, on_node, Graph.placementError]
      unfold Graph.requireNode
      cases g.node? first with
      | none => rfl
      | some data =>
          dsimp only
          cases data.block with
          | some home => rfl
          | none =>
              by_cases repeated : first ∈ earlier
              · simp only [repeated, if_true]
                rfl
              · simp only [repeated, if_false]
                exact ih _

theorem on_place (id : BlockId) (nodes : List NodeId) (g : Graph S K) :
    (nodes.forM fun node => (modify (·.modifyNode node fun data =>
      { data with block := some id }) : Edit S K PUnit)).on g = (.ok (), g.place id nodes) := by
  induction nodes generalizing g with
  | nil => rfl
  | cons first rest ih =>
      rw [List.forM, on_bind, on_modify]
      exact ih _

theorem on_addBlock (nodes : List NodeId) (g : Graph S K) :
    (addBlock nodes).on g = settled g (g.addBlock nodes) := by
  cases nodes with
  | nil => rfl
  | cons first rest =>
      rw [addBlock, on_bind, on_get]
      dsimp only
      rw [on_bind, on_checkNodes, Graph.addBlock]
      cases g.placementError g.nextBlock [] (first :: rest) with
      | some reason => rfl
      | none =>
          dsimp only
          rw [on_bind, on_place]
          rfl

/-- A step that answers with nothing but the graph. -/
def alone (step : Except GraphError (Graph S K)) : Except GraphError (Unit × Graph S K) :=
  (fun g => ((), g)) <$> step

theorem on_addEdge (source target : BlockId) (g : Graph S K) :
    (addEdge source target).on g = settled g (alone (g.addEdge source target)) := by
  rw [addEdge, on_bind, on_block, Graph.addEdge]
  cases g.requireBlock source with
  | error reason => rfl
  | ok leaving =>
      dsimp only
      rw [on_bind, on_block]
      cases g.requireBlock target <;> rfl

theorem on_setEntry (entry : BlockId) (g : Graph S K) :
    (setEntry entry).on g = settled g (alone (g.setEntry entry)) := by
  rw [setEntry, on_bind, on_block, Graph.setEntry]
  cases g.requireBlock entry <;> rfl

theorem on_setParameters (node : NodeId) (params : Parameters K) (g : Graph S K) :
    (setParameters node params).on g = settled g (alone (g.setParameters node params)) := by
  rw [setParameters, on_bind, on_node, Graph.setParameters]
  cases g.requireNode node <;> rfl

theorem on_addSubgraph (owner : NodeId) (entryBlock : BlockId) (g : Graph S K) :
    (addSubgraph owner entryBlock).on g = settled g (g.addSubgraph owner entryBlock) := by
  rw [addSubgraph, on_bind, on_node, Graph.addSubgraph]
  cases g.requireNode owner with
  | error reason => rfl
  | ok caller =>
      obtain ⟨state, _ | home, subgraphs, parameters⟩ := caller
      · rfl
      · dsimp only
        rw [on_bind, on_block]
        cases g.requireBlock entryBlock with
        | error reason => rfl
        | ok entry =>
            simp only [on_bind, on_get, on_modify]
            obtain ⟨nodes, blocks, table, chosen, _ | _⟩ := g <;> rfl

/-! ## Shapes are not refused half-way -/

theorem on_addNodes (states : List S) (g : Graph S K) :
    (addNodes states).on g = (.ok (g.addNodes states).1, (g.addNodes states).2) := by
  induction states generalizing g with
  | nil => rfl
  | cons state rest ih =>
      rw [addNodes, on_bind]
      show (addNodes rest >>= fun others => pure (g.nextNode :: others)).on (g.addNode state).2 = _
      rw [on_bind, ih]
      rfl

end Edit

namespace Graph

variable {S K : Type}

/-- Fresh nodes are detached, and no two of them are the same. -/
theorem addNodes_fresh (states : List S) (g : Graph S K) :
    (g.addNodes states).2.topology =
        { g.topology with nodeCount := g.topology.nodeCount + states.length } ∧
      (g.addNodes states).1 =
        (List.range states.length).map fun j => NodeId.mk (g.nodes.size + j) := by
  induction states generalizing g with
  | nil => exact ⟨rfl, rfl⟩
  | cons state rest ih =>
      obtain ⟨shape, nodes⟩ := ih (g.addNode state).2
      constructor
      · show ((g.addNode state).2.addNodes rest).2.topology = _
        rw [shape, topology_addNode, List.length_cons]
        simp only [Topology.mk.injEq, and_true, true_and]
        omega
      · show g.nextNode :: ((g.addNode state).2.addNodes rest).1 = _
        have size : (g.addNode state).2.nodes.size = g.nodes.size + 1 := Array.size_push _
        rw [nodes, size, List.length_cons, List.range_succ_eq_map, List.map_cons, List.map_map]
        congr 1
        exact List.map_congr_left fun j _ => congrArg NodeId.mk (Nat.succ_add_eq_add_succ _ j)

/-- Fresh nodes can always become a block, unless there are none of them. -/
theorem addFreshBlock_ok (g : Graph S K) {states : List S} (some_state : states ≠ []) :
    ∃ made, g.addFreshBlock states = .ok made := by
  obtain ⟨shape, nodes⟩ := addNodes_fresh states g
  have free : (g.addNodes states).2.placementError (g.addNodes states).2.nextBlock []
      (g.addNodes states).1 = none := by
    rw [placementError_eq_none, shape, nodes]
    refine ⟨?_, ?_, by simp⟩
    · intro node member
      obtain ⟨j, below, rfl⟩ := List.mem_map.mp member
      rw [List.mem_range] at below
      constructor
      · refine decide_eq_true ?_
        show g.nodes.size + j < g.nodes.size + states.length
        omega
      · simp [topology, blockOf, node?]
    · refine List.nodup_range.map fun i j same => ?_
      simpa using same
  unfold addFreshBlock
  dsimp only
  cases made : (g.addNodes states).1 with
  | nil =>
      have length := congrArg List.length (made.symm.trans nodes)
      rw [List.length_map, List.length_range, List.length_nil] at length
      exact absurd (List.eq_nil_of_length_eq_zero length.symm) some_state
  | cons first rest =>
      rw [made] at free
      simp only [addBlock, free]
      exact ⟨_, rfl⟩

/-- Once a call is attached, its entry block has a first node to declare parameters at. -/
theorem addCall_ok {g g' : Graph S K} (coherent : g.Coherent) {owner : NodeId} {entryBlock : BlockId}
    {sub : SubgraphId} (accepted : g.addSubgraph owner entryBlock = .ok (sub, g'))
    (params : Parameters K) :
    ∃ entry g'', g'.requireBlock entryBlock = .ok entry ∧
      g'.setParameters entry.first params = .ok g'' := by
  have after := coherent.addSubgraph accepted
  obtain ⟨-, -, home, first, -, -, known, -, shape⟩ :=
    addSubgraph_spec coherent.hasBlock_of_blockOf accepted
  have there : g'.topology.hasBlock entryBlock = true := by
    rw [shape]
    exact known
  obtain ⟨entry, found⟩ := hasBlock_iff.mp there
  have listed : entry.first ∈ g'.topology.nodes entryBlock := by
    simp [topology, found, Block.nodes]
  obtain ⟨data, here⟩ := hasNode_iff.mp (after.node entryBlock entry.first listed)
  have declares : ∃ g'', g'.setParameters entry.first params = .ok g'' := by
    rw [setParameters, requireNode_eq_ok.mpr here]
    exact ⟨_, rfl⟩
  obtain ⟨g'', declares⟩ := declares
  exact ⟨entry, g'', requireBlock_eq_ok.mpr found, declares⟩

end Graph

namespace Edit

variable {S K : Type}

open BlockFlow.Graph (addFreshBlock_singleton addEdgeFrom_ok addChainAfter_ok addChain_ok addRing_ok)

theorem on_addFreshBlock (states : List S) (g : Graph S K) :
    (addFreshBlock states).on g = settled g (g.addFreshBlock states) := by
  rw [addFreshBlock, on_bind, on_addNodes]
  dsimp only
  rw [on_addBlock]
  cases states with
  | nil => rfl
  | cons state rest =>
      obtain ⟨⟨block, g'⟩, ok⟩ := g.addFreshBlock_ok (List.cons_ne_nil state rest)
      have made : (g.addNodes (state :: rest)).2.addBlock (g.addNodes (state :: rest)).1 =
        .ok (block, g') := ok
      rw [ok, made]
      rfl

theorem on_addEdgeFrom (previous : Option BlockId) (block : BlockId) (g : Graph S K) :
    (addEdgeFrom previous block).on g = settled g (alone (g.addEdgeFrom previous block)) := by
  cases previous with
  | none => rfl
  | some before => exact on_addEdge before block g

/-- A chain is made block by block, and no block of it is refused. -/
theorem on_addChainAfter (states : List S) (g : Graph S K) {previous : Option BlockId}
    (known : ∀ before ∈ previous, g.topology.hasBlock before = true) :
    (addChainAfter previous states).on g = settled g (g.addChainAfter previous states) := by
  induction states generalizing g previous with
  | nil => rfl
  | cons state rest ih =>
      obtain ⟨linked, edge, first⟩ := g.addEdgeFrom_ok state known
      have blocks : linked.blocks.size = g.blocks.size + 1 := first.blockCount
      have here : ∀ before ∈ some g.nextBlock, linked.topology.hasBlock before = true := by
        rintro before ⟨⟩
        exact decide_eq_true (Nat.lt_of_lt_of_eq (Nat.lt_succ_self _) blocks.symm)
      obtain ⟨g', accepted, -⟩ := addChainAfter_ok rest linked here
      have later := ih linked here
      rw [accepted] at later
      rw [addChainAfter, on_bind, on_addFreshBlock, addFreshBlock_singleton]
      dsimp only [settled]
      rw [on_bind, on_addEdgeFrom, edge]
      show (addChainAfter (some g.nextBlock) rest >>= fun others =>
        pure (g.nextBlock :: others)).on linked = _
      rw [on_bind, later, Graph.addChainAfter, addFreshBlock_singleton]
      simp only [bind, Except.bind, edge, accepted]
      rfl

theorem on_addChain (len : Nat) (state : Nat → S) (g : Graph S K) :
    (addChainAfter none ((List.range len).map state)).on g = settled g (g.addChain len state) :=
  on_addChainAfter _ g fun _ absent => absurd absent (Option.not_mem_none _)

theorem on_addRing (len : Nat) (state : Nat → S) (g : Graph S K) :
    (addRing len state).on g = settled g (g.addRing len state) := by
  obtain ⟨row, made, -⟩ := g.addChain_ok len state
  obtain ⟨closed, ring, -⟩ := g.addRing_ok len state
  rw [addRing, on_bind, on_addChain, ring]
  rw [Graph.addRing, made] at ring
  rw [made]
  generalize (List.range len).map (fun j => BlockId.mk (g.blocks.size + j)) = blocks at ring ⊢
  cases blocks with
  | nil =>
      cases ring
      rfl
  | cons first rest =>
      show (addEdge (rest.getLastD first) first >>= fun _ => pure (first :: rest)).on row = _
      rw [on_bind, on_addEdge]
      -- the chain has been written by now: only because the ring is accepted is its last edge
      cases edge : row.addEdge (rest.getLastD first) first with
      | error reason =>
          simp only [bind, Except.bind, edge] at ring
          cases ring
      | ok row' =>
          simp only [bind, Except.bind, edge] at ring
          cases ring
          rfl

theorem on_addCall {g : Graph S K} (coherent : g.Coherent) (owner : NodeId) (entryBlock : BlockId)
    (params : Option (Parameters K)) :
    (addCall owner entryBlock params).on g = settled g (g.addCall owner entryBlock params) := by
  rw [addCall, on_bind, on_addSubgraph]
  cases attached : g.addSubgraph owner entryBlock with
  | error reason =>
      rw [Graph.addCall, attached]
      rfl
  | ok made =>
      obtain ⟨sub, g'⟩ := made
      cases params with
      | none =>
          rw [Graph.addCall, attached]
          rfl
      | some declared =>
          -- the call has been written by now, so the parameters must not be refused
          obtain ⟨entry, g'', found, declares⟩ := Graph.addCall_ok coherent attached declared
          show (block entryBlock >>= fun entry =>
            setParameters entry.first declared >>= fun _ => pure sub).on g' = _
          rw [on_bind, on_block, found]
          dsimp only
          rw [on_bind, on_setParameters, declares, Graph.addCall, attached]
          simp only [bind, Except.bind, found, declares]
          rfl

end Edit

/-! ## Operations -/

namespace Graph.Op

variable {S K : Type}

/-- An operation as a program that works in place. -/
def edit : Op S K → Edit S K Unit
  | addNode state => discard (Edit.addNode state)
  | addBlock nodes => discard (Edit.addBlock nodes)
  | addEdge source target => Edit.addEdge source target
  | setEntry block => Edit.setEntry block
  | addSubgraph owner entryBlock => discard (Edit.addSubgraph owner entryBlock)
  | setParameters node params => Edit.setParameters node params
  | addFreshBlock states => discard (Edit.addFreshBlock states)
  | addChain len state => discard (Edit.addChainAfter none ((List.range len).map state))
  | addRing len state => discard (Edit.addRing len state)
  | addCall owner entryBlock params => discard (Edit.addCall owner entryBlock params)
  | modifyState node f => modify (·.modifyState node f)
  | setOrder block k => modify (·.setOrder block k)
  | clearOrders => modify (·.clearOrders)

/-- Giving the answer away changes nothing else. -/
theorem on_discard {α : Type} {edit : Edit S K α} {g : Graph S K}
    {step : Except GraphError (α × Graph S K)} (same : edit.on g = Edit.settled g step) :
    (discard edit).on g = Edit.settled g (Edit.alone ((·.2) <$> step)) := by
  show (edit >>= fun _ => pure ()).on g = _
  rw [Edit.on_bind, same]
  cases step <;> rfl

/-- **An operation that is refused has written nothing.**  On a coherent graph the program does
what the operation says, and where the operation is refused it leaves the graph as it was. -/
theorem on_edit {g : Graph S K} (coherent : g.Coherent) (op : Op S K) :
    op.edit.on g = Edit.settled g (Edit.alone (op.run g)) := by
  cases op with
  | addNode state => rfl
  | addBlock nodes => exact on_discard (Edit.on_addBlock nodes g)
  | addEdge source target => exact Edit.on_addEdge source target g
  | setEntry block => exact Edit.on_setEntry block g
  | addSubgraph owner entryBlock => exact on_discard (Edit.on_addSubgraph owner entryBlock g)
  | setParameters node params => exact Edit.on_setParameters node params g
  | addFreshBlock states => exact on_discard (Edit.on_addFreshBlock states g)
  | addChain len state => exact on_discard (Edit.on_addChain len state g)
  | addRing len state => exact on_discard (Edit.on_addRing len state g)
  | addCall owner entryBlock params =>
      exact on_discard (Edit.on_addCall coherent owner entryBlock params)
  | modifyState node f => rfl
  | setOrder block k => rfl
  | clearOrders => rfl

end Graph.Op

end BlockFlow
