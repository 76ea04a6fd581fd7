/-
# BlockFlow.Proofs.Steps -- what each construction step does to the shape of a graph

For every step there is one equation: the topology afterwards, as the topology before
with the fields the step writes replaced (`topology_addNode`, `addBlock_spec`,
`addEdge_spec`, `addSubgraph_spec`).  Steps that only write states, stamps, parameters or
the entry leave the topology as it was.  Everything proved about graphs that were built
step by step rests on these equations and never looks into the tables again.
-/
import BlockFlow.Graph.Shape

namespace BlockFlow

set_option autoImplicit false

/-- Put `owner` on a list of call sites and the list back in the order of `nodes`, unless it
is on the list already. -/
def noteSite (nodes : List NodeId) (owner : NodeId) (sites : List NodeId) : List NodeId :=
  if owner ∈ sites then sites
  else (sites ++ [owner]).mergeSort fun a b => nodes.idxOf a ≤ nodes.idxOf b

/-- What a sequence of steps answers, its first step has answered too. -/
theorem bind_ok {ε α β : Type} {x : Except ε α} {f : α → Except ε β} {b : β}
    (accepted : (x >>= f) = .ok b) : ∃ a, x = .ok a ∧ f a = .ok b := by
  cases x with
  | error reason => cases accepted
  | ok a => exact ⟨a, rfl, accepted⟩

/-- A change that a view of the entries does not show is not seen in the view of the array. -/
theorem map_modify_of_eq {α β : Type} {view : α → β} {f : α → α} (same : ∀ x, view (f x) = view x)
    (xs : Array α) (i : Nat) : (xs.modify i f).map view = xs.map view := by
  refine Array.ext_getElem? fun j => ?_
  rw [Array.getElem?_map, Array.getElem?_modify, Array.getElem?_map]
  split
  · rw [Option.map_map]
    exact congrArg (Option.map · _) (funext same)
  · rfl

namespace Graph

variable {S K : Type}

/-! ## Looking up -/

theorem hasBlock_iff {g : Graph S K} {block : BlockId} :
    g.topology.hasBlock block = true ↔ ∃ data, g.block? block = some data := by
  constructor
  · intro known
    have bound : block.index < g.blocks.size := of_decide_eq_true known
    exact ⟨_, Array.getElem?_eq_getElem bound⟩
  · rintro ⟨data, found⟩
    exact decide_eq_true (Array.getElem?_eq_some_iff.mp found).1

theorem hasNode_iff {g : Graph S K} {node : NodeId} :
    g.topology.hasNode node = true ↔ ∃ data, g.node? node = some data := by
  constructor
  · intro known
    have bound : node.index < g.nodes.size := of_decide_eq_true known
    exact ⟨_, Array.getElem?_eq_getElem bound⟩
  · rintro ⟨data, found⟩
    exact decide_eq_true (Array.getElem?_eq_some_iff.mp found).1

theorem requireBlock_eq_ok {g : Graph S K} {block : BlockId} {data : Block} :
    g.requireBlock block = .ok data ↔ g.block? block = some data := by
  unfold requireBlock
  cases g.block? block <;> simp

theorem requireNode_eq_ok {g : Graph S K} {node : NodeId} {data : Node S K} :
    g.requireNode node = .ok data ↔ g.node? node = some data := by
  unfold requireNode
  cases g.node? node <;> simp

theorem node?_modifyNode (g : Graph S K) (node other : NodeId) (f : Node S K → Node S K) :
    (g.modifyNode node f).node? other =
      if other = node then (g.node? other).map f else g.node? other := by
  obtain ⟨i⟩ := node
  obtain ⟨j⟩ := other
  by_cases same : j = i
  · subst same
    simp [modifyNode, node?, Array.getElem?_modify]
  · have apart : ¬ i = j := fun h => same h.symm
    simp [modifyNode, node?, Array.getElem?_modify, same, apart]

theorem block?_modifyBlock (g : Graph S K) (block other : BlockId) (f : Block → Block) :
    (g.modifyBlock block f).block? other =
      if other = block then (g.block? other).map f else g.block? other := by
  obtain ⟨i⟩ := block
  obtain ⟨j⟩ := other
  by_cases same : j = i
  · subst same
    simp [modifyBlock, block?, Array.getElem?_modify]
  · have apart : ¬ i = j := fun h => same h.symm
    simp [modifyBlock, block?, Array.getElem?_modify, same, apart]

theorem node?_addNode (g : Graph S K) (state : S) (node : NodeId) :
    (g.addNode state).2.node? node = if node = g.nextNode then some { state } else g.node? node := by
  obtain ⟨i⟩ := node
  simp [addNode, node?, nextNode, Array.getElem?_push]

theorem block?_push (g : Graph S K) (made : Block) (block : BlockId) :
    (g.blocks.push made)[block.index]? =
      if block = g.nextBlock then some made else g.block? block := by
  obtain ⟨i⟩ := block
  simp [block?, nextBlock, Array.getElem?_push]

theorem subgraph?_push (g : Graph S K) (made : Subgraph) (sub : SubgraphId) :
    (g.subgraphs.push made)[sub.index]? =
      if sub = g.nextSubgraph then some made else g.subgraph? sub := by
  obtain ⟨i⟩ := sub
  simp [subgraph?, nextSubgraph, Array.getElem?_push]

/-! ## Steps that leave the shape alone -/

/-- Changing what is attached to a node, other than its place and its subgraphs, does not
change the shape. -/
theorem topology_modifyNode (g : Graph S K) (node : NodeId) (f : Node S K → Node S K)
    (block : ∀ data, (f data).block = data.block)
    (subgraphs : ∀ data, (f data).subgraphs = data.subgraphs) :
    (g.modifyNode node f).topology = g.topology := by
  have read {α : Type} (field : Node S K → α) (same : ∀ data, field (f data) = field data)
      (other : NodeId) : ((g.modifyNode node f).node? other).map field =
        (g.node? other).map field := by
    rw [node?_modifyNode]
    split
    · simp [Function.comp_def, same]
    · rfl
  ext1
  case blockOf =>
    funext other
    have same := congrArg (Option.bind · id) (read (·.block) block other)
    simp only [Option.bind_map] at same
    exact same
  case subgraphs =>
    funext other
    exact congrArg (Option.getD · []) (read (·.subgraphs) subgraphs other)
  case nodeCount => exact Array.size_modify
  all_goals rfl

theorem topology_modifyState (g : Graph S K) (node : NodeId) (f : S → S) :
    (g.modifyState node f).topology = g.topology :=
  topology_modifyNode g node _ (fun _ => rfl) fun _ => rfl

/-- Adding a node adds nothing else. -/
theorem topology_addNode (g : Graph S K) (state : S) :
    (g.addNode state).2.topology =
      { g.topology with nodeCount := g.topology.nodeCount + 1 } := by
  have fresh : g.node? g.nextNode = none := by simp [node?, nextNode]
  ext1
  case nodeCount => exact Array.size_push _
  case blockOf =>
    funext node
    simp only [topology, blockOf, node?_addNode]
    split
    · rename_i same
      rw [same, fresh]
      rfl
    · rfl
  case subgraphs =>
    funext node
    simp only [topology, node?_addNode]
    split
    · rename_i same
      rw [same, fresh]
      rfl
    · rfl
  all_goals rfl

theorem setParameters_spec {g g' : Graph S K} {node : NodeId} {params : Parameters K}
    (accepted : g.setParameters node params = .ok g') :
    g'.topology = g.topology ∧ g'.subgraphs = g.subgraphs := by
  obtain ⟨data, found, accepted⟩ := bind_ok accepted
  cases accepted
  exact ⟨topology_modifyNode g node _ (fun _ => rfl) fun _ => rfl, rfl⟩

theorem setEntry_spec {g g' : Graph S K} {block : BlockId} (accepted : g.setEntry block = .ok g') :
    g.topology.hasBlock block = true ∧ g' = { g with entry := some block } := by
  obtain ⟨data, found, accepted⟩ := bind_ok accepted
  cases accepted
  exact ⟨hasBlock_iff.mpr ⟨data, requireBlock_eq_ok.mp found⟩, rfl⟩

/-! ## Blocks -/

/-- Nodes can become a block when they are known, detached and listed once. -/
theorem placementError_eq_none {g : Graph S K} {block : BlockId} {earlier nodes : List NodeId} :
    g.placementError block earlier nodes = none ↔
      (∀ node ∈ nodes, g.topology.hasNode node = true ∧ g.topology.blockOf node = none) ∧
        nodes.Nodup ∧ ∀ node ∈ nodes, node ∉ earlier := by
  induction nodes generalizing earlier with
  | nil => simp [placementError]
  | cons node rest ih =>
      have place : g.topology.blockOf node = (g.node? node).bind (·.block) := rfl
      unfold placementError
      cases found : g.node? node with
      | none =>
          have unknown : ¬ g.topology.hasNode node = true := by simp [hasNode_iff, found]
          simp [unknown]
      | some data =>
          have known : g.topology.hasNode node = true := hasNode_iff.mpr ⟨data, found⟩
          rw [found, Option.bind_some] at place
          cases home : data.block with
          | some _ => simp [place, home]
          | none =>
              by_cases repeated : node ∈ earlier
              · simp [home, repeated]
              · rw [List.forall_mem_cons, List.forall_mem_cons, List.nodup_cons]
                simp only [home, repeated, if_false, ih, known, place, true_and,
                  not_false_eq_true, List.mem_cons, not_or]
                constructor
                · rintro ⟨detached, distinct, new⟩
                  exact ⟨detached, ⟨fun member => (new node member).1 rfl, distinct⟩,
                    fun other member => (new other member).2⟩
                · rintro ⟨detached, ⟨absent, distinct⟩, new⟩
                  refine ⟨detached, distinct, fun other member => ⟨?_, new other member⟩⟩
                  intro same
                  exact absent (same ▸ member)

theorem place_eq (g : Graph S K) (block : BlockId) (nodes : List NodeId) :
    g.place block nodes = { g with nodes := (g.place block nodes).nodes } := by
  induction nodes generalizing g with
  | nil => rfl
  | cons node rest ih => exact ih _

theorem place_size (g : Graph S K) (block : BlockId) (nodes : List NodeId) :
    (g.place block nodes).nodes.size = g.nodes.size := by
  induction nodes generalizing g with
  | nil => rfl
  | cons node rest ih => exact (ih _).trans Array.size_modify

theorem node?_place (g : Graph S K) (block : BlockId) (nodes : List NodeId) (other : NodeId) :
    (g.place block nodes).node? other =
      if other ∈ nodes then (g.node? other).map fun data => { data with block := some block }
      else g.node? other := by
  induction nodes generalizing g with
  | nil => simp [place]
  | cons node rest ih =>
      have step : g.place block (node :: rest) =
          (g.modifyNode node fun data => { data with block := some block }).place block rest := rfl
      rw [step, ih, node?_modifyNode]
      by_cases same : other = node
      · subst same
        cases g.node? other <;> simp
      · simp [same]

/-- What a new block lacks, an unknown block lacks too. -/
theorem fields_pushBlock (g : Graph S K) (made : Block) {α : Type} (field : Block → List α)
    (lacks : field made = []) (b : BlockId) :
    ((g.blocks.push made)[b.index]?.map field).getD [] = ((g.block? b).map field).getD [] := by
  have fresh : g.block? g.nextBlock = none := by simp [block?, nextBlock]
  rw [block?_push]
  split
  · rename_i same
    simp [same, fresh, lacks]
  · rfl

/-- Placing known nodes in a new block. -/
theorem topology_pushBlock (g : Graph S K) {first : NodeId} {rest : List NodeId}
    (known : ∀ node ∈ first :: rest, g.topology.hasNode node = true) :
    topology { g with
        nodes := (g.place g.nextBlock (first :: rest)).nodes
        blocks := g.blocks.push { id := g.nextBlock, first, rest } } =
      { g.topology with
        blockCount := g.topology.blockCount + 1
        nodes := fun b => if b = g.nextBlock then first :: rest else g.topology.nodes b
        blockOf := fun n =>
          if n ∈ first :: rest then some g.nextBlock else g.topology.blockOf n } := by
  let made : Block := { id := g.nextBlock, first, rest }
  have placed := node?_place g g.nextBlock (first :: rest)
  simp only [node?] at placed
  ext1
  case blockCount => exact Array.size_push _
  case nodeCount => exact place_size ..
  case nodes =>
    funext b
    refine (congrArg (fun found => (found.map Block.nodes).getD []) (block?_push g made b)).trans ?_
    dsimp only
    split <;> rfl
  case blockOf =>
    funext n
    simp only [topology, blockOf, node?, placed]
    split
    · rename_i member
      obtain ⟨data, found⟩ := hasNode_iff.mp (known n member)
      simp only [node?] at found
      simp [found]
    · rfl
  case subgraphs =>
    funext n
    simp only [topology, node?, placed]
    split
    · cases g.nodes[n.index]? <;> rfl
    · rfl
  case successors => exact funext (fields_pushBlock g made (·.successors) rfl)
  case predecessors => exact funext (fields_pushBlock g made (·.predecessors) rfl)
  case callSites =>
    funext b
    exact congrArg (fun sites => if g.tracksCallSites then some sites else none)
      (fields_pushBlock g made (·.callSites) rfl b)
  case entryBlock => rfl
  case entryNode => rfl

theorem addBlock_spec {g g' : Graph S K} {nodes : List NodeId} {block : BlockId}
    (accepted : g.addBlock nodes = .ok (block, g')) :
    block = g.nextBlock ∧ g'.subgraphs = g.subgraphs ∧ nodes ≠ [] ∧ nodes.Nodup ∧
      (∀ node ∈ nodes, g.topology.hasNode node = true ∧ g.topology.blockOf node = none) ∧
      g'.topology = { g.topology with
        blockCount := g.topology.blockCount + 1
        nodes := fun b => if b = block then nodes else g.topology.nodes b
        blockOf := fun n => if n ∈ nodes then some block else g.topology.blockOf n } := by
  cases nodes with
  | nil => cases accepted
  | cons first rest =>
      unfold addBlock at accepted
      cases failed : g.placementError g.nextBlock [] (first :: rest) with
      | some reason => simp [failed] at accepted
      | none =>
          obtain ⟨free, distinct, -⟩ := placementError_eq_none.mp failed
          simp only [failed] at accepted
          cases accepted
          rw [place_eq]
          exact ⟨rfl, rfl, List.cons_ne_nil _ _, distinct, free,
            topology_pushBlock g fun node member => (free node member).1⟩

/-! ## Edges -/

/-- Noting an edge at both of its ends. -/
theorem topology_link (g : Graph S K) {source target : BlockId}
    (start : g.topology.hasBlock source = true) (finish : g.topology.hasBlock target = true) :
    ((g.modifyBlock source fun b => { b with
        successors := Distinct.add b.successors target }).modifyBlock target fun b => { b with
        predecessors := Distinct.add b.predecessors source }).topology =
      { g.topology with
        successors := fun b =>
          if b = source then Distinct.add (g.topology.successors b) target
          else g.topology.successors b
        predecessors := fun b =>
          if b = target then Distinct.add (g.topology.predecessors b) source
          else g.topology.predecessors b } := by
  obtain ⟨leaving, start⟩ := hasBlock_iff.mp start
  obtain ⟨entering, finish⟩ := hasBlock_iff.mp finish
  -- a field that neither end of an edge writes reads as before
  have keeps {α : Type} (field : Block → α)
      (out : ∀ (b : Block) next, field { b with successors := next } = field b)
      (back : ∀ (b : Block) before, field { b with predecessors := before } = field b)
      (b : BlockId) :
      (((g.modifyBlock source fun b => { b with
        successors := Distinct.add b.successors target }).modifyBlock target fun b => { b with
        predecessors := Distinct.add b.predecessors source }).block? b).map field =
        (g.block? b).map field := by
    rw [block?_modifyBlock, block?_modifyBlock]
    cases g.block? b with
    | none => split <;> split <;> rfl
    | some data =>
        split <;> split
        · exact congrArg some ((back _ _).trans (out data _))
        · exact congrArg some (back data _)
        · exact congrArg some (out data _)
        · rfl
  ext1
  case blockCount => exact (Array.size_modify).trans Array.size_modify
  case nodes =>
    funext b
    exact congrArg (Option.getD · []) (keeps (·.nodes) (fun _ _ => rfl) (fun _ _ => rfl) b)
  case callSites =>
    funext b
    exact congrArg (fun sites => if g.tracksCallSites then some (Option.getD sites []) else none)
      (keeps (·.callSites) (fun _ _ => rfl) (fun _ _ => rfl) b)
  case successors =>
    funext b
    dsimp only [topology]
    rw [block?_modifyBlock, block?_modifyBlock]
    by_cases same : b = source
    · subst same
      simp only [start]
      split <;> rfl
    · simp only [same, if_false]
      split
      · cases g.block? b <;> rfl
      · rfl
  case predecessors =>
    funext b
    dsimp only [topology]
    rw [block?_modifyBlock, block?_modifyBlock]
    by_cases same : b = target
    · subst same
      simp only [finish, if_true]
      split <;> rfl
    · simp only [same, if_false]
      split
      · cases g.block? b <;> rfl
      · rfl
  all_goals rfl

theorem addEdge_spec {g g' : Graph S K} {source target : BlockId}
    (accepted : g.addEdge source target = .ok g') :
    g.topology.hasBlock source = true ∧ g.topology.hasBlock target = true ∧
      g'.subgraphs = g.subgraphs ∧ g'.topology = { g.topology with
        successors := fun b =>
          if b = source then Distinct.add (g.topology.successors b) target
          else g.topology.successors b
        predecessors := fun b =>
          if b = target then Distinct.add (g.topology.predecessors b) source
          else g.topology.predecessors b } := by
  obtain ⟨leaving, start, accepted⟩ := bind_ok accepted
  obtain ⟨entering, finish, accepted⟩ := bind_ok accepted
  cases accepted
  have here := hasBlock_iff.mpr ⟨leaving, requireBlock_eq_ok.mp start⟩
  have there := hasBlock_iff.mpr ⟨entering, requireBlock_eq_ok.mp finish⟩
  exact ⟨here, there, rfl, topology_link g here there⟩

/-! ## Calls -/

theorem addCallSite_eq (block : Block) (owner : NodeId) :
    block.addCallSite owner =
      { block with callSites := noteSite block.nodes owner block.callSites } := by
  unfold Block.addCallSite noteSite
  split <;> rfl

theorem topology_addCallSite (g : Graph S K) {home : BlockId}
    (known : g.topology.hasBlock home = true) (owner : NodeId) :
    (g.modifyBlock home (·.addCallSite owner)).topology =
      { g.topology with
        callSites := fun b => (g.topology.callSites b).map fun sites =>
          if b = home then noteSite (g.topology.nodes b) owner sites else sites } := by
  have keeps {α : Type} (field : Block → α)
      (same : ∀ (b : Block) sites, field { b with callSites := sites } = field b) (b : BlockId) :
      ((g.modifyBlock home (·.addCallSite owner)).block? b).map field = (g.block? b).map field := by
    rw [block?_modifyBlock]
    split
    · rw [Option.map_map]
      refine congrArg (Option.map · _) (funext fun data => ?_)
      rw [Function.comp_apply, addCallSite_eq, same]
    · rfl
  ext1
  case blockCount => exact Array.size_modify
  case nodes =>
    funext b
    exact congrArg (Option.getD · []) (keeps (·.nodes) (fun _ _ => rfl) b)
  case successors =>
    funext b
    exact congrArg (Option.getD · []) (keeps (·.successors) (fun _ _ => rfl) b)
  case predecessors =>
    funext b
    exact congrArg (Option.getD · []) (keeps (·.predecessors) (fun _ _ => rfl) b)
  case callSites =>
    funext b
    obtain ⟨data, found⟩ := hasBlock_iff.mp known
    have tracks : (g.modifyBlock home (·.addCallSite owner)).tracksCallSites =
      g.tracksCallSites := rfl
    dsimp only [topology]
    rw [tracks, block?_modifyBlock]
    split
    · by_cases same : b = home
      · subst same
        simp [found, addCallSite_eq]
      · simp [same]
    · rfl
  all_goals rfl

/-- Attaching a subgraph, call sites aside. -/
theorem topology_attach (g : Graph S K) {owner : NodeId} (known : g.topology.hasNode owner = true)
    (entry : BlockId) (first : NodeId) :
    topology { g with
        nodes := (g.modifyNode owner fun n =>
          { n with subgraphs := n.subgraphs ++ [g.nextSubgraph] }).nodes
        subgraphs := g.subgraphs.push ⟨owner, entry, first⟩ } =
      { g.topology with
        subgraphs := fun n =>
          if n = owner then g.topology.subgraphs n ++ [g.nextSubgraph] else g.topology.subgraphs n
        entryBlock := fun s => if s = g.nextSubgraph then entry else g.topology.entryBlock s
        entryNode := fun s => if s = g.nextSubgraph then first else g.topology.entryNode s } := by
  have read := subgraph?_push g ⟨owner, entry, first⟩
  have owned (n : NodeId) := node?_modifyNode g owner n fun n =>
    { n with subgraphs := n.subgraphs ++ [g.nextSubgraph] }
  ext1
  case nodeCount => exact Array.size_modify
  case blockOf =>
    funext n
    refine (congrArg (Option.bind · (·.block)) (owned n)).trans ?_
    dsimp only
    split
    · cases n' : g.node? n <;> simp [topology, blockOf, n']
    · rfl
  case subgraphs =>
    funext n
    refine (congrArg (fun data => (Option.map (·.subgraphs) data).getD []) (owned n)).trans ?_
    dsimp only
    split
    · rename_i same
      obtain ⟨data, found⟩ := hasNode_iff.mp known
      simp [topology, same, found]
    · rfl
  case entryBlock =>
    funext s
    refine (congrArg (fun data => (Option.map (·.entryBlock) data).getD default) (read s)).trans ?_
    dsimp only
    split <;> rfl
  case entryNode =>
    funext s
    refine (congrArg (fun data => (Option.map (·.entryNode) data).getD default) (read s)).trans ?_
    dsimp only
    split <;> rfl
  all_goals rfl

theorem addSubgraph_spec {g g' : Graph S K} {owner : NodeId} {entry : BlockId} {sub : SubgraphId}
    (homes : ∀ node block, g.topology.blockOf node = some block → g.topology.hasBlock block = true)
    (accepted : g.addSubgraph owner entry = .ok (sub, g')) :
    sub = g.nextSubgraph ∧ g'.subgraphs.size = g.subgraphs.size + 1 ∧
      ∃ home first, g.topology.blockOf owner = some home ∧ g.topology.hasNode owner = true ∧
        g.topology.hasBlock entry = true ∧ (g.topology.nodes entry).head? = some first ∧
        g'.topology = { g.topology with
          subgraphs := fun n =>
            if n = owner then g.topology.subgraphs n ++ [sub] else g.topology.subgraphs n
          entryBlock := fun s => if s = sub then entry else g.topology.entryBlock s
          entryNode := fun s => if s = sub then first else g.topology.entryNode s
          callSites := fun b =>
            (g.topology.callSites b).map fun sites =>
              if b = home then noteSite (g.topology.nodes b) owner sites else sites } := by
  obtain ⟨caller, found, accepted⟩ := bind_ok accepted
  rw [requireNode_eq_ok] at found
  cases placed : caller.block with
  | none =>
      simp only [placed] at accepted
      cases accepted
  | some home =>
      simp only [placed] at accepted
      obtain ⟨data, target, accepted⟩ := bind_ok accepted
      rw [requireBlock_eq_ok] at target
      cases accepted
      have known : g.topology.hasNode owner = true := hasNode_iff.mpr ⟨caller, found⟩
      have place : g.topology.blockOf owner = some home := by
        simp [topology, blockOf, found, placed]
      have first : (g.topology.nodes entry).head? = some data.first := by
        simp [topology, target, Block.nodes]
      have attached := topology_attach g known entry data.first
      refine ⟨rfl, ?_, home, data.first, place, known, hasBlock_iff.mpr ⟨data, target⟩, first, ?_⟩
      · split <;> exact Array.size_push _
      split
      · have here : (topology { g with
            nodes := (g.modifyNode owner fun n =>
              { n with subgraphs := n.subgraphs ++ [g.nextSubgraph] }).nodes
            subgraphs := g.subgraphs.push ⟨owner, entry, data.first⟩ }).hasBlock home =
            true := homes owner home place
        refine (topology_addCallSite _ here owner).trans ?_
        rw [attached]
      · rename_i untracked
        refine attached.trans ?_
        ext1
        case callSites =>
          funext b
          simp [topology, untracked]
        all_goals rfl

end Graph

end BlockFlow
