/-
# BlockFlow.Proofs.Shapes -- what chains and rings add to a graph

A chain or a ring puts its nodes and blocks after those that are there (`Appends`): its `j`-th
node and its `j`-th block get the `j`-th free handles, and nothing else is written.  Chains
are made from the front, each block linked to the one before it, so what a chain comes to is
an induction on its states (`addChainAfter_ok`); a ring is a chain with one more edge
(`addRing_ok`).  Neither is ever refused.
-/
import BlockFlow.Proofs.Steps

namespace BlockFlow.Graph

set_option autoImplicit false

variable {S K : Type}

/-! ## Single steps -/

/-- The graph with one more node, in a block of its own. -/
def appendBlock (g : Graph S K) (state : S) : Graph S K :=
  { g with
    nodes := g.nodes.push { state, block := some g.nextBlock }
    blocks := g.blocks.push { id := g.nextBlock, first := g.nextNode, rest := [] } }

theorem node?_appendBlock (g : Graph S K) (state : S) (node : NodeId) :
    (g.appendBlock state).node? node =
      if node = g.nextNode then some { state, block := some g.nextBlock } else g.node? node := by
  obtain ⟨i⟩ := node
  simp [appendBlock, node?, nextNode, Array.getElem?_push]

theorem block?_appendBlock (g : Graph S K) (state : S) (block : BlockId) :
    (g.appendBlock state).block? block =
      if block = g.nextBlock then some { id := g.nextBlock, first := g.nextNode, rest := [] }
      else g.block? block :=
  g.block?_push _ block

/-- A block of one fresh node is always accepted. -/
theorem addFreshBlock_singleton (g : Graph S K) (state : S) :
    g.addFreshBlock [state] = .ok (g.nextBlock, g.appendBlock state) := by
  have fresh : (g.addNode state).2.node? g.nextNode = some { state } := by
    rw [node?_addNode, if_pos rfl]
  have placed : (g.nodes.push { state }).modify g.nodes.size
      (fun data => { data with block := some g.nextBlock }) =
        g.nodes.push { state, block := some g.nextBlock } := by
    refine Array.ext_getElem? fun i => ?_
    rw [Array.getElem?_modify, Array.getElem?_push, Array.getElem?_push]
    split
    · rename_i same
      simp [same]
    · rename_i other
      rw [if_neg (Ne.symm other), if_neg (Ne.symm other)]
  have free : (g.addNode state).2.placementError g.nextBlock [] [g.nextNode] = none := by
    simp [placementError, fresh]
  have made : g.addFreshBlock [state] = (g.addNode state).2.addBlock [g.nextNode] := rfl
  have accepted : (g.addNode state).2.addBlock [g.nextNode] = .ok (g.nextBlock, { g with
      nodes := (g.nodes.push { state }).modify g.nodes.size
        fun data => { data with block := some g.nextBlock }
      blocks := g.blocks.push { id := g.nextBlock, first := g.nextNode, rest := [] } }) := by
    have same : (g.addNode state).2.nextBlock = g.nextBlock := rfl
    simp only [addBlock, same, free]
    rfl
  rw [made, accepted, placed]
  rfl

theorem addEdge_ok {g : Graph S K} {source target : BlockId}
    (start : g.topology.hasBlock source = true) (finish : g.topology.hasBlock target = true) :
    g.addEdge source target =
      .ok ((g.modifyBlock source fun b => { b with
        successors := Distinct.add b.successors target }).modifyBlock target fun b => { b with
        predecessors := Distinct.add b.predecessors source }) := by
  obtain ⟨leaving, here⟩ := hasBlock_iff.mp start
  obtain ⟨entering, there⟩ := hasBlock_iff.mp finish
  simp only [addEdge, requireBlock_eq_ok.mpr here, requireBlock_eq_ok.mpr there]
  rfl

/-! ## Chains -/

/-- The `j`-th of `len` blocks in a row, behind `previous`; the first has the given handles. -/
def chainBlock (previous : Option BlockId) (block node len j : Nat) : Block where
  id := ⟨block + j⟩
  first := ⟨node + j⟩
  rest := []
  successors := if j + 1 < len then [⟨block + j + 1⟩] else []
  predecessors := if j = 0 then previous.toList else [⟨block + j - 1⟩]

/-- Behind its first block a row is a row. -/
theorem chainBlock_succ (previous : Option BlockId) (block node len j : Nat) :
    chainBlock (some ⟨block⟩) (block + 1) (node + 1) len j =
      chainBlock previous block node (len + 1) (j + 1) := by
  unfold chainBlock
  simp only [Block.mk.injEq, BlockId.mk.injEq, NodeId.mk.injEq, true_and, and_true]
  refine ⟨by omega, by omega, ?_, ?_⟩
  · by_cases inside : j + 1 < len
    · rw [if_pos inside, if_pos (Nat.succ_lt_succ inside), Nat.add_right_comm block 1 j]
      rfl
    · rw [if_neg inside, if_neg (mt Nat.lt_of_succ_lt_succ inside)]
  · cases j with
    | zero => rfl
    | succ j =>
        rw [if_neg (Nat.succ_ne_zero j), if_neg (Nat.succ_ne_zero _)]
        congr 2
        omega

/-- `g'` is `g` with one block for each state, in a row behind `previous`. -/
structure Chained (g : Graph S K) (previous : Option BlockId) (states : List S) (g' : Graph S K) :
    Prop where
  nodeCount : g'.nodes.size = g.nodes.size + states.length
  blockCount : g'.blocks.size = g.blocks.size + states.length
  oldNode : ∀ i < g.nodes.size, g'.node? ⟨i⟩ = g.node? ⟨i⟩
  newNode : ∀ j state, states[j]? = some state →
    g'.node? ⟨g.nodes.size + j⟩ = some { state, block := some ⟨g.blocks.size + j⟩ }
  oldBlock : ∀ i < g.blocks.size, g'.block? ⟨i⟩ = (g.block? ⟨i⟩).map fun data =>
    if previous = some ⟨i⟩ ∧ states ≠ [] then
      { data with successors := Distinct.add data.successors g.nextBlock }
    else data
  newBlock : ∀ j < states.length, g'.block? ⟨g.blocks.size + j⟩ =
    some (chainBlock previous g.blocks.size g.nodes.size states.length j)
  subgraphs : g'.subgraphs = g.subgraphs
  entry : g'.entry = g.entry
  tracks : g'.tracksCallSites = g.tracksCallSites

theorem Chained.nil (g : Graph S K) (previous : Option BlockId) : Chained g previous [] g := by
  constructor <;> simp

/-- One more block at the front of a row. -/
theorem Chained.cons {g h g' : Graph S K} {previous : Option BlockId} {state : S} {rest : List S}
    (first : Chained g previous [state] h) (later : Chained h (some g.nextBlock) rest g') :
    Chained g previous (state :: rest) g' := by
  have nodes : h.nodes.size = g.nodes.size + 1 := first.nodeCount
  have blocks : h.blocks.size = g.blocks.size + 1 := first.blockCount
  constructor
  case nodeCount => rw [later.nodeCount, nodes, List.length_cons]; omega
  case blockCount => rw [later.blockCount, blocks, List.length_cons]; omega
  case oldNode =>
    intro i bound
    rw [later.oldNode i (by omega), first.oldNode i bound]
  case newNode =>
    intro j s found
    cases j with
    | zero =>
        rw [List.getElem?_cons_zero, Option.some.injEq] at found
        rw [later.oldNode _ (by omega)]
        exact first.newNode 0 s (by simp [found])
    | succ j =>
        have made := later.newNode j s found
        rw [nodes, blocks] at made
        rw [← Nat.succ_add_eq_add_succ, ← Nat.succ_add_eq_add_succ]
        exact made
  case oldBlock =>
    intro i bound
    have other : ¬ (some g.nextBlock = some ⟨i⟩ ∧ rest ≠ []) := by
      rintro ⟨same, -⟩
      have : g.blocks.size = i := congrArg BlockId.index (Option.some.inj same)
      omega
    rw [later.oldBlock i (by omega), first.oldBlock i bound]
    simp only [other, if_false, Option.map_id', ne_eq, List.cons_ne_nil, not_false_eq_true]
  case newBlock =>
    intro j bound
    cases j with
    | zero =>
        have here := first.newBlock 0 Nat.zero_lt_one
        rw [Nat.add_zero] at here
        rw [Nat.add_zero, later.oldBlock _ (by omega), here]
        cases rest with
        | nil => simp [chainBlock]
        | cons next others => simp [chainBlock, nextBlock, blocks, Distinct.add]
    | succ j =>
        have made := later.newBlock j (Nat.lt_of_succ_lt_succ bound)
        rw [nodes, blocks] at made
        rw [← Nat.succ_add_eq_add_succ, made]
        exact congrArg some (chainBlock_succ previous _ _ _ _)
  case subgraphs => exact later.subgraphs.trans first.subgraphs
  case entry => exact later.entry.trans first.entry
  case tracks => exact later.tracks.trans first.tracks

/-- Making one block and linking it to the one before it. -/
theorem addEdgeFrom_ok (g : Graph S K) {previous : Option BlockId} (state : S)
    (known : ∀ before ∈ previous, g.topology.hasBlock before = true) :
    ∃ linked, (g.appendBlock state).addEdgeFrom previous g.nextBlock = .ok linked ∧
      Chained g previous [state] linked := by
  have nodeCount : (g.appendBlock state).nodes.size = g.nodes.size + 1 := Array.size_push _
  have blockCount : (g.appendBlock state).blocks.size = g.blocks.size + 1 := Array.size_push _
  have old (i : Nat) (bound : i < g.blocks.size) : (⟨i⟩ : BlockId) ≠ g.nextBlock :=
    fun same => Nat.ne_of_lt bound (congrArg BlockId.index same)
  have node (i : Nat) (bound : i < g.nodes.size) :
      (g.appendBlock state).node? ⟨i⟩ = g.node? ⟨i⟩ := by
    rw [node?_appendBlock, if_neg]
    exact fun same => Nat.ne_of_lt bound (congrArg NodeId.index same)
  have newNode (j : Nat) (s : S) (found : [state][j]? = some s) :
      (g.appendBlock state).node? ⟨g.nodes.size + j⟩ =
        some { state := s, block := some ⟨g.blocks.size + j⟩ } := by
    obtain ⟨rfl, rfl⟩ : j = 0 ∧ state = s := by
      cases j <;> simp_all
    exact (g.node?_appendBlock state _).trans (if_pos rfl)
  cases previous with
  | none =>
      refine ⟨_, rfl, nodeCount, blockCount, node, newNode, ?_, ?_, rfl, rfl, rfl⟩
      · intro i bound
        rw [block?_appendBlock, if_neg (old i bound)]
        simp
      · intro j bound
        obtain rfl : j = 0 := Nat.lt_one_iff.mp bound
        exact (g.block?_appendBlock state _).trans (if_pos rfl)
  | some before =>
      have inside : before.index < g.blocks.size := of_decide_eq_true (known before rfl)
      have apart : before ≠ g.nextBlock := old before.index inside
      have start : (g.appendBlock state).topology.hasBlock before = true :=
        decide_eq_true (Nat.lt_of_lt_of_eq (Nat.lt_succ_of_lt inside) blockCount.symm)
      have finish : (g.appendBlock state).topology.hasBlock g.nextBlock = true :=
        decide_eq_true (Nat.lt_of_lt_of_eq (Nat.lt_succ_self _) blockCount.symm)
      refine ⟨_, addEdge_ok start finish, nodeCount, ?_, node, newNode, ?_, ?_, rfl, rfl, rfl⟩
      · exact Array.size_modify.trans (Array.size_modify.trans blockCount)
      · intro i bound
        rw [block?_modifyBlock, if_neg (old i bound), block?_modifyBlock, block?_appendBlock,
          if_neg (old i bound)]
        by_cases same : (⟨i⟩ : BlockId) = before
        · rw [if_pos same, same]
          simp
        · rw [if_neg same]
          simp [Ne.symm same]
      · intro j bound
        obtain rfl : j = 0 := Nat.lt_one_iff.mp bound
        have here : (⟨g.blocks.size + 0⟩ : BlockId) = g.nextBlock := rfl
        rw [here, block?_modifyBlock, if_pos rfl, block?_modifyBlock, if_neg (Ne.symm apart),
          block?_appendBlock, if_pos rfl]
        simp [chainBlock, nextBlock, nextNode, Distinct.add]

/-- **A row is made as it is asked for.** -/
theorem addChainAfter_ok (states : List S) (g : Graph S K) {previous : Option BlockId}
    (known : ∀ before ∈ previous, g.topology.hasBlock before = true) :
    ∃ g', g.addChainAfter previous states =
        .ok ((List.range states.length).map fun j => ⟨g.blocks.size + j⟩, g') ∧
      Chained g previous states g' := by
  induction states generalizing g previous with
  | nil => exact ⟨g, rfl, .nil g previous⟩
  | cons state rest ih =>
      obtain ⟨linked, edge, first⟩ := g.addEdgeFrom_ok state known
      have blocks : linked.blocks.size = g.blocks.size + 1 := first.blockCount
      have here : ∀ before ∈ some g.nextBlock, linked.topology.hasBlock before = true := by
        rintro before ⟨⟩
        exact decide_eq_true (Nat.lt_of_lt_of_eq (Nat.lt_succ_self _) blocks.symm)
      obtain ⟨g', accepted, later⟩ := ih linked here
      refine ⟨g', ?_, first.cons later⟩
      have ids : (List.range (state :: rest).length).map (fun j => BlockId.mk (g.blocks.size + j)) =
          g.nextBlock :: (List.range rest.length).map fun j => ⟨linked.blocks.size + j⟩ := by
        rw [List.length_cons, List.range_succ_eq_map, List.map_cons, List.map_map, blocks]
        exact congrArg _ (List.map_congr_left fun j _ =>
          congrArg BlockId.mk (Nat.succ_add_eq_add_succ _ j).symm)
      simp only [addChainAfter, addFreshBlock_singleton, bind, Except.bind, edge, accepted, ids]
      rfl

/-! ## Shapes -/

/-- `g'` is `g` with `len` nodes and `len` blocks behind those of `g`: the nodes hold these states,
and these are the blocks. -/
structure Appends (g : Graph S K) (len : Nat) (state : Nat → S) (block : Nat → Block)
    (g' : Graph S K) : Prop where
  nodeCount : g'.nodes.size = g.nodes.size + len
  blockCount : g'.blocks.size = g.blocks.size + len
  oldNode : ∀ i < g.nodes.size, g'.node? ⟨i⟩ = g.node? ⟨i⟩
  newNode : ∀ j < len, g'.node? ⟨g.nodes.size + j⟩ =
    some { state := state j, block := some ⟨g.blocks.size + j⟩ }
  oldBlock : ∀ i < g.blocks.size, g'.block? ⟨i⟩ = g.block? ⟨i⟩
  newBlock : ∀ j < len, g'.block? ⟨g.blocks.size + j⟩ = some (block j)
  subgraphs : g'.subgraphs = g.subgraphs
  entry : g'.entry = g.entry
  tracks : g'.tracksCallSites = g.tracksCallSites

/-- The `j`-th of `len` blocks in a ring; the first has the given handles. -/
def ringBlock (block node len j : Nat) : Block where
  id := ⟨block + j⟩
  first := ⟨node + j⟩
  rest := []
  successors := [⟨block + (j + 1) % len⟩]
  predecessors := [⟨block + (j + len - 1) % len⟩]

theorem Chained.appends {g g' : Graph S K} {len : Nat} {state : Nat → S}
    (chained : Chained g none ((List.range len).map state) g') :
    Appends g len state (chainBlock none g.blocks.size g.nodes.size len) g' := by
  obtain ⟨nodeCount, blockCount, oldNode, newNode, oldBlock, newBlock, subgraphs, entry, tracks⟩ :=
    chained
  have length : ((List.range len).map state).length = len := by simp
  rw [length] at nodeCount blockCount newBlock
  constructor
  case newNode => exact fun j bound => newNode j (state j) (by simp [bound])
  case oldBlock =>
    intro i bound
    rw [oldBlock i bound]
    simp
  all_goals assumption

/-- **A chain adds its blocks in a row and nothing else.** -/
theorem addChain_ok (g : Graph S K) (len : Nat) (state : Nat → S) :
    ∃ g', g.addChain len state =
        .ok ((List.range len).map fun j => ⟨g.blocks.size + j⟩, g') ∧
      Appends g len state (chainBlock none g.blocks.size g.nodes.size len) g' := by
  obtain ⟨g', accepted, chained⟩ := addChainAfter_ok ((List.range len).map state) g
    (fun _ (absent : _ ∈ none) => absurd absent (Option.not_mem_none _))
  rw [List.length_map, List.length_range] at accepted
  exact ⟨g', accepted, chained.appends⟩

/-- Closing a row makes a ring of it. -/
theorem ringBlock_eq (block node : Nat) {len j : Nat} (inside : j < len) :
    let row := chainBlock none block node len j
    ringBlock block node len j = { row with
      successors := if j + 1 = len then Distinct.add row.successors ⟨block⟩ else row.successors
      predecessors :=
        if j = 0 then Distinct.add row.predecessors ⟨block + len - 1⟩ else row.predecessors } := by
  simp only [ringBlock, chainBlock, Block.mk.injEq, true_and, and_true]
  constructor
  · by_cases last : j + 1 = len
    · simp [last, Distinct.add]
    · have within : j + 1 < len := by omega
      rw [if_neg last, if_pos within, Nat.mod_eq_of_lt within, Nat.add_assoc]
  · cases j with
    | zero =>
        rw [if_pos rfl, if_pos rfl, Nat.zero_add, Nat.mod_eq_of_lt (Nat.sub_one_lt_of_lt inside)]
        simp [Distinct.add, Nat.add_sub_assoc inside]
    | succ j =>
        have before : (j + 1 + len - 1) % len = j := by
          rw [Nat.add_right_comm, Nat.add_sub_cancel, Nat.add_mod_right,
            Nat.mod_eq_of_lt (Nat.lt_of_succ_lt inside)]
        rw [if_neg (Nat.succ_ne_zero j), if_neg (Nat.succ_ne_zero j), before]
        rfl

/-- The edge from the last block of a row to its first. -/
theorem Appends.close {g row : Graph S K} {len : Nat} {state : Nat → S}
    (appends : Appends g (len + 1) state
      (chainBlock none g.blocks.size g.nodes.size (len + 1)) row) :
    ∃ g', row.addEdge ⟨g.blocks.size + len⟩ ⟨g.blocks.size⟩ = .ok g' ∧
      Appends g (len + 1) state (ringBlock g.blocks.size g.nodes.size (len + 1)) g' := by
  obtain ⟨nodeCount, blockCount, oldNode, newNode, oldBlock, newBlock, subgraphs, entry, tracks⟩ :=
    appends
  have inside {j : Nat} (bound : j < len + 1) :
      row.topology.hasBlock ⟨g.blocks.size + j⟩ = true := by
    refine decide_eq_true ?_
    show g.blocks.size + j < row.blocks.size
    omega
  have start := inside (Nat.lt_succ_self len)
  have finish := inside (Nat.succ_pos len)
  refine ⟨_, addEdge_ok start finish, nodeCount, ?_, oldNode, newNode, ?_, ?_, subgraphs, entry,
    tracks⟩
  · exact Array.size_modify.trans (Array.size_modify.trans blockCount)
  · intro i bound
    have notFirst : (⟨i⟩ : BlockId) ≠ ⟨g.blocks.size⟩ := by simp [Nat.ne_of_lt bound]
    have notLast : (⟨i⟩ : BlockId) ≠ ⟨g.blocks.size + len⟩ := by
      simp [Nat.ne_of_lt (Nat.lt_add_right len bound)]
    rw [block?_modifyBlock, if_neg notFirst, block?_modifyBlock, if_neg notLast, oldBlock i bound]
  · intro j inside
    have first : (⟨g.blocks.size + j⟩ : BlockId) = ⟨g.blocks.size⟩ ↔ j = 0 := by simp
    have last : (⟨g.blocks.size + j⟩ : BlockId) = ⟨g.blocks.size + len⟩ ↔ j + 1 = len + 1 := by
      simp
    rw [block?_modifyBlock, block?_modifyBlock, newBlock j inside, ringBlock_eq _ _ inside]
    simp only [first, last]
    split <;> split <;> rfl

/-- **A ring adds its blocks in a ring and nothing else.** -/
theorem addRing_ok (g : Graph S K) (len : Nat) (state : Nat → S) :
    ∃ g', g.addRing len state =
        .ok ((List.range len).map fun j => ⟨g.blocks.size + j⟩, g') ∧
      Appends g len state (ringBlock g.blocks.size g.nodes.size len) g' := by
  obtain ⟨row, accepted, appends⟩ := g.addChain_ok len state
  cases len with
  | zero =>
      refine ⟨row, by simp only [addRing, accepted]; rfl, ?_⟩
      obtain ⟨nodeCount, blockCount, oldNode, -, oldBlock, -, subgraphs, entry, tracks⟩ := appends
      exact ⟨nodeCount, blockCount, oldNode, by simp, oldBlock, by simp, subgraphs, entry, tracks⟩
  | succ len =>
      obtain ⟨g', closes, ring⟩ := appends.close
      have blocks : (List.range (len + 1)).map (fun j => BlockId.mk (g.blocks.size + j)) =
          ⟨g.blocks.size⟩ :: (List.range len).map fun j => ⟨g.blocks.size + (j + 1)⟩ := by
        rw [List.range_succ_eq_map, List.map_cons, List.map_map]
        rfl
      have last : ((List.range len).map fun j =>
          BlockId.mk (g.blocks.size + (j + 1))).getLastD ⟨g.blocks.size⟩ =
            ⟨g.blocks.size + len⟩ := by
        cases len with
        | zero => rfl
        | succ len => simp [List.range_succ]
      refine ⟨g', ?_, ring⟩
      rw [blocks] at accepted ⊢
      simp only [addRing, accepted, bind, Except.bind, last, closes]
      rfl

end BlockFlow.Graph
