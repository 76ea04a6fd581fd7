/-
# BlockFlow.Proofs.Uncached -- building a graph with and without call-site caches

A graph without its caches (`Graph.uncached`) is the graph that tracks no call sites and is
the same otherwise.  Operations read no cache, so an operation treats a graph and its
uncached form alike: both refuse it for one reason, or both accept it, answer with the same
handles and are the same afterwards but for their caches (`Op.run_uncached`).

Therefore one sequence of operations builds one graph, with and without caches
(`uncached_built`).
-/
import BlockFlow.Proofs.History

namespace BlockFlow

set_option autoImplicit false

/-- Two sequences of steps agree when their first steps do and what follows does. -/
theorem bind_map {ε α α' β β' : Type} {p : α → α'} {q : β → β'} {x : Except ε α}
    {x' : Except ε α'} {f : α → Except ε β} {f' : α' → Except ε β'} (first : x' = p <$> x)
    (later : ∀ a, f' (p a) = q <$> f a) : (x' >>= f') = q <$> (x >>= f) := by
  subst first
  cases x with
  | error reason => rfl
  | ok a => exact later a

/-- The block as it is where call sites are not tracked. -/
def Block.uncached (block : Block) : Block := { block with callSites := [] }

namespace Graph

variable {S K : Type}

/-- The graph without its call-site caches. -/
def uncached (g : Graph S K) : Graph S K :=
  { g with blocks := g.blocks.map Block.uncached, tracksCallSites := false }

/-! ## Reading without caches -/

@[simp] theorem node?_uncached (g : Graph S K) (node : NodeId) :
    g.uncached.node? node = g.node? node := rfl

@[simp] theorem block?_uncached (g : Graph S K) (block : BlockId) :
    g.uncached.block? block = (g.block? block).map Block.uncached := Array.getElem?_map

@[simp] theorem nextBlock_uncached (g : Graph S K) : g.uncached.nextBlock = g.nextBlock :=
  congrArg BlockId.mk Array.size_map

@[simp] theorem requireNode_uncached (g : Graph S K) (node : NodeId) :
    g.uncached.requireNode node = g.requireNode node := rfl

@[simp] theorem requireBlock_uncached (g : Graph S K) (block : BlockId) :
    g.uncached.requireBlock block = Block.uncached <$> g.requireBlock block := by
  unfold requireBlock
  rw [block?_uncached]
  cases g.block? block <;> rfl

/-- The caches are all that is lost. -/
theorem topology_uncached (g : Graph S K) :
    g.uncached.topology = { g.topology with callSites := fun _ => none } := by
  have read {α : Type} (field : Block → α) (same : ∀ data : Block, field data.uncached = field data)
      (block : BlockId) : (g.uncached.block? block).map field = (g.block? block).map field := by
    rw [block?_uncached, Option.map_map]
    exact congrArg (Option.map · _) (funext same)
  ext1
  case blockCount => exact Array.size_map
  case nodes => exact funext fun b => congrArg (Option.getD · []) (read (·.nodes) (fun _ => rfl) b)
  case successors =>
    exact funext fun b => congrArg (Option.getD · []) (read (·.successors) (fun _ => rfl) b)
  case predecessors =>
    exact funext fun b => congrArg (Option.getD · []) (read (·.predecessors) (fun _ => rfl) b)
  all_goals rfl

theorem order_uncached (g : Graph S K) (block : BlockId) :
    g.uncached.order block = g.order block := by
  unfold order
  rw [block?_uncached, Option.map_map]
  rfl

/-! ## Writing without caches -/

/-- A change of a block that does not depend on its cache is made to the uncached block just
as well. -/
theorem uncached_modifyBlock (g : Graph S K) (block : BlockId) {f f' : Block → Block}
    (same : ∀ data : Block, (f data).uncached = f' data.uncached) :
    (g.modifyBlock block f).uncached = g.uncached.modifyBlock block f' := by
  have blocks : (g.blocks.modify block.index f).map Block.uncached =
      (g.blocks.map Block.uncached).modify block.index f' := by
    refine Array.ext_getElem? fun i => ?_
    rw [Array.getElem?_map, Array.getElem?_modify, Array.getElem?_modify, Array.getElem?_map]
    split
    · rw [Option.map_map, Option.map_map]
      exact congrArg (Option.map · _) (funext same)
    · rfl
  exact congrArg (fun blocks => { g with blocks := blocks, tracksCallSites := false }) blocks

/-- Noting a call site writes the cache only. -/
theorem uncached_addCallSite (g : Graph S K) (home : BlockId) (owner : NodeId) :
    (g.modifyBlock home (·.addCallSite owner)).uncached = g.uncached := by
  have only : ∀ data : Block, (data.addCallSite owner).uncached = id data.uncached := by
    intro data
    rw [addCallSite_eq]
    rfl
  rw [uncached_modifyBlock g home only]
  have blocks : g.uncached.blocks.modify home.index id = g.uncached.blocks := by
    refine Array.ext_getElem? fun i => ?_
    rw [Array.getElem?_modify, Option.map_id]
    split <;> rfl
  exact congrArg (fun blocks => { g.uncached with blocks := blocks }) blocks

theorem uncached_setOrder (g : Graph S K) (block : BlockId) (k : Nat) :
    (g.setOrder block k).uncached = g.uncached.setOrder block k :=
  uncached_modifyBlock g block fun _ => rfl

theorem uncached_clearOrders (g : Graph S K) :
    g.clearOrders.uncached = g.uncached.clearOrders := by
  have blocks : (g.blocks.map Block.unstamped).map Block.uncached =
      (g.blocks.map Block.uncached).map Block.unstamped := by
    rw [Array.map_map, Array.map_map]
    rfl
  exact congrArg (fun blocks => { g with blocks := blocks, tracksCallSites := false }) blocks

/-! ## Single steps -/

theorem placementError_uncached (g : Graph S K) (block : BlockId) (earlier nodes : List NodeId) :
    g.uncached.placementError block earlier nodes = g.placementError block earlier nodes := by
  induction nodes generalizing earlier with
  | nil => rfl
  | cons node rest ih =>
      unfold placementError
      simp only [node?_uncached, ih]

theorem place_uncached (g : Graph S K) (block : BlockId) (nodes : List NodeId) :
    g.uncached.place block nodes = (g.place block nodes).uncached := by
  induction nodes generalizing g with
  | nil => rfl
  | cons node rest ih =>
      exact ih (g.modifyNode node fun data => { data with block := some block })

theorem addBlock_uncached (g : Graph S K) (nodes : List NodeId) :
    g.uncached.addBlock nodes = Prod.map id uncached <$> g.addBlock nodes := by
  cases nodes with
  | nil => rfl
  | cons first rest =>
      unfold addBlock
      simp only [nextBlock_uncached, placementError_uncached, place_uncached]
      cases g.placementError g.nextBlock [] (first :: rest) with
      | some reason => rfl
      | none =>
          let placed := g.place g.nextBlock (first :: rest)
          let made : Block := { id := g.nextBlock, first, rest }
          have blocks : (placed.blocks.push made).map Block.uncached =
              (placed.blocks.map Block.uncached).push made := Array.map_push
          exact congrArg (fun blocks => Except.ok (g.nextBlock,
            { placed with blocks := blocks, tracksCallSites := false })) blocks.symm

theorem addEdge_uncached (g : Graph S K) (source target : BlockId) :
    g.uncached.addEdge source target = uncached <$> g.addEdge source target := by
  refine bind_map (requireBlock_uncached g source) fun _ => ?_
  refine bind_map (requireBlock_uncached g target) fun _ => ?_
  refine congrArg Except.ok (Eq.symm ?_)
  refine Eq.trans (uncached_modifyBlock _ target ?_)
    (congrArg (modifyBlock · target _) (uncached_modifyBlock g source ?_))
  all_goals exact fun _ => rfl

theorem setEntry_uncached (g : Graph S K) (block : BlockId) :
    g.uncached.setEntry block = uncached <$> g.setEntry block :=
  bind_map (requireBlock_uncached g block) fun _ => rfl

theorem addSubgraph_uncached (g : Graph S K) (owner : NodeId) (entryBlock : BlockId) :
    g.uncached.addSubgraph owner entryBlock =
      Prod.map id uncached <$> g.addSubgraph owner entryBlock := by
  refine bind_map (id_map (g.requireNode owner)).symm fun caller => ?_
  cases placed : caller.block with
  | none => simp [placed, Functor.map, Except.map]
  | some home =>
      simp only [placed, id]
      refine bind_map (requireBlock_uncached g entryBlock) fun entry => ?_
      refine congrArg (fun made => Except.ok (g.nextSubgraph, made)) (Eq.symm ?_)
      split
      · exact uncached_addCallSite _ home owner
      · rfl

theorem setParameters_uncached (g : Graph S K) (node : NodeId) (params : Parameters K) :
    g.uncached.setParameters node params = uncached <$> g.setParameters node params := by
  unfold setParameters
  rw [requireNode_uncached]
  cases g.requireNode node <;> rfl

/-! ## Common shapes -/

theorem addNodes_uncached (states : List S) (g : Graph S K) :
    g.uncached.addNodes states = Prod.map id uncached (g.addNodes states) := by
  induction states generalizing g with
  | nil => rfl
  | cons state rest ih =>
      have later := ih (g.addNode state).2
      have step : (g.addNode state).2.uncached = (g.uncached.addNode state).2 := rfl
      simp only [addNodes, ← step, later]
      rfl

theorem addFreshBlock_uncached (g : Graph S K) (states : List S) :
    g.uncached.addFreshBlock states = Prod.map id uncached <$> g.addFreshBlock states := by
  unfold addFreshBlock
  rw [addNodes_uncached]
  exact addBlock_uncached (g.addNodes states).2 (g.addNodes states).1

theorem addEdgeFrom_uncached (g : Graph S K) (previous : Option BlockId) (block : BlockId) :
    g.uncached.addEdgeFrom previous block = uncached <$> g.addEdgeFrom previous block := by
  cases previous with
  | none => rfl
  | some before => exact addEdge_uncached g before block

theorem addChainAfter_uncached (states : List S) (g : Graph S K) (previous : Option BlockId) :
    g.uncached.addChainAfter previous states =
      Prod.map id uncached <$> g.addChainAfter previous states := by
  induction states generalizing g previous with
  | nil => rfl
  | cons state rest ih =>
      refine bind_map (addFreshBlock_uncached g [state]) fun ⟨block, made⟩ => ?_
      refine bind_map (addEdgeFrom_uncached made previous block) fun linked => ?_
      exact bind_map (ih linked (some block)) fun _ => rfl

theorem addRing_uncached (g : Graph S K) (len : Nat) (state : Nat → S) :
    g.uncached.addRing len state = Prod.map id uncached <$> g.addRing len state := by
  refine bind_map (addChainAfter_uncached _ g none) fun ⟨blocks, made⟩ => ?_
  cases blocks with
  | nil => rfl
  | cons first rest => exact bind_map (addEdge_uncached made _ first) fun _ => rfl

theorem addCall_uncached (g : Graph S K) (owner : NodeId) (entryBlock : BlockId)
    (params : Option (Parameters K)) :
    g.uncached.addCall owner entryBlock params =
      Prod.map id uncached <$> g.addCall owner entryBlock params := by
  refine bind_map (addSubgraph_uncached g owner entryBlock) fun ⟨sub, attached⟩ => ?_
  cases params with
  | none => rfl
  | some declared =>
      refine bind_map (requireBlock_uncached attached entryBlock) fun entry => ?_
      exact bind_map (setParameters_uncached attached entry.first declared) fun _ => rfl

/-! ## Histories -/

namespace Op

/-- **Operations read no cache.**  An operation is refused for one reason with caches and
without, or it makes one graph. -/
theorem run_uncached (op : Op S K) (g : Graph S K) :
    op.run g.uncached = Graph.uncached <$> op.run g := by
  -- the graph that comes with handles is the one without handles
  have second {α : Type} {x x' : Except GraphError (α × Graph S K)}
      (same : x' = Prod.map id Graph.uncached <$> x) :
      (·.2) <$> x' = Graph.uncached <$> ((·.2) <$> x) := by
    subst same
    cases x <;> rfl
  cases op with
  | addNode state => rfl
  | addBlock nodes => exact second (addBlock_uncached g nodes)
  | addEdge source target => exact addEdge_uncached g source target
  | setEntry block => exact setEntry_uncached g block
  | addSubgraph owner entryBlock => exact second (addSubgraph_uncached g owner entryBlock)
  | setParameters node params => exact setParameters_uncached g node params
  | addFreshBlock states => exact second (addFreshBlock_uncached g states)
  | addChain len state => exact second (addChainAfter_uncached _ g none)
  | addRing len state => exact second (addRing_uncached g len state)
  | addCall owner entryBlock params => exact second (addCall_uncached g owner entryBlock params)
  | modifyState node f => rfl
  | setOrder block k => exact congrArg Except.ok (uncached_setOrder g block k).symm
  | clearOrders => exact congrArg Except.ok (uncached_clearOrders g).symm

theorem apply_uncached (op : Op S K) (g : Graph S K) :
    op.apply g.uncached = (op.apply g).uncached := by
  unfold apply
  rw [run_uncached]
  cases op.run g <;> rfl

end Op

theorem history_uncached (ops : List (Op S K)) (g : Graph S K) :
    g.uncached.history ops = (g.history ops).uncached := by
  induction ops generalizing g with
  | nil => rfl
  | cons op rest ih =>
      have step : g.uncached.history (op :: rest) = (op.apply g.uncached).history rest := rfl
      rw [step, op.apply_uncached, ih]
      rfl

/-- **Building with and without caches builds one graph**, but for the caches. -/
theorem uncached_built (tracks : Bool) (ops : List (Op S K)) :
    (built tracks ops).uncached = built false ops := by
  have start : (empty tracks : Graph S K).uncached = empty false := by
    simp only [uncached, empty, Array.map_empty]
  rw [built, ← history_uncached, start, built]

end Graph

end BlockFlow
