/-
# BlockFlow.Proofs.Refusals -- which operations are refused, and why

`Op.Refused` lists the reasons for which an operation is refused, each with the condition under
which it is the one reported.  A block is refused for the first of its nodes that cannot be part of
it (`Offends`), an edge for its source before its target, a call for its owner, the place of the
owner and its entry, in this order.  The shapes have no reasons of their own: a fresh block is
refused when it has no states, a call when its subgraph is, a chain or a ring never.

`built_refuses` says that these are all the reasons, and that an operation which meets with one of
them has not changed the graph it works on.
-/
import BlockFlow.Proofs.InPlace

namespace BlockFlow.Graph

set_option autoImplicit false

variable {S K : Type}

/-! ## Reasons -/

/-- Nodes that can become a block together: known, detached and distinct. -/
def Free (g : Graph S K) (nodes : List NodeId) : Prop :=
  (∀ node ∈ nodes, g.topology.hasNode node = true ∧ g.topology.blockOf node = none) ∧ nodes.Nodup

/-- Why `node` cannot follow the nodes `earlier` in a block. -/
inductive Offends (g : Graph S K) (earlier : List NodeId) (node : NodeId) : GraphError → Prop
  | unknown : g.topology.hasNode node = false → Offends g earlier node (.unknownNode node)
  | placed {home : BlockId} : g.topology.blockOf node = some home →
      Offends g earlier node (.alreadyPlaced node home)
  /-- The block this node is in already is the one about to be made. -/
  | repeated : g.topology.hasNode node = true → g.topology.blockOf node = none → node ∈ earlier →
      Offends g earlier node (.alreadyPlaced node g.nextBlock)

/-- Why an operation on `g` is refused. -/
inductive Op.Refused (g : Graph S K) : Op S K → GraphError → Prop
  | noNodes : Refused g (.addBlock []) .emptyBlock
  | offender {nodes before after : List NodeId} {node : NodeId} {reason : GraphError} :
      nodes = before ++ node :: after → g.Free before → g.Offends before node reason →
      Refused g (.addBlock nodes) reason
  | source {source target : BlockId} : g.topology.hasBlock source = false →
      Refused g (.addEdge source target) (.unknownBlock source)
  | target {source target : BlockId} : g.topology.hasBlock source = true →
      g.topology.hasBlock target = false → Refused g (.addEdge source target) (.unknownBlock target)
  | entry {block : BlockId} : g.topology.hasBlock block = false →
      Refused g (.setEntry block) (.unknownBlock block)
  | owner {owner : NodeId} {entryBlock : BlockId} : g.topology.hasNode owner = false →
      Refused g (.addSubgraph owner entryBlock) (.unknownNode owner)
  | detached {owner : NodeId} {entryBlock : BlockId} : g.topology.hasNode owner = true →
      g.topology.blockOf owner = none → Refused g (.addSubgraph owner entryBlock) (.notPlaced owner)
  | callee {owner : NodeId} {entryBlock home : BlockId} : g.topology.blockOf owner = some home →
      g.topology.hasBlock entryBlock = false →
      Refused g (.addSubgraph owner entryBlock) (.unknownBlock entryBlock)
  | node {node : NodeId} {params : Parameters K} : g.topology.hasNode node = false →
      Refused g (.setParameters node params) (.unknownNode node)
  | noStates : Refused g (.addFreshBlock []) .emptyBlock
  | call {owner : NodeId} {entryBlock : BlockId} {params : Option (Parameters K)}
      {reason : GraphError} : Refused g (.addSubgraph owner entryBlock) reason →
      Refused g (.addCall owner entryBlock params) reason

/-! ## Lookups -/

theorem bind_eq_error {α β : Type} {step : Except GraphError α} {next : α → Except GraphError β}
    {reason : GraphError} : (step >>= next) = .error reason ↔
      step = .error reason ∨ ∃ a, step = .ok a ∧ next a = .error reason := by
  cases step with
  | error other => simp [bind, Except.bind]
  | ok a => simp [bind, Except.bind]

theorem map_eq_error {α β : Type} {step : Except GraphError α} {f : α → β} {reason : GraphError} :
    f <$> step = .error reason ↔ step = .error reason := by
  cases step with
  | error other => simp [Functor.map, Except.map]
  | ok a => simp [Functor.map, Except.map]

theorem hasBlock_of_requireBlock {g : Graph S K} {block : BlockId} {data : Block}
    (found : g.requireBlock block = .ok data) : g.topology.hasBlock block = true :=
  hasBlock_iff.mpr ⟨data, requireBlock_eq_ok.mp found⟩

theorem hasBlock_eq_false {g : Graph S K} {block : BlockId} :
    g.topology.hasBlock block = false ↔ g.block? block = none := by
  rw [← Bool.not_eq_true, hasBlock_iff]
  cases g.block? block <;> simp

theorem hasNode_eq_false {g : Graph S K} {node : NodeId} :
    g.topology.hasNode node = false ↔ g.node? node = none := by
  rw [← Bool.not_eq_true, hasNode_iff]
  cases g.node? node <;> simp

theorem requireBlock_eq_error {g : Graph S K} {block : BlockId} {reason : GraphError} :
    g.requireBlock block = .error reason ↔
      g.topology.hasBlock block = false ∧ reason = .unknownBlock block := by
  rw [hasBlock_eq_false, requireBlock]
  cases g.block? block <;> simp [eq_comm]

theorem requireNode_eq_error {g : Graph S K} {node : NodeId} {reason : GraphError} :
    g.requireNode node = .error reason ↔
      g.topology.hasNode node = false ∧ reason = .unknownNode node := by
  rw [hasNode_eq_false, requireNode]
  cases g.node? node <;> simp [eq_comm]

/-! ## Blocks -/

/-- A node that offends is the one reported, whatever comes after it. -/
theorem Offends.placementError {g : Graph S K} {earlier : List NodeId} {node : NodeId}
    {reason : GraphError} (offends : g.Offends earlier node reason) (rest : List NodeId) :
    g.placementError g.nextBlock earlier (node :: rest) = some reason := by
  cases offends with
  | unknown absent => rw [Graph.placementError, hasNode_eq_false.mp absent]
  | placed home =>
      obtain ⟨data, found, inBlock⟩ := Option.bind_eq_some_iff.mp home
      simp only [Graph.placementError, found, inBlock]
  | repeated known detached again =>
      obtain ⟨data, found⟩ := hasNode_iff.mp known
      have free : data.block = none := by simpa [topology, blockOf, found] using detached
      simp only [Graph.placementError, found, free, again, if_true]

theorem Offends.mono {g : Graph S K} {seen earlier : List NodeId} {node : NodeId}
    {reason : GraphError} (within : seen ⊆ earlier) (offends : g.Offends seen node reason) :
    g.Offends earlier node reason := by
  cases offends with
  | unknown absent => exact .unknown absent
  | placed home => exact .placed home
  | repeated known detached again => exact .repeated known detached (within again)

/-- The first node either offends or is passed over. -/
theorem offends_or_passed (g : Graph S K) (earlier : List NodeId) (node : NodeId) :
    (∃ reason, g.Offends earlier node reason) ∨ ∀ rest,
      g.placementError g.nextBlock earlier (node :: rest) =
        g.placementError g.nextBlock (node :: earlier) rest := by
  have place : g.topology.blockOf node = (g.node? node).bind (·.block) := rfl
  cases found : g.node? node with
  | none => exact .inl ⟨_, .unknown (hasNode_eq_false.mpr found)⟩
  | some data =>
      rw [found, Option.bind_some] at place
      cases inBlock : data.block with
      | some home => exact .inl ⟨_, .placed (place.trans inBlock)⟩
      | none =>
          by_cases repeated : node ∈ earlier
          · have known := hasNode_iff.mpr ⟨data, found⟩
            exact .inl ⟨_, .repeated known (place.trans inBlock) repeated⟩
          · refine .inr fun rest => ?_
            simp only [Graph.placementError, found, inBlock, repeated, if_false]

/-- Nodes that are all passed over have no say in what is reported of those after them. -/
theorem placementError_append {g : Graph S K} {earlier before : List NodeId}
    (passed : g.placementError g.nextBlock earlier before = none) (rest : List NodeId) :
    g.placementError g.nextBlock earlier (before ++ rest) =
      g.placementError g.nextBlock (before.reverse ++ earlier) rest := by
  induction before generalizing earlier with
  | nil => rfl
  | cons node before ih =>
      obtain ⟨reason, offends⟩ | next := g.offends_or_passed earlier node
      · rw [offends.placementError] at passed
        cases passed
      · rw [next] at passed
        rw [List.cons_append, next, ih passed]
        simp

/-- Nodes are refused for one that offends, when those before it are passed over. -/
theorem exists_offends {g : Graph S K} {earlier nodes : List NodeId} {reason : GraphError}
    (failed : g.placementError g.nextBlock earlier nodes = some reason) :
    ∃ before node after, nodes = before ++ node :: after ∧
      g.placementError g.nextBlock earlier before = none ∧
        g.Offends (before.reverse ++ earlier) node reason := by
  induction nodes generalizing earlier with
  | nil => cases failed
  | cons node rest ih =>
      obtain ⟨other, offends⟩ | next := g.offends_or_passed earlier node
      · rw [offends.placementError] at failed
        cases failed
        exact ⟨[], node, rest, rfl, rfl, offends⟩
      · rw [next] at failed
        obtain ⟨before, offender, after, rfl, passed, offends⟩ := ih failed
        refine ⟨node :: before, offender, after, rfl, (next before).trans passed, ?_⟩
        simpa using offends

theorem free_iff {g : Graph S K} {nodes : List NodeId} :
    g.Free nodes ↔ g.placementError g.nextBlock [] nodes = none := by
  rw [placementError_eq_none]
  simp [Free]

theorem addBlock_refused {g : Graph S K} {nodes : List NodeId} {reason : GraphError} :
    (Op.addBlock nodes).run g = .error reason ↔ (Op.addBlock nodes).Refused g reason := by
  cases nodes with
  | nil =>
      constructor
      · rintro ⟨⟩
        exact .noNodes
      · intro refused
        cases refused with
        | noNodes => rfl
        | offender split => simp at split
  | cons first rest =>
      have run : (Op.addBlock (first :: rest)).run g = .error reason ↔
          g.placementError g.nextBlock [] (first :: rest) = some reason := by
        show (·.2) <$> g.addBlock (first :: rest) = .error reason ↔ _
        rw [addBlock]
        cases g.placementError g.nextBlock [] (first :: rest) with
        | none =>
            constructor
            · rintro ⟨⟩
            · rintro ⟨⟩
        | some other =>
            constructor
            · rintro ⟨⟩
              rfl
            · rintro ⟨⟩
              rfl
      rw [run]
      constructor
      · intro failed
        obtain ⟨before, node, after, split, passed, offends⟩ := exists_offends failed
        exact .offender split (free_iff.mpr passed) (offends.mono (by simp))
      · intro refused
        cases refused with
        | offender split free offends =>
            rw [split, placementError_append (free_iff.mp free)]
            exact (offends.mono (by simp)).placementError _

/-! ## Edges and calls -/

theorem addEdge_refused {g : Graph S K} {source target : BlockId} {reason : GraphError} :
    (Op.addEdge source target).run g = .error reason ↔
      (Op.addEdge source target).Refused g reason := by
  show g.addEdge source target = .error reason ↔ _
  rw [addEdge, bind_eq_error, requireBlock_eq_error]
  constructor
  · rintro (⟨absent, rfl⟩ | ⟨leaving, start, failed⟩)
    · exact .source absent
    · rw [bind_eq_error, requireBlock_eq_error] at failed
      obtain ⟨absent, rfl⟩ | ⟨_, _, done⟩ := failed
      · exact .target (hasBlock_of_requireBlock start) absent
      · cases done
  · intro refused
    cases refused with
    | source absent => exact .inl ⟨absent, rfl⟩
    | target known absent =>
        obtain ⟨leaving, start⟩ := hasBlock_iff.mp known
        refine .inr ⟨leaving, requireBlock_eq_ok.mpr start, ?_⟩
        exact bind_eq_error.mpr (.inl (requireBlock_eq_error.mpr ⟨absent, rfl⟩))

theorem setEntry_refused {g : Graph S K} {block : BlockId} {reason : GraphError} :
    (Op.setEntry block).run g = .error reason ↔ (Op.setEntry block).Refused g reason := by
  show g.setEntry block = .error reason ↔ _
  rw [setEntry, bind_eq_error, requireBlock_eq_error]
  constructor
  · rintro (⟨absent, rfl⟩ | ⟨_, _, done⟩)
    · exact .entry absent
    · cases done
  · intro refused
    cases refused with
    | entry absent => exact .inl ⟨absent, rfl⟩

theorem setParameters_refused {g : Graph S K} {node : NodeId} {params : Parameters K}
    {reason : GraphError} :
    (Op.setParameters node params).run g = .error reason ↔
      (Op.setParameters node params).Refused g reason := by
  show g.setParameters node params = .error reason ↔ _
  rw [setParameters, bind_eq_error, requireNode_eq_error]
  constructor
  · rintro (⟨absent, rfl⟩ | ⟨_, _, done⟩)
    · exact .node absent
    · cases done
  · intro refused
    cases refused with
    | node absent => exact .inl ⟨absent, rfl⟩

theorem addSubgraph_refused {g : Graph S K} {owner : NodeId} {entryBlock : BlockId}
    {reason : GraphError} :
    g.addSubgraph owner entryBlock = .error reason ↔
      Op.Refused g (.addSubgraph owner entryBlock) reason := by
  rw [addSubgraph, bind_eq_error, requireNode_eq_error]
  constructor
  · rintro (⟨absent, rfl⟩ | ⟨⟨state, home, subgraphs, params⟩, caller, failed⟩)
    · exact .owner absent
    · have found := requireNode_eq_ok.mp caller
      have known := hasNode_iff.mpr ⟨_, found⟩
      have place : g.topology.blockOf owner = home := by simp [topology, blockOf, found]
      cases home with
      | none =>
          cases failed
          exact .detached known place
      | some home =>
          dsimp only at failed
          rw [bind_eq_error, requireBlock_eq_error] at failed
          obtain ⟨absent, rfl⟩ | ⟨_, _, done⟩ := failed
          · exact .callee place absent
          · cases done
  · intro refused
    cases refused with
    | owner absent => exact .inl ⟨absent, rfl⟩
    | detached known detached =>
        obtain ⟨⟨state, home, subgraphs, params⟩, found⟩ := hasNode_iff.mp known
        have place : g.topology.blockOf owner = home := by simp [topology, blockOf, found]
        cases place.symm.trans detached
        exact .inr ⟨_, requireNode_eq_ok.mpr found, rfl⟩
    | callee placed absent =>
        obtain ⟨⟨state, home, subgraphs, params⟩, found, rfl⟩ := Option.bind_eq_some_iff.mp placed
        refine .inr ⟨_, requireNode_eq_ok.mpr found, ?_⟩
        exact bind_eq_error.mpr (.inl (requireBlock_eq_error.mpr ⟨absent, rfl⟩))

/-- The parameters of a call are never what it is refused for. -/
theorem addCall_refused {g : Graph S K} (coherent : g.Coherent) {owner : NodeId}
    {entryBlock : BlockId} {params : Option (Parameters K)} {reason : GraphError} :
    g.addCall owner entryBlock params = .error reason ↔
      g.addSubgraph owner entryBlock = .error reason := by
  rw [addCall, bind_eq_error]
  constructor
  · rintro (failed | ⟨⟨sub, g'⟩, attached, failed⟩)
    · exact failed
    · cases params with
      | none => cases failed
      | some declared =>
          obtain ⟨entry, g'', found, declares⟩ := addCall_ok coherent attached declared
          simp only [found, declares, bind, Except.bind] at failed
          cases failed
  · exact .inl

/-! ## Operations -/

/-- The reasons listed are the reasons there are. -/
theorem Op.run_eq_error_iff {g : Graph S K} (coherent : g.Coherent) (op : Op S K)
    (reason : GraphError) : op.run g = .error reason ↔ op.Refused g reason := by
  cases op with
  | addBlock nodes => exact addBlock_refused
  | addEdge source target => exact addEdge_refused
  | setEntry block => exact setEntry_refused
  | addSubgraph owner entryBlock => exact map_eq_error.trans addSubgraph_refused
  | setParameters node params => exact setParameters_refused
  | addCall owner entryBlock params =>
      have call : Op.Refused g (.addCall owner entryBlock params) reason ↔
          Op.Refused g (.addSubgraph owner entryBlock) reason :=
        ⟨fun | .call refused => refused, .call⟩
      rw [call, ← addSubgraph_refused]
      exact map_eq_error.trans (addCall_refused coherent)
  | addFreshBlock states =>
      refine map_eq_error.trans ?_
      cases states with
      | nil =>
          constructor
          · rintro ⟨⟩
            exact .noStates
          · rintro ⟨⟩
            rfl
      | cons state rest =>
          obtain ⟨made, ok⟩ := g.addFreshBlock_ok (List.cons_ne_nil state rest)
          rw [ok]
          exact ⟨nofun, nofun⟩
  | addChain len state =>
      obtain ⟨g', ok, -⟩ := g.addChain_ok len state
      refine map_eq_error.trans ?_
      rw [ok]
      exact ⟨nofun, nofun⟩
  | addRing len state =>
      obtain ⟨g', ok, -⟩ := g.addRing_ok len state
      refine map_eq_error.trans ?_
      rw [ok]
      exact ⟨nofun, nofun⟩
  | addNode state => exact ⟨nofun, nofun⟩
  | modifyState node f => exact ⟨nofun, nofun⟩
  | setOrder block k => exact ⟨nofun, nofun⟩
  | clearOrders => exact ⟨nofun, nofun⟩

/-- **Operations are refused for the right reason and refused whole.**  On a graph built by any
operations, accepted or refused, an operation is refused for exactly the reasons listed for it.
Carried out in place, a refused operation leaves the graph entirely as it was, and an accepted one
makes the graph it answers with. -/
theorem built_refuses (tracksCallSites : Bool) (ops : List (Op S K)) (op : Op S K) :
    let g := built tracksCallSites ops
    (∀ reason, op.run g = .error reason ↔ op.Refused g reason) ∧
      (∀ reason, op.run g = .error reason → op.edit.on g = (.error reason, g)) ∧
      ∀ g', op.run g = .ok g' → op.edit.on g = (.ok (), g') := by
  intro g
  have coherent : g.Coherent := built_coherent tracksCallSites ops
  have inPlace := op.on_edit coherent
  refine ⟨op.run_eq_error_iff coherent, ?_, ?_⟩
  · intro reason refused
    rw [inPlace, refused]
    rfl
  · intro g' accepted
    rw [inPlace, accepted]
    rfl

/-- A node listed twice is reported as placed already in the block that is not there yet. -/
example : (Op.addBlock [⟨0⟩, ⟨0⟩] : Op Unit Unit).run (built true [.addNode ()]) =
    .error (.alreadyPlaced ⟨0⟩ ⟨0⟩) := rfl

end BlockFlow.Graph
