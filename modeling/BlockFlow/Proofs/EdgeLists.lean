/-
# BlockFlow.Proofs.EdgeLists -- where the edge lists of a graph come from

An edge is added by a call of `addEdge`, be it an operation of its own or one of the calls
that a chain or a ring is made of.  `Op.edges` lists the calls one operation makes and
`edgesAlong` those of a history, in the order of the calls and without the refused ones.

From these calls alone the edge lists can be told (`built_edges`): the successors of a block
are the targets of the calls that name it as the source, each where it was named first, and
its predecessors are the sources of the calls that name it as the target.  No other step
writes either list, so each operation adds its own calls and nothing else (`EdgesAdded`),
and what operations add is added up along the history.
-/
import BlockFlow.Proofs.Coherence

namespace BlockFlow

set_option autoImplicit false

/-- The targets of the edges that leave `source`. -/
def targets (edges : List (BlockId × BlockId)) (source : BlockId) : List BlockId :=
  (edges.filter (·.1 = source)).map (·.2)

/-- The sources of the edges that enter `target`. -/
def sources (edges : List (BlockId × BlockId)) (target : BlockId) : List BlockId :=
  (edges.filter (·.2 = target)).map (·.1)

theorem targets_append (edges later : List (BlockId × BlockId)) (source : BlockId) :
    targets (edges ++ later) source = targets edges source ++ targets later source := by
  simp [targets]

theorem sources_append (edges later : List (BlockId × BlockId)) (target : BlockId) :
    sources (edges ++ later) target = sources edges target ++ sources later target := by
  simp [sources]

/-- Each block with the one that comes after it. -/
def links (blocks : List BlockId) : List (BlockId × BlockId) := blocks.zip blocks.tail

/-- Each block with the one that comes after it, and the last with the first. -/
def ringLinks : List BlockId → List (BlockId × BlockId)
  | [] => []
  | first :: rest => links (first :: rest) ++ [(rest.getLastD first, first)]

namespace Graph

variable {S K : Type}

/-! ## The calls an operation makes -/

namespace Op

/-- The edges an operation adds, in the order of the calls; none when it is refused. -/
def edges (op : Op S K) (g : Graph S K) : List (BlockId × BlockId) :=
  match op with
  | addEdge source target =>
    match g.addEdge source target with
    | .ok _ => [(source, target)]
    | .error _ => []
  | addChain len state =>
    match g.addChain len state with
    | .ok (blocks, _) => links blocks
    | .error _ => []
  | addRing len state =>
    match g.addRing len state with
    | .ok (blocks, _) => ringLinks blocks
    | .error _ => []
  | _ => []

end Op

/-- The edges these operations add in turn, in the order of the calls. -/
def edgesAlong (g : Graph S K) : List (Op S K) → List (BlockId × BlockId)
  | [] => []
  | op :: rest => op.edges g ++ edgesAlong (op.apply g) rest

/-! ## What calls do to the edge lists -/

/-- The edge lists of `g'` are those of `g` with `edges` added in turn. -/
structure EdgesAdded (g : Graph S K) (edges : List (BlockId × BlockId)) (g' : Graph S K) :
    Prop where
  successors : ∀ block, g'.topology.successors block =
    Distinct.addAll (g.topology.successors block) (targets edges block)
  predecessors : ∀ block, g'.topology.predecessors block =
    Distinct.addAll (g.topology.predecessors block) (sources edges block)

namespace EdgesAdded

variable {g g' g'' : Graph S K} {edges later : List (BlockId × BlockId)}

/-- A step that writes no edge list adds no edge. -/
theorem of_eq (out : g'.topology.successors = g.topology.successors)
    (back : g'.topology.predecessors = g.topology.predecessors) : EdgesAdded g [] g' where
  successors block := congrFun out block
  predecessors block := congrFun back block

theorem of_topology_eq (same : g'.topology = g.topology) : EdgesAdded g [] g' :=
  of_eq (by rw [same]) (by rw [same])

theorem refl (g : Graph S K) : EdgesAdded g [] g := of_eq rfl rfl

theorem trans (before : EdgesAdded g edges g') (after : EdgesAdded g' later g'') :
    EdgesAdded g (edges ++ later) g'' where
  successors block := by
    rw [after.successors, before.successors, targets_append]
    exact List.foldl_append.symm
  predecessors block := by
    rw [after.predecessors, before.predecessors, sources_append]
    exact List.foldl_append.symm

/-! ### Single steps -/

theorem addNode (g : Graph S K) (state : S) : EdgesAdded g [] (g.addNode state).2 :=
  of_eq (by rw [topology_addNode]) (by rw [topology_addNode])

theorem addBlock {nodes : List NodeId} {block : BlockId}
    (accepted : g.addBlock nodes = .ok (block, g')) : EdgesAdded g [] g' := by
  obtain ⟨-, -, -, -, -, shape⟩ := addBlock_spec accepted
  exact of_eq (by rw [shape]) (by rw [shape])

theorem addEdge {source target : BlockId} (accepted : g.addEdge source target = .ok g') :
    EdgesAdded g [(source, target)] g' := by
  obtain ⟨-, -, -, shape⟩ := addEdge_spec accepted
  constructor <;> intro block <;> rw [shape]
  case successors =>
    dsimp only
    split
    · rename_i same
      subst same
      simp [targets, Distinct.addAll]
    · rename_i apart
      simp [targets, Distinct.addAll, Ne.symm apart]
  case predecessors =>
    dsimp only
    split
    · rename_i same
      subst same
      simp [sources, Distinct.addAll]
    · rename_i apart
      simp [sources, Distinct.addAll, Ne.symm apart]

theorem setEntry {block : BlockId} (accepted : g.setEntry block = .ok g') :
    EdgesAdded g [] g' := by
  obtain ⟨-, rfl⟩ := setEntry_spec accepted
  exact of_eq rfl rfl

theorem addSubgraph (coherent : g.Coherent) {owner : NodeId} {entry : BlockId} {sub : SubgraphId}
    (accepted : g.addSubgraph owner entry = .ok (sub, g')) : EdgesAdded g [] g' := by
  obtain ⟨-, -, home, first, -, -, -, -, shape⟩ :=
    addSubgraph_spec coherent.hasBlock_of_blockOf accepted
  exact of_eq (by rw [shape]) (by rw [shape])

theorem setParameters {node : NodeId} {params : Parameters K}
    (accepted : g.setParameters node params = .ok g') : EdgesAdded g [] g' :=
  of_topology_eq (setParameters_spec accepted).1

/-! ### Shapes -/

theorem addNodes (states : List S) (g : Graph S K) : EdgesAdded g [] (g.addNodes states).2 := by
  induction states generalizing g with
  | nil => exact refl g
  | cons state rest ih => exact (addNode g state).trans (ih _)

theorem addFreshBlock {states : List S} {block : BlockId}
    (accepted : g.addFreshBlock states = .ok (block, g')) : EdgesAdded g [] g' :=
  (addNodes states g).trans (addBlock accepted)

theorem addEdgeFrom {previous : Option BlockId} {block : BlockId}
    (accepted : g.addEdgeFrom previous block = .ok g') :
    EdgesAdded g (previous.toList.zip [block]) g' := by
  cases previous with
  | none =>
      cases accepted
      exact refl g
  | some before => exact addEdge accepted

/-- The blocks of a chain are linked each to the next, and the first to the one before. -/
theorem addChainAfter {states : List S} {g g' : Graph S K} {previous : Option BlockId}
    {blocks : List BlockId} (accepted : g.addChainAfter previous states = .ok (blocks, g')) :
    EdgesAdded g (links (previous.toList ++ blocks)) g' := by
  induction states generalizing g g' previous blocks with
  | nil =>
      cases accepted
      cases previous <;> exact refl g
  | cons state rest ih =>
      obtain ⟨⟨block, made⟩, fresh, accepted⟩ := bind_ok accepted
      obtain ⟨linked, edge, accepted⟩ := bind_ok accepted
      obtain ⟨⟨others, last⟩, later, accepted⟩ := bind_ok accepted
      cases accepted
      have added := (addFreshBlock fresh).trans ((addEdgeFrom edge).trans (ih later))
      cases previous <;> exact added

theorem addRing {len : Nat} {state : Nat → S} {blocks : List BlockId}
    (accepted : g.addRing len state = .ok (blocks, g')) :
    EdgesAdded g (ringLinks blocks) g' := by
  obtain ⟨⟨chain, made⟩, straight, accepted⟩ := bind_ok accepted
  have line := addChainAfter straight
  cases chain with
  | nil =>
      cases accepted
      exact line
  | cons first rest =>
      obtain ⟨closed, edge, accepted⟩ := bind_ok accepted
      cases accepted
      exact line.trans (addEdge edge)

theorem addCall (coherent : g.Coherent) {owner : NodeId} {entryBlock : BlockId}
    {params : Option (Parameters K)} {sub : SubgraphId}
    (accepted : g.addCall owner entryBlock params = .ok (sub, g')) : EdgesAdded g [] g' := by
  obtain ⟨⟨made, attached⟩, call, accepted⟩ := bind_ok accepted
  have before := addSubgraph coherent call
  cases params with
  | none =>
      cases accepted
      exact before
  | some declared =>
      obtain ⟨entry, found, accepted⟩ := bind_ok accepted
      obtain ⟨last, declares, accepted⟩ := bind_ok accepted
      cases accepted
      exact before.trans (setParameters declares)

/-! ### Operations -/

/-- An accepted operation adds the edges of its own calls. -/
theorem run (coherent : g.Coherent) {op : Op S K} (accepted : op.run g = .ok g') :
    EdgesAdded g (op.edges g) g' := by
  cases op with
  | addNode state =>
      cases accepted
      exact addNode g state
  | addBlock nodes =>
      obtain ⟨block, accepted⟩ := answer_ok accepted
      exact addBlock accepted
  | addEdge source target =>
      have called : g.addEdge source target = .ok g' := accepted
      have calls : (Op.addEdge source target).edges g = [(source, target)] := by
        simp only [Op.edges, called]
      exact calls ▸ addEdge called
  | setEntry block => exact setEntry accepted
  | addSubgraph owner entryBlock =>
      obtain ⟨sub, accepted⟩ := answer_ok accepted
      exact addSubgraph coherent accepted
  | setParameters node params => exact setParameters accepted
  | addFreshBlock states =>
      obtain ⟨block, accepted⟩ := answer_ok accepted
      exact addFreshBlock accepted
  | addChain len state =>
      obtain ⟨blocks, accepted⟩ := answer_ok accepted
      have calls : (Op.addChain len state).edges g = links blocks := by
        simp only [Op.edges, accepted]
      exact calls ▸ addChainAfter accepted
  | addRing len state =>
      obtain ⟨blocks, accepted⟩ := answer_ok accepted
      have calls : (Op.addRing len state).edges g = ringLinks blocks := by
        simp only [Op.edges, accepted]
      exact calls ▸ addRing accepted
  | addCall owner entryBlock params =>
      obtain ⟨sub, accepted⟩ := answer_ok accepted
      exact addCall coherent accepted
  | modifyState node f =>
      cases accepted
      exact of_topology_eq (topology_modifyState ..)
  | setOrder block k =>
      cases accepted
      exact of_topology_eq (topology_setOrder ..)
  | clearOrders =>
      cases accepted
      exact of_topology_eq (topology_clearOrders g)

/-- A refused operation adds no edge. -/
theorem edges_eq_nil {op : Op S K} {reason : GraphError} (refused : op.run g = .error reason) :
    op.edges g = [] := by
  unfold Op.edges
  split
  case h_1 source target =>
    have called : g.addEdge source target = .error reason := refused
    rw [called]
  case h_2 len state =>
    rw [answer_error refused]
  case h_3 len state =>
    rw [answer_error refused]
  case h_4 => rfl

theorem apply (coherent : g.Coherent) (op : Op S K) : EdgesAdded g (op.edges g) (op.apply g) := by
  unfold Op.apply
  cases outcome : op.run g with
  | error reason =>
      rw [edges_eq_nil outcome]
      exact refl g
  | ok g' => exact run coherent outcome

theorem history (ops : List (Op S K)) {g : Graph S K} (coherent : g.Coherent) :
    EdgesAdded g (g.edgesAlong ops) (g.history ops) := by
  induction ops generalizing g with
  | nil => exact refl g
  | cons op rest ih =>
      exact (apply coherent op).trans (ih (stepwise_coherent.apply op coherent))

end EdgesAdded

/-- What operations have built has the edges they added and no others. -/
theorem built_edges (tracks : Bool) (ops : List (Op S K)) (block : BlockId) :
    (built tracks ops).topology.successors block =
        (targets ((empty tracks).edgesAlong ops) block).eraseDups ∧
      (built tracks ops).topology.predecessors block =
        (sources ((empty tracks).edgesAlong ops) block).eraseDups := by
  have added := EdgesAdded.history ops (Coherent.empty (S := S) (K := K) tracks)
  exact ⟨(added.successors block).trans (Distinct.addAll_nil _),
    (added.predecessors block).trans (Distinct.addAll_nil _)⟩

/-- A ring of three, one of its edges once more, and an edge from a block that is not there. -/
example : (empty true : Graph Unit Unit).edgesAlong
    [.addRing 3 fun _ => (), .addEdge ⟨0⟩ ⟨1⟩, .addEdge ⟨3⟩ ⟨0⟩] =
      [(⟨0⟩, ⟨1⟩), (⟨1⟩, ⟨2⟩), (⟨2⟩, ⟨0⟩), (⟨0⟩, ⟨1⟩)] := by
  decide +kernel

end Graph

end BlockFlow
