/-
# BlockFlow.Proofs.History -- graphs reached by operations

An `Op` is one call on a graph: a construction step, one of the common shapes, or a write
to a state or a stamp.  A call that is refused leaves the graph as it was, and a
`history` is any list of calls, accepted or refused.

The shapes are put together from single steps, so a property of graphs that every
accepted single step keeps (`Stepwise`) is kept by every operation and holds after every
history (`Stepwise.history`).
-/
import BlockFlow.Proofs.Steps

namespace BlockFlow

set_option autoImplicit false

namespace Graph

variable {S K : Type}

/-- An operation on a graph. -/
inductive Op (S K : Type) where
  | addNode (state : S)
  | addBlock (nodes : List NodeId)
  | addEdge (source target : BlockId)
  | setEntry (block : BlockId)
  | addSubgraph (owner : NodeId) (entryBlock : BlockId)
  | setParameters (node : NodeId) (params : Parameters K)
  | addFreshBlock (states : List S)
  | addChain (len : Nat) (state : Nat → S)
  | addRing (len : Nat) (state : Nat → S)
  | addCall (owner : NodeId) (entryBlock : BlockId) (params : Option (Parameters K))
  | modifyState (node : NodeId) (f : S → S)
  | setOrder (block : BlockId) (k : Nat)
  | clearOrders

namespace Op

/-- The graph an operation makes, or why it is refused. -/
def run : Op S K → Graph S K → Except GraphError (Graph S K)
  | addNode state, g => .ok (g.addNode state).2
  | addBlock nodes, g => (·.2) <$> g.addBlock nodes
  | addEdge source target, g => g.addEdge source target
  | setEntry block, g => g.setEntry block
  | addSubgraph owner entryBlock, g => (·.2) <$> g.addSubgraph owner entryBlock
  | setParameters node params, g => g.setParameters node params
  | addFreshBlock states, g => (·.2) <$> g.addFreshBlock states
  | addChain len state, g => (·.2) <$> g.addChain len state
  | addRing len state, g => (·.2) <$> g.addRing len state
  | addCall owner entryBlock params, g => (·.2) <$> g.addCall owner entryBlock params
  | modifyState node f, g => .ok (g.modifyState node f)
  | setOrder block k, g => .ok (g.setOrder block k)
  | clearOrders, g => .ok g.clearOrders

/-- The graph after an operation that may have been refused. -/
def apply (op : Op S K) (g : Graph S K) : Graph S K :=
  match op.run g with
  | .ok g' => g'
  | .error _ => g

end Op

/-- An operation that also answers with handles is accepted with some of them. -/
theorem answer_ok {α : Type} {g' : Graph S K} {x : Except GraphError (α × Graph S K)}
    (accepted : (·.2) <$> x = .ok g') : ∃ answer, x = .ok (answer, g') := by
  cases x with
  | error reason => cases accepted
  | ok pair =>
      cases accepted
      exact ⟨pair.1, rfl⟩

theorem answer_error {α : Type} {x : Except GraphError (α × Graph S K)} {reason : GraphError}
    (refused : (·.2) <$> x = .error reason) : x = .error reason := by
  cases x with
  | error reason =>
      cases refused
      rfl
  | ok pair => cases refused

/-- The graph after these operations in turn. -/
def history (g : Graph S K) (ops : List (Op S K)) : Graph S K :=
  ops.foldl (fun g op => op.apply g) g

/-- The graph that these operations make out of nothing. -/
def built (tracksCallSites : Bool) (ops : List (Op S K)) : Graph S K :=
  history (empty tracksCallSites) ops

/-- Every accepted single step keeps `Inv`. -/
structure Stepwise (Inv : Graph S K → Prop) : Prop where
  addNode : ∀ g state, Inv g → Inv (g.addNode state).2
  addBlock : ∀ g nodes block g', Inv g → g.addBlock nodes = .ok (block, g') → Inv g'
  addEdge : ∀ g source target g', Inv g → g.addEdge source target = .ok g' → Inv g'
  setEntry : ∀ g block g', Inv g → g.setEntry block = .ok g' → Inv g'
  addSubgraph : ∀ g owner entryBlock sub g', Inv g →
    g.addSubgraph owner entryBlock = .ok (sub, g') → Inv g'
  setParameters : ∀ g node params g', Inv g → g.setParameters node params = .ok g' → Inv g'
  modifyState : ∀ g node f, Inv g → Inv (g.modifyState node f)
  setOrder : ∀ g block k, Inv g → Inv (g.setOrder block k)
  clearOrders : ∀ g, Inv g → Inv g.clearOrders

namespace Stepwise

variable {Inv : Graph S K → Prop} (steps : Stepwise Inv)

include steps

theorem addNodes (states : List S) (g : Graph S K) (inv : Inv g) : Inv (g.addNodes states).2 := by
  induction states generalizing g with
  | nil => exact inv
  | cons state rest ih => exact ih _ (steps.addNode g state inv)

theorem addFreshBlock {g g' : Graph S K} {states : List S} {block : BlockId} (inv : Inv g)
    (accepted : g.addFreshBlock states = .ok (block, g')) : Inv g' :=
  steps.addBlock _ _ _ _ (steps.addNodes states g inv) accepted

theorem addEdgeFrom {g g' : Graph S K} {previous : Option BlockId} {block : BlockId} (inv : Inv g)
    (accepted : g.addEdgeFrom previous block = .ok g') : Inv g' := by
  cases previous with
  | none =>
      cases accepted
      exact inv
  | some before => exact steps.addEdge _ _ _ _ inv accepted

theorem addChainAfter {states : List S} {g g' : Graph S K} {previous : Option BlockId}
    {blocks : List BlockId} (inv : Inv g)
    (accepted : g.addChainAfter previous states = .ok (blocks, g')) : Inv g' := by
  induction states generalizing g g' previous blocks with
  | nil =>
      cases accepted
      exact inv
  | cons state rest ih =>
      obtain ⟨⟨block, made⟩, fresh, accepted⟩ := bind_ok accepted
      obtain ⟨linked, edge, accepted⟩ := bind_ok accepted
      obtain ⟨⟨others, last⟩, later, accepted⟩ := bind_ok accepted
      cases accepted
      have before := steps.addFreshBlock inv fresh
      exact ih (steps.addEdgeFrom before edge) later

theorem addRing {g g' : Graph S K} {len : Nat} {state : Nat → S} {blocks : List BlockId}
    (inv : Inv g) (accepted : g.addRing len state = .ok (blocks, g')) : Inv g' := by
  obtain ⟨⟨chain, made⟩, straight, accepted⟩ := bind_ok accepted
  have before := steps.addChainAfter inv straight
  cases chain with
  | nil =>
      cases accepted
      exact before
  | cons first rest =>
      obtain ⟨closed, edge, accepted⟩ := bind_ok accepted
      cases accepted
      exact steps.addEdge _ _ _ _ before edge

theorem addCall {g g' : Graph S K} {owner : NodeId} {entryBlock : BlockId}
    {params : Option (Parameters K)} {sub : SubgraphId} (inv : Inv g)
    (accepted : g.addCall owner entryBlock params = .ok (sub, g')) : Inv g' := by
  obtain ⟨⟨made, attached⟩, call, accepted⟩ := bind_ok accepted
  have before := steps.addSubgraph _ _ _ _ _ inv call
  cases params with
  | none =>
      cases accepted
      exact before
  | some declared =>
      obtain ⟨entry, found, accepted⟩ := bind_ok accepted
      obtain ⟨last, declares, accepted⟩ := bind_ok accepted
      cases accepted
      exact steps.setParameters _ _ _ _ before declares

theorem run {op : Op S K} {g g' : Graph S K} (inv : Inv g) (accepted : op.run g = .ok g') :
    Inv g' := by
  cases op with
  | addNode state =>
      cases accepted
      exact steps.addNode g state inv
  | addBlock nodes =>
      obtain ⟨block, accepted⟩ := answer_ok accepted
      exact steps.addBlock g nodes block g' inv accepted
  | addEdge source target => exact steps.addEdge g source target g' inv accepted
  | setEntry block => exact steps.setEntry g block g' inv accepted
  | addSubgraph owner entryBlock =>
      obtain ⟨sub, accepted⟩ := answer_ok accepted
      exact steps.addSubgraph g owner entryBlock sub g' inv accepted
  | setParameters node params => exact steps.setParameters g node params g' inv accepted
  | addFreshBlock states =>
      obtain ⟨block, accepted⟩ := answer_ok accepted
      exact steps.addFreshBlock inv accepted
  | addChain len state =>
      obtain ⟨blocks, accepted⟩ := answer_ok accepted
      exact steps.addChainAfter inv accepted
  | addRing len state =>
      obtain ⟨blocks, accepted⟩ := answer_ok accepted
      exact steps.addRing inv accepted
  | addCall owner entryBlock params =>
      obtain ⟨sub, accepted⟩ := answer_ok accepted
      exact steps.addCall inv accepted
  | modifyState node f =>
      cases accepted
      exact steps.modifyState g node f inv
  | setOrder block k =>
      cases accepted
      exact steps.setOrder g block k inv
  | clearOrders =>
      cases accepted
      exact steps.clearOrders g inv

/-- What every accepted single step keeps, every operation keeps. -/
theorem apply (op : Op S K) {g : Graph S K} (inv : Inv g) : Inv (op.apply g) := by
  unfold Op.apply
  cases outcome : op.run g with
  | error reason => exact inv
  | ok g' => exact steps.run inv outcome

/-- **What every accepted single step keeps holds after every history.** -/
theorem history (ops : List (Op S K)) {g : Graph S K} (inv : Inv g) : Inv (g.history ops) := by
  induction ops generalizing g with
  | nil => exact inv
  | cons op rest ih => exact ih (steps.apply op inv)

end Stepwise

end Graph

end BlockFlow
