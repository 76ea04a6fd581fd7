/-
# BlockFlow.Proofs.Preorder -- a walk is a depth-first pre-order

`DepthFirst` says by its rules what it is to number blocks by plain recursion: a block first,
then the procedures it calls, each in a scope of its own, and then its successors.  It has no
list of pending visits and no budget.  Its state, an `Account`, is what a run can be asked for:
the blocks in order, the stamps, the scopes, and how many scopes were entered through calls.

The walk keeps one list of pending visits in which blocks may stand several times and may
have been numbered in the meantime.  The front part of that list is what one call of the
recursion has still to do, and the part behind it belongs to the calls around it
(`Finishes.visits`).  So a run turns one account into the other just as the recursion does,
and as nothing else does (`run_eq_iff_depthFirst`).
-/
import BlockFlow.Proofs.Stamps

namespace BlockFlow

set_option autoImplicit false

open FlowGraph (topology order restamp)

/-- What a numbering has come to. -/
structure Account where
  /-- The numbered blocks in order. -/
  blocks : List BlockId
  stamp : BlockId → Nat
  scope : BlockId → Option BlockId
  /-- How many scopes were entered through calls. -/
  entered : Nat

namespace Account

/-- Give `block` the next number, in the scope given. -/
def number (account : Account) (block scope : BlockId) : Account where
  blocks := account.blocks ++ [block]
  stamp := Function.update account.stamp block (account.blocks.length + 1)
  scope := Function.update account.scope block (some scope)
  entered := account.entered

/-- Count one more scope. -/
def enter (account : Account) : Account := { account with entered := account.entered + 1 }

/-- Count one more scope if it is entered through a call. -/
def entering (account : Account) : Option Entrance → Account
  | none => account
  | some _ => account.enter

theorem blocks_entering (account : Account) (entrance : Option Entrance) :
    (account.entering entrance).blocks = account.blocks := by
  cases entrance <;> rfl

end Account

/-- What the recursion is at: a call, or one of the two loops that make calls. -/
inductive Job where
  /-- Number a block in a scope, and then all it leads to. -/
  | visit (block scope : BlockId)
  /-- Enter these procedures, each in the scope of its own entry. -/
  | enter (subs : List SubgraphId)
  /-- Visit these blocks, all in one scope. -/
  | follow (blocks : List BlockId) (scope : BlockId)

/-- Depth-first pre-order: the job takes the first account to the second. -/
inductive DepthFirst (shape : Topology) (discovery : Option Discovery) :
    Job → Account → Account → Prop
  /-- A block that is numbered already is left alone. -/
  | seen {block scope : BlockId} {account : Account} (numbered : block ∈ account.blocks) :
      DepthFirst shape discovery (.visit block scope) account account
  /-- The block comes first, then the procedures it calls, and then its successors. -/
  | fresh {block scope : BlockId} {account called last : Account} (new : block ∉ account.blocks)
      (calls : DepthFirst shape discovery (.enter (shape.calls discovery block))
        (account.number block scope) called)
      (flow : DepthFirst shape discovery (.follow (shape.successors block) scope) called last) :
      DepthFirst shape discovery (.visit block scope) account last
  | entered {account : Account} : DepthFirst shape discovery (.enter []) account account
  /-- A procedure is not entered when its entry is numbered already. -/
  | pass {sub : SubgraphId} {subs : List SubgraphId} {account last : Account}
      (numbered : shape.entryBlock sub ∈ account.blocks)
      (later : DepthFirst shape discovery (.enter subs) account last) :
      DepthFirst shape discovery (.enter (sub :: subs)) account last
  | enter {sub : SubgraphId} {subs : List SubgraphId} {account mid last : Account}
      (new : shape.entryBlock sub ∉ account.blocks)
      (call : DepthFirst shape discovery (.visit (shape.entryBlock sub) (shape.entryBlock sub))
        account.enter mid)
      (later : DepthFirst shape discovery (.enter subs) mid last) :
      DepthFirst shape discovery (.enter (sub :: subs)) account last
  | followed {scope : BlockId} {account : Account} :
      DepthFirst shape discovery (.follow [] scope) account account
  | follow {next scope : BlockId} {blocks : List BlockId} {account mid last : Account}
      (call : DepthFirst shape discovery (.visit next scope) account mid)
      (later : DepthFirst shape discovery (.follow blocks scope) mid last) :
      DepthFirst shape discovery (.follow (next :: blocks) scope) account last

/-- The recursion has one outcome at most. -/
theorem DepthFirst.unique {shape : Topology} {discovery : Option Discovery} {job : Job}
    {account last other : Account} (walked : DepthFirst shape discovery job account last)
    (too : DepthFirst shape discovery job account other) : other = last := by
  induction walked generalizing other with
  | seen numbered =>
      cases too with
      | seen => rfl
      | fresh new => exact absurd numbered new
  | fresh new _ _ called flowed =>
      cases too with
      | seen numbered => exact absurd numbered new
      | fresh _ calls flow =>
          obtain rfl := called calls
          exact flowed flow
  | entered =>
      cases too
      rfl
  | pass numbered _ passed =>
      cases too with
      | pass _ later => exact passed later
      | enter new => exact absurd numbered new
  | enter new _ _ visited entered =>
      cases too with
      | pass numbered => exact absurd numbered new
      | enter _ call later =>
          obtain rfl := visited call
          exact entered later
  | followed =>
      cases too
      rfl
  | follow _ _ visited followed =>
      cases too with
      | follow call later =>
          obtain rfl := visited call
          exact followed later

namespace Walker

variable {shape : Topology} {walker last : Walker} {pending : List Pending}

/-- The account of a walker on a graph with these stamps. -/
def account (walker : Walker) (stamp : BlockId → Nat) : Account where
  blocks := walker.blocks
  stamp := stamp
  scope := walker.scopeOf
  entered := walker.subgraphsEntered

/-! ## Pending visits as calls -/

/-- The calls of the recursion that pending visits stand for, one after the other.  A visit that
begins a scope through a call enters it only if the block is not numbered by then. -/
inductive Visits (shape : Topology) (discovery : Option Discovery) :
    List Pending → Account → Account → Prop
  | done {account : Account} : Visits shape discovery [] account account
  | skip {visit : Pending} {rest : List Pending} {account last : Account}
      (numbered : visit.block ∈ account.blocks) (later : Visits shape discovery rest account last) :
      Visits shape discovery (visit :: rest) account last
  | call {visit : Pending} {rest : List Pending} {account mid last : Account}
      (new : visit.block ∉ account.blocks)
      (call : DepthFirst shape discovery (.visit visit.block visit.scope)
        (account.entering visit.entrance) mid)
      (later : Visits shape discovery rest mid last) :
      Visits shape discovery (visit :: rest) account last

namespace Visits

variable {discovery : Option Discovery} {account result : Account}

theorem split {first rest : List Pending}
    (visits : Visits shape discovery (first ++ rest) account result) :
    ∃ mid, Visits shape discovery first account mid ∧ Visits shape discovery rest mid result := by
  induction first generalizing account with
  | nil => exact ⟨account, .done, visits⟩
  | cons visit tail ih =>
      cases visits with
      | skip numbered later =>
          obtain ⟨mid, before, after⟩ := ih later
          exact ⟨mid, .skip numbered before, after⟩
      | call new call later =>
          obtain ⟨mid, before, after⟩ := ih later
          exact ⟨mid, .call new call before, after⟩

theorem enter {block : BlockId} {subs : List SubgraphId}
    (visits : Visits shape discovery (subs.map fun sub =>
      ⟨shape.entryBlock sub, shape.entryBlock sub, some ⟨block, sub, shape.entryBlock sub⟩⟩)
      account result) : DepthFirst shape discovery (.enter subs) account result := by
  induction subs generalizing account with
  | nil =>
      cases visits
      exact .entered
  | cons sub rest ih =>
      cases visits with
      | skip numbered later => exact .pass numbered (ih later)
      | call new call later => exact .enter new call (ih later)

theorem follow {blocks : List BlockId} {scope : BlockId}
    (visits : Visits shape discovery (blocks.map (⟨·, scope, none⟩)) account result) :
    DepthFirst shape discovery (.follow blocks scope) account result := by
  induction blocks generalizing account with
  | nil =>
      cases visits
      exact .followed
  | cons next rest ih =>
      cases visits with
      | skip numbered later => exact .follow (.seen numbered) (ih later)
      | call new call later => exact .follow call (ih later)

/-- The onward visits of a block are the two loops of the call that numbers it. -/
theorem onward {block scope : BlockId} (new : block ∉ account.blocks)
    (visits : Visits shape walker.discovery (walker.onward shape block scope)
      (account.number block scope) result) :
    DepthFirst shape walker.discovery (.visit block scope) account result := by
  obtain ⟨called, procedures, successors⟩ := split visits
  exact .fresh new procedures.enter successors.follow

end Visits

theorem scopeOf_number {visit : Pending} (fresh : visit.block ∉ walker.blocks) :
    ((walker.enter visit).number visit).scopeOf =
      Function.update walker.scopeOf visit.block (some visit.scope) := by
  funext block
  simp only [scopeOf, number, enter, List.find?_append, Function.update_apply]
  by_cases same : block = visit.block
  · subst same
    have none : walker.numbered.find? (·.block = visit.block) = none := by
      rw [List.find?_eq_none]
      intro item member same
      exact fresh (List.mem_map.mpr ⟨item, member, by simpa using same⟩)
    simp [none]
  · have other : ¬ visit.block = block := fun h => same h.symm
    simp [same, other]

/-- Numbering a block in a walker is numbering it in the account. -/
theorem account_number {visit : Pending} (fresh : visit.block ∉ walker.blocks)
    (stamp : BlockId → Nat) :
    ((walker.enter visit).number visit).account
        (Function.update stamp visit.block walker.nextOrder) =
      ((walker.account stamp).entering visit.entrance).number visit.block visit.scope := by
  have blocks : ((walker.enter visit).number visit).blocks = walker.blocks ++ [visit.block] :=
    blocks_number _ _
  have entered : ((walker.enter visit).number visit).subgraphsEntered =
      walker.subgraphsEntered + visit.entrance.toList.length := by
    simp [subgraphsEntered, enter, number]
  rw [account, blocks, scopeOf_number fresh, entered, nextOrder_eq]
  cases visit.entrance <;> rfl

/-- **A part of the pending visits is a sequence of calls.**  Once the visits of `first` are
made, and those they led to, the walk is left with `rest`, and the account is what the calls
for `first` make of it. -/
theorem Finishes.visits (finishes : Finishes shape pending walker last) (sound : walker.Sound shape)
    (first rest : List Pending) (parts : pending = first ++ rest) :
    ∃ mid news, Finishes shape rest mid last ∧ mid.blocks = walker.blocks ++ news ∧
      ∀ stamp, Visits shape walker.discovery first (walker.account stamp)
        (mid.account (restamp stamp walker.nextOrder news)) := by
  induction finishes generalizing first with
  | done walker =>
      obtain ⟨rfl, rfl⟩ := List.append_eq_nil_iff.mp parts.symm
      exact ⟨walker, [], .done walker, (List.append_nil _).symm, fun _ => .done⟩
  | @skip visit waiting walker last seen later ih =>
      cases first with
      | nil =>
          obtain rfl : visit :: waiting = rest := parts
          exact ⟨walker, [], .skip seen later, (List.append_nil _).symm, fun _ => .done⟩
      | cons head tail =>
          rw [List.cons_append, List.cons.injEq] at parts
          obtain ⟨rfl, behind⟩ := parts
          obtain ⟨mid, news, finishes, blocks, visits⟩ := ih sound tail behind
          have numbered : visit.block ∈ walker.blocks := sound.isVisited_iff.mp seen
          exact ⟨mid, news, finishes, blocks, fun stamp => .skip numbered (visits stamp)⟩
  | @number visit waiting walker last fresh known calm later ih =>
      cases first with
      | nil =>
          obtain rfl : visit :: waiting = rest := parts
          exact ⟨walker, [], .number fresh known calm later, (List.append_nil _).symm,
            fun _ => .done⟩
      | cons head tail =>
          rw [List.cons_append, List.cons.injEq] at parts
          obtain ⟨rfl, rfl⟩ := parts
          have absent := not_mem_blocks fresh
          -- the onward visits come before the visits that were waiting with this one
          obtain ⟨mid, news, finishes, blocks, visits⟩ := ih (sound.number fresh known)
            (walker.onward shape visit.block visit.scope ++ tail) (List.append_assoc _ _ _).symm
          refine ⟨mid, visit.block :: news, finishes, by simpa using blocks, fun stamp => ?_⟩
          have step := visits (Function.update stamp visit.block walker.nextOrder)
          rw [account_number absent, nextOrder_number] at step
          obtain ⟨numbered, onward, waiting⟩ := step.split
          have absent' : visit.block ∉ ((walker.account stamp).entering visit.entrance).blocks := by
            rw [Account.blocks_entering]
            exact absent
          exact .call absent (Visits.onward absent' onward) waiting

/-! ## Runs -/

/-- **A run numbers in depth-first pre-order.**  Whatever runs a walker has made, the next one
takes its account where the recursion takes it, and it numbers and stamps the same on a graph
that carries other stamps. -/
theorem run_eq_iff_depthFirst {G : Type} [FlowGraph G] (mode : Mode) (g : G)
    (closed : (topology g).Closed) (entries : List BlockId)
    (inside : ∀ entry ∈ entries, (topology g).hasBlock entry = true) {entry : BlockId}
    (known : (topology g).hasBlock entry = true) :
    let earlier := (fresh mode).runAll g entries
    let run := earlier.1.run earlier.2 entry
    (∀ result, DepthFirst (topology g) mode.discovery (.visit entry entry)
        (earlier.1.account (order earlier.2)) result ↔
          result = run.walk.walker.account (order run.graph)) ∧
      ∀ h : G, topology h = topology g →
        (earlier.1.run h entry).walk = run.walk ∧
          ∀ block ∈ run.walk.walker.blocks, block ∉ earlier.1.blocks →
            order (earlier.1.run h entry).graph block = order run.graph block := by
  have before := runAll_fresh closed mode inside
  generalize (fresh mode).runAll g entries = earlier at before ⊢
  obtain ⟨walker, after⟩ := earlier
  have shape : topology after = topology g := before.shape
  have discovery : walker.discovery = mode.discovery := before.discovery
  have finishes := explore_finishes closed before.sound known
  obtain ⟨last, news, rest, blocks, visits⟩ :=
    finishes.visits before.sound [⟨entry, entry, none⟩] [] rfl
  obtain rfl := rest.unique (.done last)
  have fresh : ∀ block ∈ news, (topology g).hasBlock block = true := by
    intro block member
    exact (finishes.sound before.sound).known block (blocks ▸ List.mem_append_right _ member)
  -- on a graph of this shape, whatever stamps it has, the run stamps the same blocks
  have stamps : ∀ h : G, topology h = topology g →
      order (walker.run h entry).graph = restamp (order h) walker.nextOrder news := by
    intro h same
    rw [run_graph, same, blocks, List.drop_left]
    exact FlowGraph.order_stampEach _ _ (same ▸ fresh) ()
  have recursion : DepthFirst (topology g) mode.discovery (.visit entry entry)
      (walker.account (order after))
      ((walker.run after entry).walk.walker.account (order (walker.run after entry).graph)) := by
    have loop : DepthFirst _ _ (.follow [entry] entry) _ _ := (visits (order after)).follow
    rw [run_walk, shape, stamps after shape, ← discovery]
    cases loop with
    | follow call later =>
        cases later
        exact call
  dsimp only
  refine ⟨fun result => ⟨recursion.unique, ?_⟩, fun h same => ⟨?_, fun block member new => ?_⟩⟩
  · rintro rfl
    exact recursion
  · rw [run_walk, run_walk, same, shape]
  · rw [run_walk, shape, blocks, List.mem_append] at member
    rw [stamps h same, stamps after shape]
    exact FlowGraph.restamp_congr (member.resolve_left new)

/-! ## A block that is numbered while it is pending -/

/-- Block 0 flows into blocks 1 and 3, and block 1 calls the procedure at block 2, which flows
into block 3 and back into block 0.  Block 4 is on its own. -/
def procedureRunsOn : Table Unit where
  rows := #[⟨[⟨0⟩], [⟨1⟩, ⟨3⟩], none⟩, ⟨[⟨1⟩], [⟨3⟩], some [⟨1⟩]⟩, ⟨[⟨2⟩], [⟨3⟩, ⟨0⟩], none⟩,
    ⟨[⟨3⟩], [], none⟩, ⟨[⟨4⟩], [], none⟩]
  subgraphs := #[(⟨1⟩, ⟨2⟩)]
  states := #[(), (), (), (), ()]
  orders := #[5, 5, 5, 5, 5]

/-- Block 3 waits behind block 1 when the procedure comes to it, and so it is numbered in the
scope of the procedure. -/
theorem procedureRunsOn_depthFirst :
    let earlier := (fresh .across).runAll procedureRunsOn [⟨4⟩]
    let run := earlier.1.run earlier.2 ⟨0⟩
    (topology procedureRunsOn).Closed ∧
      (∀ entry ∈ [(⟨4⟩ : BlockId), ⟨0⟩], (topology procedureRunsOn).hasBlock entry = true) ∧
      (∀ result, DepthFirst (topology procedureRunsOn) (some .cache) (.visit ⟨0⟩ ⟨0⟩)
        (earlier.1.account (order earlier.2)) result ↔
          result = run.walk.walker.account (order run.graph)) ∧
      run.walk.walker.blocks = [⟨4⟩, ⟨0⟩, ⟨1⟩, ⟨2⟩, ⟨3⟩] ∧ run.graph.orders = #[2, 3, 4, 5, 1] ∧
      run.walk.walker.scopeOf ⟨3⟩ = some ⟨2⟩ ∧ run.walk.walker.subgraphsEntered = 1 := by
  have closed : (topology procedureRunsOn).Closed := by decide +kernel
  have inside : ∀ entry ∈ [(⟨4⟩ : BlockId), ⟨0⟩],
      (topology procedureRunsOn).hasBlock entry = true := by decide
  obtain ⟨recursion, -⟩ := run_eq_iff_depthFirst .across procedureRunsOn closed [⟨4⟩] (by decide)
    (inside ⟨0⟩ (by decide))
  exact ⟨closed, inside, recursion, by decide +kernel⟩

end Walker

end BlockFlow
