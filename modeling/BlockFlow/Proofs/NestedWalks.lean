/-
# BlockFlow.Proofs.NestedWalks -- walks inside walks

Numbering can be written as walks inside walks.  Each scope is walked with a stack of its own,
and for every procedure that a block calls the walk is held up by another one.  What the walks
share is a `Survey`: the next number, the blocks visited, the procedures entered, the graph, and
what a visitor keeps that is called while the walk goes on.  `Survey.walk` and `Survey.enter`
have no budget, and nothing in them says that they come to an end.

A walker has one list of pending visits instead, and it stamps when all is numbered.  The list is
what the walks that are not finished have still to do, the innermost first (`Frame.pending`), and
each round of the walk takes one of them a step further (`Finishes.finish`).  So runs do what
walks inside walks do, and these do come to an end (`runAllWith_eq_walkAll`).
-/
import BlockFlow.Proofs.Preorder
import BlockFlow.Proofs.Scopes
import Mathlib.Data.Finset.Card

namespace BlockFlow

set_option autoImplicit false

open FlowGraph (topology setOrder)

/-- What walks inside each other share. -/
structure Survey (G σ : Type) where
  graph : G
  /-- The number that the next block gets. -/
  next : Nat
  visited : Finset BlockId
  /-- The entry blocks of the procedures that were entered. -/
  entered : Finset BlockId
  /-- The numbered blocks in order. -/
  order : List BlockId
  scope : BlockId → Option BlockId
  /-- What the visitor keeps. -/
  seen : σ

namespace Survey

variable {G σ : Type} [FlowGraph G]

/-- Nothing is numbered yet. -/
def start (g : G) (seen : σ) : Survey G σ := ⟨g, 1, ∅, ∅, [], fun _ => none, seen⟩

/-- Number `block` in a scope, stamp it and show it to the visitor. -/
def number (visit : G → BlockId → σ → σ) (block scope : BlockId) (survey : Survey G σ) :
    Survey G σ where
  graph := setOrder survey.graph block survey.next
  next := survey.next + 1
  visited := insert block survey.visited
  entered := survey.entered
  order := survey.order ++ [block]
  scope := Function.update survey.scope block (some scope)
  seen := visit (setOrder survey.graph block survey.next) block survey.seen

mutual

/-- Walk a scope: take blocks from the top of its stack, number each one that is not visited yet,
enter the procedures that it calls, and put its successors on the stack. -/
def walk (discovery : Option Discovery) (visit : G → BlockId → σ → σ) (scope : BlockId)
    (stack : List BlockId) (survey : Survey G σ) : Option (Survey G σ) :=
  match stack with
  | [] => some survey
  | block :: stack =>
    if block ∈ survey.visited then survey |>.walk discovery visit scope stack
    else do
      let numbered := survey.number visit block scope
      let subs := (topology numbered.graph).calls discovery block
      let called ← numbered |>.enter discovery visit subs
      called |>.walk discovery visit scope ((topology called.graph).successors block ++ stack)
partial_fixpoint

/-- Enter procedures in turn, each by a walk of its own.  One whose entry block is visited, or
that was entered before, is left out. -/
def enter (discovery : Option Discovery) (visit : G → BlockId → σ → σ) (subs : List SubgraphId)
    (survey : Survey G σ) : Option (Survey G σ) :=
  match subs with
  | [] => some survey
  | sub :: subs =>
    let entry := (topology survey.graph).entryBlock sub
    if entry ∈ survey.visited ∨ entry ∈ survey.entered then survey |>.enter discovery visit subs
    else do
      let entering := { survey with entered := insert entry survey.entered }
      let walked ← entering |>.walk discovery visit entry [entry]
      walked |>.enter discovery visit subs
partial_fixpoint

end

/-- Walks from these entries in turn, each with a stack of its own. -/
def walkAll (discovery : Option Discovery) (visit : G → BlockId → σ → σ) :
    (entries : List BlockId) → Survey G σ → Option (Survey G σ)
  | [], survey => some survey
  | entry :: later, survey =>
    survey.walk discovery visit entry [entry] >>= walkAll discovery visit later

/-- The survey that a walker stands for, on a graph and with what a visitor keeps. -/
def of (walker : Walker) (g : G) (seen : σ) : Survey G σ where
  graph := g
  next := walker.nextOrder
  visited := walker.blocks.toFinset
  entered := (walker.entrances.map (·.entry)).toFinset
  order := walker.blocks
  scope := walker.scopeOf
  seen := seen

/-- Note the entry of a procedure, if a walk begins in one. -/
def entering (survey : Survey G σ) : Option Entrance → Survey G σ
  | none => survey
  | some entrance => { survey with entered := insert entrance.entry survey.entered }

variable {discovery : Option Discovery} {visit : G → BlockId → σ → σ} {walker last : Walker} {g : G}
  {seen : σ}

omit [FlowGraph G] in
theorem of_fresh (mode : Mode) : of (Walker.fresh mode) g seen = start g seen := rfl

omit [FlowGraph G] in
/-- A procedure is entered before its entry block is numbered. -/
theorem of_enter (turn : Pending) :
    of (walker.enter turn) g seen = (of walker g seen).entering turn.entrance := by
  cases known : turn.entrance with
  | none => simp [of, entering, Walker.enter, Walker.blocks, Walker.nextOrder, known]
  | some entrance =>
      have entered : ((walker.enter turn).entrances.map (·.entry)).toFinset =
          insert entrance.entry (walker.entrances.map (·.entry)).toFinset := by
        ext other
        simp [Walker.enter, known]
      rw [of, entered]
      rfl

/-- Numbering a block in a walker is numbering it in the survey. -/
theorem of_number {turn : Pending} (fresh : turn.block ∉ walker.blocks) :
    of ((walker.enter turn).number turn) (setOrder g turn.block walker.nextOrder)
        (visit (setOrder g turn.block walker.nextOrder) turn.block seen) =
      (of (walker.enter turn) g seen).number visit turn.block turn.scope := by
  have visited : (walker.blocks ++ [turn.block]).toFinset =
      insert turn.block walker.blocks.toFinset := by
    ext other
    simp
  rw [of, Walker.blocks_number, Walker.blocks_enter, Walker.nextOrder_number, visited,
    Walker.scopeOf_number fresh]
  rfl

/-! ## Walks that are not finished -/

/-- What one of the walks has still to do. -/
inductive Frame where
  /-- Work off the stack of a scope. -/
  | walk (scope : BlockId) (stack : List BlockId)
  /-- Put the successors of a block on the stack and work it off. -/
  | follow (block scope : BlockId) (stack : List BlockId)
  /-- Enter procedures that a block calls. -/
  | enter (caller : BlockId) (subs : List SubgraphId)

namespace Frame

/-- The pending visits that a frame stands for. -/
def pending (shape : Topology) : Frame → List Pending
  | walk scope stack => stack.map (⟨·, scope, none⟩)
  | follow block scope stack => (shape.successors block ++ stack).map (⟨·, scope, none⟩)
  | enter caller subs => subs.map fun sub =>
    ⟨shape.entryBlock sub, shape.entryBlock sub, some ⟨caller, sub, shape.entryBlock sub⟩⟩

/-- A walk that begins a scope through a call begins at the entry that names the scope. -/
theorem entry_of_head {shape : Topology} {frames : List Frame} {turn : Pending}
    {rest : List Pending} (parts : frames.flatMap (pending shape) = turn :: rest)
    {entrance : Entrance} (own : entrance ∈ turn.entrance) : entrance.entry = turn.block := by
  have member : turn ∈ frames.flatMap (pending shape) := parts ▸ List.mem_cons_self
  obtain ⟨frame, -, listed⟩ := List.mem_flatMap.mp member
  cases frame with
  | walk | follow =>
      obtain ⟨block, -, rfl⟩ := List.mem_map.mp listed
      cases own
  | enter caller subs =>
      obtain ⟨sub, -, rfl⟩ := List.mem_map.mp listed
      cases own
      rfl

/-- Do what a frame has still to do. -/
def run (discovery : Option Discovery) (visit : G → BlockId → σ → σ) :
    Frame → Survey G σ → Option (Survey G σ)
  | walk scope stack, survey => survey.walk discovery visit scope stack
  | follow block scope stack, survey =>
    survey.walk discovery visit scope ((topology survey.graph).successors block ++ stack)
  | enter _ subs, survey => survey.enter discovery visit subs

end Frame

/-- Finish walks in turn, the innermost first. -/
def finish (discovery : Option Discovery) (visit : G → BlockId → σ → σ) :
    List Frame → Survey G σ → Option (Survey G σ)
  | [], survey => some survey
  | frame :: frames, survey => frame.run discovery visit survey >>= finish discovery visit frames

variable {shape : Topology} {frames : List Frame} {survey : Survey G σ}

theorem finish_walk_nil (scope : BlockId) :
    finish discovery visit (.walk scope [] :: frames) survey =
      finish discovery visit frames survey := by
  rw [finish, Frame.run, walk]
  rfl

theorem finish_enter_nil (caller : BlockId) :
    finish discovery visit (.enter caller [] :: frames) survey =
      finish discovery visit frames survey := by
  rw [finish, Frame.run, enter]
  rfl

theorem finish_follow (same : topology survey.graph = shape) (block scope : BlockId)
    (stack : List BlockId) :
    finish discovery visit (.follow block scope stack :: frames) survey =
      finish discovery visit (.walk scope (shape.successors block ++ stack) :: frames) survey := by
  rw [finish, Frame.run, same]
  rfl

/-- Walks with nothing to do are finished. -/
theorem finish_of_nil (same : topology survey.graph = shape)
    (none : frames.flatMap (Frame.pending shape) = []) :
    finish discovery visit frames survey = some survey := by
  induction frames with
  | nil => rfl
  | cons frame frames ih =>
      obtain ⟨here, later⟩ := List.append_eq_nil_iff.mp none
      cases frame with
      | walk scope stack =>
          obtain rfl := List.map_eq_nil_iff.mp here
          rw [finish_walk_nil, ih later]
      | follow block scope stack =>
          rw [finish_follow same, List.map_eq_nil_iff.mp here, finish_walk_nil, ih later]
      | enter caller subs =>
          obtain rfl := List.map_eq_nil_iff.mp here
          rw [finish_enter_nil, ih later]

/-- The next visit is that of the block on top of a stack, or it enters a procedure; the walks
inside that one are finished. -/
theorem finish_next (same : topology survey.graph = shape) {turn : Pending} {rest : List Pending}
    (parts : frames.flatMap (Frame.pending shape) = turn :: rest) :
    (∃ block scope stack others, turn = ⟨block, scope, none⟩ ∧
      rest = (Frame.walk scope stack :: others).flatMap (Frame.pending shape) ∧
      finish discovery visit frames survey =
        finish discovery visit (.walk scope (block :: stack) :: others) survey) ∨
    ∃ caller sub subs others,
      turn = ⟨shape.entryBlock sub, shape.entryBlock sub,
        some ⟨caller, sub, shape.entryBlock sub⟩⟩ ∧
      rest = (Frame.enter caller subs :: others).flatMap (Frame.pending shape) ∧
      finish discovery visit frames survey =
        finish discovery visit (.enter caller (sub :: subs) :: others) survey := by
  induction frames with
  | nil => cases parts
  | cons frame frames ih =>
      cases frame with
      | enter caller subs =>
          cases subs with
          | nil =>
              rw [finish_enter_nil]
              exact ih parts
          | cons sub subs =>
              obtain ⟨rfl, rfl⟩ := List.cons.inj parts
              exact .inr ⟨caller, sub, subs, frames, rfl, rfl, rfl⟩
      | walk scope stack =>
          cases stack with
          | nil =>
              rw [finish_walk_nil]
              exact ih parts
          | cons block stack =>
              obtain ⟨rfl, rfl⟩ := List.cons.inj parts
              exact .inl ⟨block, scope, stack, frames, rfl, rfl, rfl⟩
      | follow source scope stack =>
          rw [finish_follow same]
          rw [List.flatMap_cons, Frame.pending] at parts
          cases waiting : shape.successors source ++ stack with
          | nil =>
              rw [waiting] at parts
              rw [finish_walk_nil]
              exact ih parts
          | cons block stack' =>
              rw [waiting] at parts
              obtain ⟨rfl, rfl⟩ := List.cons.inj parts
              exact .inl ⟨block, scope, stack', frames, rfl, rfl, rfl⟩

/-! ## One visit after the other -/

section Steps

variable {block scope : BlockId} {stack : List BlockId} {caller : BlockId} {sub : SubgraphId}
  {subs : List SubgraphId}

theorem finish_seen (seen : block ∈ survey.visited) :
    finish discovery visit (.walk scope (block :: stack) :: frames) survey =
      finish discovery visit (.walk scope stack :: frames) survey := by
  rw [finish, Frame.run, walk, if_pos seen]
  rfl

/-- A block is numbered; then the procedures that it calls are entered, and the walk goes on
behind them. -/
theorem finish_number (shaped : topology survey.graph = shape) (fresh : block ∉ survey.visited) :
    finish discovery visit (.walk scope (block :: stack) :: frames) survey =
      finish discovery visit
        (.enter block (shape.calls discovery block) :: .follow block scope stack :: frames)
        (survey.number visit block scope) := by
  have shaped' : topology (setOrder survey.graph block survey.next) = shape :=
    (FlowGraph.topology_setOrder ..).trans shaped
  rw [finish, Frame.run, walk, if_neg fresh, ← shaped']
  exact Option.bind_assoc _ _ _

theorem finish_pass (shaped : topology survey.graph = shape)
    (seen : shape.entryBlock sub ∈ survey.visited) :
    finish discovery visit (.enter caller (sub :: subs) :: frames) survey =
      finish discovery visit (.enter caller subs :: frames) survey := by
  rw [finish, Frame.run, enter]
  simp only [shaped, seen, true_or, if_true]
  rfl

/-- A procedure is entered by a walk of its own. -/
theorem finish_enter (shaped : topology survey.graph = shape)
    (fresh : shape.entryBlock sub ∉ survey.visited)
    (new : shape.entryBlock sub ∉ survey.entered) :
    finish discovery visit (.enter caller (sub :: subs) :: frames) survey =
      finish discovery visit
        (.walk (shape.entryBlock sub) [shape.entryBlock sub] :: .enter caller subs :: frames)
        { survey with entered := insert (shape.entryBlock sub) survey.entered } := by
  rw [finish, Frame.run, enter]
  simp only [shaped, fresh, new, or_self, if_false]
  exact Option.bind_assoc _ _ _

/-- A visit of a block that is visited already makes no difference. -/
theorem finish_skip (shaped : topology survey.graph = shape) {turn : Pending} {rest : List Pending}
    (parts : frames.flatMap (Frame.pending shape) = turn :: rest)
    (seen : turn.block ∈ survey.visited) :
    ∃ others, others.flatMap (Frame.pending shape) = rest ∧
      finish discovery visit frames survey = finish discovery visit others survey := by
  rcases finish_next shaped parts with
    ⟨block, scope, stack, others, rfl, rfl, next⟩ | ⟨caller, sub, subs, others, rfl, rfl, next⟩
  · exact ⟨_, rfl, next.trans (finish_seen seen)⟩
  · exact ⟨_, rfl, next.trans (finish_pass shaped seen)⟩

/-- A visit of any other block numbers it, in a procedure that is entered for it or in the scope
of a walk that goes on; then the procedures that it calls are entered. -/
theorem finish_visit (shaped : topology survey.graph = shape) {turn : Pending} {rest : List Pending}
    (parts : frames.flatMap (Frame.pending shape) = turn :: rest)
    (fresh : turn.block ∉ survey.visited)
    (new : ∀ entrance ∈ turn.entrance, entrance.entry ∉ survey.entered) :
    ∃ others, others.flatMap (Frame.pending shape) =
        (shape.successors turn.block).map (⟨·, turn.scope, none⟩) ++ rest ∧
      finish discovery visit frames survey =
        finish discovery visit (.enter turn.block (shape.calls discovery turn.block) :: others)
          ((survey.entering turn.entrance).number visit turn.block turn.scope) := by
  rcases finish_next shaped parts with
    ⟨block, scope, stack, others, rfl, rfl, next⟩ | ⟨caller, sub, subs, others, rfl, rfl, next⟩
  · refine ⟨.follow block scope stack :: others, ?_, next.trans (finish_number shaped fresh)⟩
    simp [Frame.pending]
  · refine ⟨.follow (shape.entryBlock sub) (shape.entryBlock sub) [] ::
      .enter caller subs :: others, ?_, ?_⟩
    · simp [Frame.pending]
    · rw [next, finish_enter shaped fresh (new _ rfl)]
      exact finish_number shaped fresh

end Steps

end Survey

/-! ## Whole walks -/

namespace Walker

open Survey

variable {G σ : Type} [FlowGraph G] {shape : Topology} {pending : List Pending}
  {walker last : Walker}

/-- **Walks inside walks number as one walk does.**  The walks that are not finished have the
pending visits still to make; finishing them comes to the same as making these visits and
stamping the blocks that are numbered with them. -/
theorem Finishes.finish (finishes : Finishes shape pending walker last) (sound : walker.Sound shape)
    (numbered : ∀ entrance ∈ walker.entrances, entrance.entry ∈ walker.blocks)
    {frames : List Frame} (parts : frames.flatMap (Frame.pending shape) = pending) {g : G}
    (shaped : topology g = shape) (visit : G → BlockId → σ → σ) (seen : σ) :
    ∃ news, last.blocks = walker.blocks ++ news ∧
      let stamped := FlowGraph.stampEach visit walker.nextOrder news g seen
      Survey.finish walker.discovery visit frames (Survey.of walker g seen) =
        some (Survey.of last stamped.1 stamped.2) := by
  have surveyed : topology (Survey.of walker g seen).graph = shape := shaped
  induction finishes generalizing frames g seen with
  | done walker => exact ⟨[], (List.append_nil _).symm, finish_of_nil shaped parts⟩
  | @skip turn waiting walker last met later ih =>
      have here : turn.block ∈ walker.blocks.toFinset :=
        List.mem_toFinset.mpr (sound.isVisited_iff.mp met)
      obtain ⟨others, left, next⟩ := finish_skip surveyed parts here
      rw [next]
      exact ih sound numbered left shaped seen surveyed
  | @number turn waiting walker last fresh known calm later ih =>
      have absent := not_mem_blocks fresh
      have unentered : ∀ entrance ∈ turn.entrance,
          entrance.entry ∉ (walker.entrances.map (·.entry)).toFinset := by
        intro entrance own member
        obtain ⟨old, listed, same⟩ := List.mem_map.mp (List.mem_toFinset.mp member)
        have entry := Frame.entry_of_head parts own
        exact absent (entry ▸ same ▸ numbered old listed)
      obtain ⟨others, within, next⟩ := finish_visit surveyed parts
        (mt List.mem_toFinset.mp absent) unentered
      -- the blocks of the procedures come first, then those that the walks behind still have
      have left : (Frame.enter turn.block (shape.calls walker.discovery turn.block) ::
          others).flatMap (Frame.pending shape) =
            walker.onward shape turn.block turn.scope ++ waiting := by
        rw [List.flatMap_cons, within, onward, List.append_assoc]
        rfl
      have numbered' : ∀ entrance ∈ (walker.enter turn).entrances,
          entrance.entry ∈ ((walker.enter turn).number turn).blocks := by
        rw [blocks_number, blocks_enter]
        intro entrance member
        rcases List.mem_append.mp member with old | own
        · exact List.mem_append_left _ (numbered entrance old)
        · rw [Frame.entry_of_head parts (Option.mem_toList.mp own)]
          exact List.mem_append_right _ (List.mem_singleton_self _)
      have shaped' : topology (setOrder g turn.block walker.nextOrder) = shape :=
        (FlowGraph.topology_setOrder ..).trans shaped
      obtain ⟨news, blocks, finished⟩ := ih (sound.number fresh known) numbered' left shaped'
        (visit _ turn.block seen) shaped'
      refine ⟨turn.block :: news, by simpa using blocks, ?_⟩
      rw [nextOrder_number, of_number absent, of_enter] at finished
      exact next.trans finished

/-! ## Runs -/

/-- The walker, the graph and what a visitor keeps after runs from these entries in turn. -/
def runAllWith (visit : G → BlockId → σ → σ) (walker : Walker) (g : G) (seen : σ) :
    (entries : List BlockId) → Walker × G × σ
  | [] => (walker, g, seen)
  | entry :: later =>
    let run := walker.runWith visit g entry seen
    runAllWith visit run.walk.walker run.graph run.seen later

/-- The visitor has no part in what is numbered and stamped. -/
theorem runAllWith_eq_runAll (visit : G → BlockId → σ → σ) (walker : Walker) (g : G) (seen : σ)
    (entries : List BlockId) :
    ((walker.runAllWith visit g seen entries).1, (walker.runAllWith visit g seen entries).2.1) =
      walker.runAll g entries := by
  induction entries generalizing walker g seen with
  | nil => rfl
  | cons entry later ih =>
      rw [runAllWith, runAll, runWith_eq]
      exact ih ..

/-- A run takes the survey of a walker where a walk takes it. -/
theorem walk_of (closed : shape.Closed) (sound : walker.Sound shape) {begun : List BlockId}
    (grown : Grown shape begun walker) {g : G} (shaped : topology g = shape) {entry : BlockId}
    (known : shape.hasBlock entry = true) (visit : G → BlockId → σ → σ) (seen : σ) :
    let run := walker.runWith visit g entry seen
    (Survey.of walker g seen).walk walker.discovery visit entry [entry] =
      some (Survey.of run.walk.walker run.graph run.seen) := by
  have numbered : ∀ entrance ∈ walker.entrances, entrance.entry ∈ walker.blocks := by
    intro entrance listed
    have own := ((grown.kinds.entered entrance.entry).mp (List.mem_map_of_mem listed)).1
    exact mem_blocks_of_mem own
  have parts : [Frame.walk entry [entry]].flatMap (Frame.pending shape) =
      [⟨entry, entry, none⟩] := rfl
  obtain ⟨news, blocks, finished⟩ :=
    (explore_finishes closed sound known).finish sound numbered parts shaped visit seen
  have dropped : (walker.explore shape entry).walker.blocks.drop walker.blocks.length = news := by
    rw [blocks, List.drop_left]
  simp only [Survey.finish, Frame.run] at finished
  simp only [runWith, shaped, dropped]
  simpa using finished

/-- Runs take it where walks in turn take it. -/
theorem walkAll_of {g : G} (closed : shape.Closed) (sound : walker.Sound shape)
    (saturated : walker.Saturated shape) {begun : List BlockId} (grown : Grown shape begun walker)
    (shaped : topology g = shape) {entries : List BlockId}
    (inside : ∀ entry ∈ entries, shape.hasBlock entry = true) (visit : G → BlockId → σ → σ)
    (seen : σ) :
    let last := walker.runAllWith visit g seen entries
    (Survey.of walker g seen).walkAll walker.discovery visit entries =
      some (Survey.of last.1 last.2.1 last.2.2) := by
  induction entries generalizing walker g begun seen with
  | nil => rfl
  | cons entry later ih =>
      obtain ⟨known, inside⟩ := List.forall_mem_cons.mp inside
      subst shaped
      have continues := run_continues closed sound saturated known
      have graph : (walker.runWith visit g entry seen).graph = (walker.run g entry).graph := by
        rw [runWith_eq]
      have rest := ih continues.sound continues.saturated
        (explore_grown closed sound saturated grown known) (graph ▸ continues.shape) inside
        (walker.runWith visit g entry seen).seen
      rw [show (walker.run g entry).walk.walker.discovery = walker.discovery from
        continues.discovery] at rest
      rw [walkAll, walk_of closed sound grown rfl known visit seen]
      exact rest

/-- **Runs do what walks inside walks do.**  From any entries in turn a walker on a closed graph
comes to what the nested walks come to, and they come to an end: the same graph with the same
stamps, shown to the visitor block by block as it is stamped, the same order and scopes, the same
blocks visited and as many procedures entered. -/
theorem runAllWith_eq_walkAll {σ : Type} (mode : Mode) (g : G) (closed : (topology g).Closed)
    (entries : List BlockId) (inside : ∀ entry ∈ entries, (topology g).hasBlock entry = true)
    (visit : G → BlockId → σ → σ) (seen : σ) :
    let last := (fresh mode).runAllWith visit g seen entries
    let survey := Survey.of last.1 last.2.1 last.2.2
    (last.1, last.2.1) = (fresh mode).runAll g entries ∧
      (Survey.start g seen).walkAll mode.discovery visit entries = some survey ∧
      (∀ block, last.1.isVisited block = true ↔ block ∈ survey.visited) ∧
      last.1.subgraphsEntered = survey.entered.card := by
  intro last survey
  have runs : (last.1, last.2.1) = (fresh mode).runAll g entries :=
    runAllWith_eq_runAll visit _ g seen entries
  have walker : last.1 = ((fresh mode).runAll g entries).1 := congrArg Prod.fst runs
  have sound : last.1.Sound (topology g) := walker ▸ (runAll_fresh closed mode inside).sound
  obtain ⟨begun, grown, -⟩ := runAll_grown closed (fresh_sound _ mode) (fresh_saturated _ mode)
    (.fresh mode) inside
  refine ⟨runs, ?_, fun block => ?_, ?_⟩
  · rw [← Survey.of_fresh]
    exact walkAll_of closed (fresh_sound _ mode) (fresh_saturated _ mode) (.fresh mode) rfl inside
      visit seen
  · exact sound.isVisited_iff.trans List.mem_toFinset.symm
  · have once := (walker ▸ grown).kinds.nodup
    show last.1.entrances.length = (last.1.entrances.map (·.entry)).toFinset.card
    rw [List.toFinset_card_of_nodup once, List.length_map]

/-- Walks from block 0 and then from block 4 show their blocks to a visitor that keeps each with
its stamp, the latest first. -/
example : ∃ survey : Survey (Table Unit) (List (Nat × Nat)),
    (Survey.start sharedProcedure []).walkAll Mode.across.discovery
        (fun g block seen => (block.index, FlowGraph.order g block) :: seen) [⟨0⟩, ⟨4⟩] =
      some survey ∧
    survey.seen = [(4, 5), (1, 4), (3, 3), (2, 2), (0, 1)] := by
  obtain ⟨-, walked, -⟩ := runAllWith_eq_walkAll .across sharedProcedure (by decide +kernel)
    [⟨0⟩, ⟨4⟩] (by decide) (fun g block seen => (block.index, FlowGraph.order g block) :: seen) []
  exact ⟨_, walked, by decide +kernel⟩

end Walker

end BlockFlow
