/-
# BlockFlow.Proofs.Stamps -- runs of one walker, one after the other

A walker may be run from several entries in turn on a graph that stays as it is
(`Walker.runAll`).  Each run goes on where the one before it stopped: it numbers what its
entry reaches and is not numbered yet, and it stamps just these blocks with the orders that
follow (`Walker.Continues`).  A visitor sees each of them once, on a graph that carries its
stamp already (`FlowGraph.shown`).

`runAll_numbers` says what any such sequence of runs leaves behind, and that each run comes
to an end.
-/
import BlockFlow.Proofs.Walks
import BlockFlow.Proofs.Runs
import Mathlib.Logic.Function.Basic

namespace BlockFlow

set_option autoImplicit false

namespace FlowGraph

variable {G σ : Type} [FlowGraph G]

/-! ## Stamping a list of blocks -/

/-- The stamps once `blocks` are stamped with `next`, `next + 1`, …. -/
def restamp (stamps : BlockId → Nat) : (next : Nat) → List BlockId → BlockId → Nat
  | _, [] => stamps
  | next, block :: rest => restamp (Function.update stamps block next) (next + 1) rest

theorem restamp_append (stamps : BlockId → Nat) (next : Nat) (blocks others : List BlockId) :
    restamp stamps next (blocks ++ others) =
      restamp (restamp stamps next blocks) (next + blocks.length) others := by
  induction blocks generalizing stamps next with
  | nil => rfl
  | cons block rest ih =>
      rw [List.cons_append, restamp, restamp, ih, List.length_cons]
      congr 1
      omega

theorem restamp_of_not_mem {stamps : BlockId → Nat} {next : Nat} {blocks : List BlockId}
    {block : BlockId} (absent : block ∉ blocks) : restamp stamps next blocks block = stamps block := by
  induction blocks generalizing stamps next with
  | nil => rfl
  | cons first rest ih =>
      rw [List.mem_cons, not_or] at absent
      rw [restamp, ih absent.2, Function.update_of_ne absent.1]

theorem restamp_getElem? {stamps : BlockId → Nat} {next : Nat} {blocks : List BlockId}
    (nodup : blocks.Nodup) {i : Nat} {block : BlockId} (found : blocks[i]? = some block) :
    restamp stamps next blocks block = next + i := by
  induction blocks generalizing stamps next i with
  | nil => simp at found
  | cons first rest ih =>
      obtain ⟨absent, distinct⟩ := List.nodup_cons.mp nodup
      rw [restamp]
      cases i with
      | zero =>
          obtain rfl : first = block := by simpa using found
          rw [restamp_of_not_mem absent, Function.update_self, Nat.add_zero]
      | succ i =>
          rw [ih distinct (by simpa using found)]
          omega

/-- What a stamped block carries does not depend on the stamps before. -/
theorem restamp_congr {stamps others : BlockId → Nat} {next : Nat} {blocks : List BlockId}
    {block : BlockId} (member : block ∈ blocks) :
    restamp stamps next blocks block = restamp others next blocks block := by
  induction blocks generalizing stamps others next with
  | nil => exact absurd member List.not_mem_nil
  | cons first rest ih =>
      rw [restamp, restamp]
      by_cases later : block ∈ rest
      · exact ih later
      · obtain rfl : block = first := (List.mem_cons.mp member).resolve_right later
        rw [restamp_of_not_mem later, restamp_of_not_mem later, Function.update_self,
          Function.update_self]

theorem order_stampEach (visit : G → BlockId → σ → σ) (next : Nat) {blocks : List BlockId} {g : G}
    (known : ∀ block ∈ blocks, (topology g).hasBlock block = true) (seen : σ) :
    order (stampEach visit next blocks g seen).1 = restamp (order g) next blocks := by
  induction blocks generalizing next g seen with
  | nil => rfl
  | cons block rest ih =>
      have here := known block List.mem_cons_self
      have written : order (setOrder g block next) = Function.update (order g) block next := by
        funext other
        rw [order_setOrder g block next other here, Function.update_apply]
      rw [stampEach, restamp, ← written]
      refine ih (next + 1) (fun other member => ?_) _
      rw [topology_setOrder]
      exact known other (List.mem_cons_of_mem _ member)

/-! ## What a visitor sees -/

/-- The blocks a visitor is shown while `blocks` are stamped, each with the graph it is shown on. -/
def shown : (next : Nat) → List BlockId → G → List (G × BlockId)
  | _, [], _ => []
  | next, block :: rest, g =>
    (setOrder g block next, block) :: shown (next + 1) rest (setOrder g block next)

theorem shown_blocks (next : Nat) (blocks : List BlockId) (g : G) :
    (shown next blocks g).map (·.2) = blocks := by
  induction blocks generalizing next g with
  | nil => rfl
  | cons block rest ih => rw [shown, List.map_cons, ih]

/-- A visitor takes part in the stamping only by what it keeps. -/
theorem stampEach_eq (visit : G → BlockId → σ → σ) (next : Nat) (blocks : List BlockId) (g : G)
    (seen : σ) :
    stampEach visit next blocks g seen =
      (stamp next blocks g,
        (shown next blocks g).foldl (fun seen call => visit call.1 call.2 seen) seen) := by
  induction blocks generalizing next g seen with
  | nil => rfl
  | cons block rest ih => exact ih (next + 1) (setOrder g block next) _

/-- A block is shown on a graph of the same shape that carries its stamp, and no later block
takes the stamp away. -/
theorem shown_stamped (next : Nat) {blocks : List BlockId} {g : G} (nodup : blocks.Nodup)
    (known : ∀ block ∈ blocks, (topology g).hasBlock block = true) :
    ∀ call ∈ shown next blocks g, topology call.1 = topology g ∧
      order call.1 call.2 = order (stamp next blocks g) call.2 := by
  induction blocks generalizing next g with
  | nil => exact fun call member => absurd member List.not_mem_nil
  | cons block rest ih =>
      obtain ⟨absent, distinct⟩ := List.nodup_cons.mp nodup
      have inside : ∀ other ∈ rest, (topology (setOrder g block next)).hasBlock other = true := by
        intro other member
        rw [topology_setOrder]
        exact known other (List.mem_cons_of_mem _ member)
      intro call member
      rcases List.mem_cons.mp member with rfl | later
      · refine ⟨topology_setOrder g block next, ?_⟩
        have rest_stamped := order_stampEach (fun _ _ (s : Unit) => s) (next + 1) inside ()
        exact ((congrFun rest_stamped block).trans (restamp_of_not_mem absent)).symm
      · obtain ⟨shape, stamped⟩ := ih (next + 1) distinct inside call later
        exact ⟨shape.trans (topology_setOrder g block next), stamped⟩

end FlowGraph

namespace Walker

open FlowGraph (topology order restamp shown)

variable {G : Type} [FlowGraph G]

/-! ## One run after the other -/

/-- The walker and the graph after runs from these entries in turn. -/
def runAll (walker : Walker) (g : G) : (entries : List BlockId) → Walker × G
  | [] => (walker, g)
  | entry :: later => runAll (walker.run g entry).walk.walker (walker.run g entry).graph later

theorem nextOrder_eq (walker : Walker) : walker.nextOrder = walker.blocks.length + 1 := by
  simp [nextOrder, blocks]

theorem nextOrder_number (walker : Walker) (visit : Pending) :
    ((walker.enter visit).number visit).nextOrder = walker.nextOrder + 1 := by
  simp [nextOrder, number, enter]

/-- What the runs from `entries` add to a walker and to the stamps of a graph. -/
structure Continues (walker : Walker) (g : G) (entries : List BlockId) (last : Walker) (after : G) :
    Prop where
  sound : last.Sound (topology g)
  saturated : last.Saturated (topology g)
  discovery : last.discovery = walker.discovery
  shape : topology after = topology g
  mem : ∀ block, block ∈ last.blocks ↔ block ∈ walker.blocks ∨
    ∃ entry ∈ entries, (topology g).Reaches walker.discovery entry block
  stamps : ∃ news, last.blocks = walker.blocks ++ news ∧
    order after = restamp (order g) walker.nextOrder news

variable {walker last : Walker} {g after : G}

theorem Continues.refl (sound : walker.Sound (topology g)) (saturated : walker.Saturated (topology g)) :
    Continues walker g [] walker g where
  sound := sound
  saturated := saturated
  discovery := rfl
  shape := rfl
  mem := by simp
  stamps := ⟨[], (List.append_nil _).symm, rfl⟩

theorem Continues.trans {entries later : List BlockId} {final : Walker} {h : G}
    (first : Continues walker g entries last after) (second : Continues last after later final h) :
    Continues walker g (entries ++ later) final h where
  sound := first.shape ▸ second.sound
  saturated := first.shape ▸ second.saturated
  discovery := second.discovery.trans first.discovery
  shape := second.shape.trans first.shape
  mem block := by
    rw [second.mem, first.mem, first.shape, first.discovery, or_assoc, ← exists_or]
    simp only [List.mem_append, or_and_right]
  stamps := by
    obtain ⟨news, blocks, stamps⟩ := first.stamps
    obtain ⟨others, blocks', stamps'⟩ := second.stamps
    refine ⟨news ++ others, by rw [blocks', blocks, List.append_assoc], ?_⟩
    have next : last.nextOrder = walker.nextOrder + news.length := by
      rw [nextOrder_eq, nextOrder_eq, blocks, List.length_append]
      omega
    rw [FlowGraph.restamp_append, stamps', stamps, next]

/-- A run numbers what its entry leads to, stamps it, and shows it to the visitor. -/
theorem runWith_eq {σ : Type} (visit : G → BlockId → σ → σ) (walker : Walker) (g : G)
    (entry : BlockId) (seen : σ) :
    walker.runWith visit g entry seen =
      { walk := walker.explore (topology g) entry
        graph := (walker.run g entry).graph
        seen := (shown walker.nextOrder
          ((walker.explore (topology g) entry).walker.blocks.drop walker.blocks.length) g).foldl
            (fun seen call => visit call.1 call.2 seen) seen } := by
  simp only [run, runWith, FlowGraph.stampEach_eq]

theorem run_walk (walker : Walker) (g : G) (entry : BlockId) :
    (walker.run g entry).walk = walker.explore (topology g) entry := rfl

theorem run_graph (walker : Walker) (g : G) (entry : BlockId) :
    (walker.run g entry).graph = FlowGraph.stamp walker.nextOrder
      ((walker.explore (topology g) entry).walker.blocks.drop walker.blocks.length) g := by
  simp only [run, runWith, FlowGraph.stampEach_eq]

theorem topology_run (walker : Walker) (g : G) (entry : BlockId) :
    topology (walker.run g entry).graph = topology g := by
  rw [run_graph]
  exact topology_stampEach _ _ _ _ _

theorem run_continues (closed : (topology g).Closed) (sound : walker.Sound (topology g))
    (saturated : walker.Saturated (topology g)) {entry : BlockId}
    (known : (topology g).hasBlock entry = true) :
    Continues walker g [entry] (walker.run g entry).walk.walker (walker.run g entry).graph := by
  have finishes := explore_finishes closed sound known
  have found := explore_mem_blocks closed sound saturated known
  have all := explore_saturated closed sound saturated known
  obtain ⟨news, blocks⟩ := finishes.blocks_prefix
  have dropped : (walker.explore (topology g) entry).walker.blocks.drop walker.blocks.length = news := by
    rw [← blocks, List.drop_left]
  have inside : ∀ block ∈ news, (topology g).hasBlock block = true := by
    intro block member
    exact (finishes.sound sound).known block (blocks ▸ List.mem_append_right _ member)
  constructor
  case sound => exact finishes.sound sound
  case saturated => exact all
  case discovery => exact finishes.discovery
  case shape => exact topology_run walker g entry
  case mem =>
    intro block
    rw [run_walk, found]
    simp
  case stamps =>
    refine ⟨news, blocks.symm, ?_⟩
    rw [run_graph, dropped]
    exact FlowGraph.order_stampEach _ _ inside ()

theorem runAll_continues (closed : (topology g).Closed) (sound : walker.Sound (topology g))
    (saturated : walker.Saturated (topology g)) {entries : List BlockId}
    (inside : ∀ entry ∈ entries, (topology g).hasBlock entry = true) :
    Continues walker g entries (walker.runAll g entries).1 (walker.runAll g entries).2 := by
  induction entries generalizing walker g with
  | nil => exact .refl sound saturated
  | cons entry later ih =>
      have first := run_continues closed sound saturated (inside entry List.mem_cons_self)
      have rest := ih (first.shape ▸ closed) (first.shape ▸ first.sound)
        (first.shape ▸ first.saturated) fun other member => by
          rw [first.shape]
          exact inside other (List.mem_cons_of_mem _ member)
      exact first.trans rest

theorem fresh_saturated (shape : Topology) (mode : Mode) : (fresh mode).Saturated shape :=
  fun _ member => absurd member List.not_mem_nil

/-- What runs of a fresh walker have made of it and of the graph. -/
theorem runAll_fresh (closed : (topology g).Closed) (mode : Mode) {entries : List BlockId}
    (inside : ∀ entry ∈ entries, (topology g).hasBlock entry = true) :
    Continues (fresh mode) g entries ((fresh mode).runAll g entries).1
      ((fresh mode).runAll g entries).2 :=
  runAll_continues closed (fresh_sound _ mode) (fresh_saturated _ mode) inside

/-! ## What runs leave behind -/

/-- The numbers a walker has given in runs from these entries on a graph that was `g` before
the first of them and is `after` now. -/
structure Numbers (mode : Mode) (g : G) (entries : List BlockId) (walker : Walker) (after : G) :
    Prop where
  /-- No block is listed twice. -/
  nodup : walker.blocks.Nodup
  /-- The blocks listed are those that one of the entries reaches. -/
  mem : ∀ block, block ∈ walker.blocks ↔
    ∃ entry ∈ entries, (topology g).Reaches mode.discovery entry block
  visited : ∀ block, walker.isVisited block = true ↔ block ∈ walker.blocks
  scope : ∀ block, (walker.scopeOf block).isSome = true ↔ block ∈ walker.blocks
  /-- Stamps follow the list from 1 on. -/
  stamped : ∀ i block, walker.blocks[i]? = some block → order after block = i + 1
  /-- The other blocks keep the stamps they had. -/
  kept : ∀ block, block ∉ walker.blocks → order after block = order g block
  /-- No stamp goes beyond the number of blocks. -/
  bounded : walker.blocks.length ≤ (topology g).blockCount
  shape : topology after = topology g

theorem scopeOf_isSome_iff {walker : Walker} {block : BlockId} :
    (walker.scopeOf block).isSome = true ↔ block ∈ walker.blocks := by
  simp [scopeOf, blocks]

theorem Continues.numbers {mode : Mode} {entries : List BlockId}
    (continues : Continues (fresh mode) g entries last after) :
    Numbers mode g entries last after := by
  obtain ⟨news, blocks, stamps⟩ := continues.stamps
  have listed : last.blocks = news := blocks
  have nodup := continues.sound.nodup
  constructor
  case nodup => exact nodup
  case mem =>
    intro block
    rw [continues.mem]
    exact or_iff_right List.not_mem_nil
  case visited => exact fun block => continues.sound.isVisited_iff
  case scope => exact fun block => scopeOf_isSome_iff
  case stamped =>
    intro i block found
    rw [stamps, ← listed, FlowGraph.restamp_getElem? nodup found]
    exact Nat.add_comm 1 i
  case kept =>
    intro block absent
    rw [stamps, ← listed, FlowGraph.restamp_of_not_mem absent]
  case bounded => exact continues.sound.length_le
  case shape => exact continues.shape

/-- **Runs number what their entries reach, once each, and come to an end.**  After runs from
any entries the walker lists what they reach and the graph is stamped accordingly; and a
further run ends without a stray and shows each block that it newly numbers to its visitor
once, in order, on a graph that carries the stamp the block will keep. -/
theorem runAll_numbers {G : Type} [FlowGraph G] (mode : Mode) (g : G)
    (closed : (topology g).Closed) (entries : List BlockId)
    (inside : ∀ entry ∈ entries, (topology g).hasBlock entry = true) :
    let earlier := (fresh mode).runAll g entries
    Numbers mode g entries earlier.1 earlier.2 ∧
      ∀ entry, (topology g).hasBlock entry = true →
        let run := earlier.1.run earlier.2 entry
        run.walk.stray = none ∧
          Finishes (topology g) [⟨entry, entry, none⟩] earlier.1 run.walk.walker ∧
          ∃ calls : List (G × BlockId),
            run.walk.walker.blocks = earlier.1.blocks ++ calls.map (·.2) ∧
            (∀ call ∈ calls, topology call.1 = topology g ∧
              order call.1 call.2 = order run.graph call.2) ∧
            ∀ {σ : Type} (visit : G → BlockId → σ → σ) (seen : σ),
              earlier.1.runWith visit earlier.2 entry seen =
                ⟨run.walk, run.graph,
                  calls.foldl (fun seen call => visit call.1 call.2 seen) seen⟩ := by
  have before := runAll_fresh closed mode inside
  refine ⟨before.numbers, fun entry known => ?_⟩
  generalize (fresh mode).runAll g entries = earlier at before ⊢
  obtain ⟨walker, h⟩ := earlier
  have shape : topology h = topology g := before.shape
  have finishes := explore_finishes closed before.sound known
  have last := finishes.sound before.sound
  obtain ⟨news, blocks⟩ := finishes.blocks_prefix
  have dropped : (walker.explore (topology g) entry).walker.blocks.drop walker.blocks.length = news := by
    rw [← blocks, List.drop_left]
  have distinct : news.Nodup := (List.nodup_append.mp (blocks ▸ last.nodup)).2.1
  have fresh : ∀ block ∈ news, (topology h).hasBlock block = true := by
    intro block member
    rw [shape]
    exact last.known block (blocks ▸ List.mem_append_right _ member)
  have stamped := FlowGraph.shown_stamped walker.nextOrder distinct fresh
  simp only [run_walk, run_graph, runWith_eq, shape, dropped]
  refine ⟨explore_stray closed walker known, finishes, shown walker.nextOrder news h, ?_, ?_, ?_⟩
  · rw [FlowGraph.shown_blocks]
    exact blocks.symm
  · intro call member
    obtain ⟨same, order⟩ := stamped call member
    exact ⟨same.trans shape, order⟩
  · exact fun visit seen => rfl

/-! ## A procedure that two blocks share and that calls itself -/

/-- Block 0 flows into itself and twice into block 1, and both call the procedure at block 2, a
loop through block 3, where it calls itself.  Block 4 flows into block 0, and block 5 is on its
own.  The stamps are those of other traversals. -/
def sharedProcedure : Table Unit where
  rows := #[⟨[⟨0⟩], [⟨0⟩, ⟨1⟩, ⟨1⟩], none⟩, ⟨[⟨1⟩], [], some [⟨1⟩]⟩, ⟨[⟨2⟩], [⟨3⟩], none⟩,
    ⟨[⟨3⟩], [⟨2⟩], some [⟨3⟩]⟩, ⟨[⟨4⟩], [⟨0⟩], none⟩, ⟨[⟨5⟩], [], none⟩]
  subgraphs := #[(⟨0⟩, ⟨2⟩), (⟨1⟩, ⟨2⟩), (⟨3⟩, ⟨2⟩)]
  states := #[(), (), (), (), (), ()]
  orders := #[7, 0, 3, 3, 8, 9]

/-- After a run from block 0, a run from block 4 has one block left to number. -/
theorem sharedProcedure_numbers :
    let earlier := (fresh .across).runAll sharedProcedure [⟨0⟩]
    let run := earlier.1.run earlier.2 ⟨4⟩
    (topology sharedProcedure).Closed ∧
      (∀ entry ∈ [(⟨0⟩ : BlockId), ⟨4⟩], (topology sharedProcedure).hasBlock entry = true) ∧
      Numbers .across sharedProcedure [⟨0⟩] earlier.1 earlier.2 ∧
      Finishes (topology sharedProcedure) [⟨⟨4⟩, ⟨4⟩, none⟩] earlier.1 run.walk.walker ∧
      earlier.1.blocks = [⟨0⟩, ⟨2⟩, ⟨3⟩, ⟨1⟩] ∧ run.walk.walker.blocks = earlier.1.blocks ++ [⟨4⟩] ∧
      earlier.2.orders = #[1, 4, 2, 3, 8, 9] ∧ run.graph.orders = #[1, 4, 2, 3, 5, 9] := by
  have closed : (topology sharedProcedure).Closed := by decide +kernel
  have inside : ∀ entry ∈ [(⟨0⟩ : BlockId), ⟨4⟩],
      (topology sharedProcedure).hasBlock entry = true := by decide
  obtain ⟨numbers, further⟩ := runAll_numbers .across sharedProcedure closed [⟨0⟩] (by decide)
  obtain ⟨-, finishes, -⟩ := further ⟨4⟩ (by decide)
  exact ⟨closed, inside, numbers, finishes, by decide +kernel⟩

end Walker

end BlockFlow
