/-
# BlockFlow.Proofs.BreadthFirst -- a search lists the nearest blocks first

`Topology.search` recurses on a budget.  `Topology.Searches` is its loop on its own: the next
waiting block is visited until none waits.  The budget of `Topology.reachable` covers the blocks
of the graph, so it is never what ends a search (`search_searches`).

The order in which blocks are found is that of their distances from the start.  What carries this
through the loop is a level for every block found so far (`Levelled`): levels do not fall along the
list, and no block found is more than one level beyond the block that is visited next.  In the end
the levels are the distances (`Levelled.le_of_path`), so a search lists the region of its start
without repeats and nearest first (`reachable_spec`).
-/
import BlockFlow.Proofs.Arena
import BlockFlow.Proofs.Stamps
import Mathlib.Order.Lattice.Nat

namespace BlockFlow

set_option autoImplicit false

open FlowGraph (topology)

theorem Distinct.prefix_addAll {α : Type} [DecidableEq α] (xs ys : List α) :
    xs <+: Distinct.addAll xs ys :=
  ⟨_, (addAll_eq_append_filter xs ys).symm⟩

/-- What is added to a list is put behind it, and is new to it. -/
theorem Distinct.addAll_eq_append {α : Type} [DecidableEq α] (xs ys : List α) :
    ∃ news, addAll xs ys = xs ++ news ∧ ∀ y ∈ news, y ∈ ys ∧ y ∉ xs :=
  ⟨_, addAll_eq_append_filter xs ys, by simp⟩

namespace Topology

variable {shape : Topology} {start block : BlockId}

/-! ## Distances -/

/-- Control can pass from `start` to a block along this many edges. -/
inductive Path (shape : Topology) (start : BlockId) : Nat → BlockId → Prop
  | start : Path shape start 0 start
  | step {n : Nat} {block next : BlockId} (path : Path shape start n block)
      (follows : next ∈ shape.successors block) : Path shape start (n + 1) next

theorem flows_iff_path : shape.Flows start block ↔ ∃ n, shape.Path start n block := by
  constructor
  · intro flows
    induction flows with
    | refl => exact ⟨0, .start⟩
    | tail _ follows ih =>
        obtain ⟨n, path⟩ := ih
        exact ⟨n + 1, path.step follows⟩
  · rintro ⟨n, path⟩
    induction path with
    | start => exact .refl
    | step _ follows ih => exact ih.tail follows

/-- The least number of edges on the way from `start` to `block`. -/
noncomputable def distance (shape : Topology) (start block : BlockId) : Nat :=
  sInf { n | shape.Path start n block }

theorem isLeast_distance (flows : shape.Flows start block) :
    IsLeast { n | shape.Path start n block } (shape.distance start block) :=
  ⟨Nat.sInf_mem (flows_iff_path.mp flows), fun _ path => Nat.sInf_le path⟩

/-! ## The loop of a search -/

/-- Visiting the waiting blocks until none waits, with `done` of the blocks found visited already,
turns the first list into the second. -/
inductive Searches (shape : Topology) : (done : Nat) → List BlockId → List BlockId → Prop
  | ended {done : Nat} {found : List BlockId} (visited : found[done]? = none) :
      Searches shape done found found
  | visit {done : Nat} {found last : List BlockId} {block : BlockId}
      (here : found[done]? = some block)
      (later : Searches shape (done + 1) (Distinct.addAll found (shape.successors block)) last) :
      Searches shape done found last

/-- **The budget never ends a search.** -/
theorem search_searches (closed : shape.Closed) (budget done : Nat) {found : List BlockId}
    (nodup : found.Nodup) (known : ∀ block ∈ found, shape.hasBlock block = true)
    (enough : shape.blockCount ≤ done + budget) :
    Searches shape done found (shape.search budget done found) := by
  fun_induction search shape budget done found with
  | case1 done found =>
      have length := length_le_blockCount nodup known
      exact .ended (List.getElem?_eq_none (by omega))
  | case2 budget done found ended => exact .ended ended
  | case3 budget done found block here ih =>
      have inside : shape.hasBlock block = true := known block (List.mem_of_getElem? here)
      refine .visit here (ih (Distinct.nodup_addAll _ nodup) ?_ (by omega))
      intro other member
      rcases Distinct.mem_addAll.mp member with old | follows
      · exact known other old
      · exact closed.successor block inside other follows

theorem Searches.extends {done : Nat} {found last : List BlockId}
    (searches : Searches shape done found last) : found <+: last := by
  induction searches with
  | ended => exact List.prefix_rfl
  | visit _ _ ih => exact (Distinct.prefix_addAll _ _).trans ih

/-! ## Levels -/

/-- A search under way, with a level for each block found. -/
structure Levelled (shape : Topology) (start : BlockId) (done : Nat) (found : List BlockId)
    (level : BlockId → Nat) : Prop where
  nodup : found.Nodup
  origin : start ∈ found ∧ level start = 0
  /-- There is a way as long as the level. -/
  path : ∀ block ∈ found, shape.Path start (level block) block
  /-- Levels do not fall along the list. -/
  sorted : found.Pairwise fun a b => level a ≤ level b
  /-- Nothing is found more than one level beyond the block that is next. -/
  ahead : ∀ block, found[done]? = some block → ∀ other ∈ found, level other ≤ level block + 1
  /-- Where control passes from a visited block has been found, one level further on at most. -/
  edge : ∀ block ∈ found.take done, ∀ next ∈ shape.successors block,
    next ∈ found ∧ level next ≤ level block + 1

namespace Levelled

variable {done : Nat} {found : List BlockId} {level : BlockId → Nat}

theorem initial (shape : Topology) (start : BlockId) :
    shape.Levelled start 0 [start] fun _ => 0 where
  nodup := List.nodup_singleton start
  origin := ⟨List.mem_singleton_self start, rfl⟩
  path block member := by
    obtain rfl := List.mem_singleton.mp member
    exact .start
  sorted := List.pairwise_singleton _ _
  ahead _ _ _ _ := Nat.zero_le _
  edge _ member := absurd member List.not_mem_nil

/-- A visit keeps the levels there are, and what it finds goes to the level after its block. -/
theorem visit (levelled : shape.Levelled start done found level) (here : found[done]? = some block) :
    shape.Levelled start (done + 1) (Distinct.addAll found (shape.successors block))
      fun other => if other ∈ found then level other else level block + 1 := by
  obtain ⟨news, split, new⟩ := Distinct.addAll_eq_append _ (shape.successors block)
  have visited : block ∈ found := List.mem_of_getElem? here
  have waiting : done < found.length := (List.getElem?_eq_some_iff.mp here).1
  generalize moved : (fun other => if other ∈ found then level other else level block + 1) = level'
  have old : ∀ other ∈ found, level' other = level other := by
    intro other member
    rw [← moved]
    exact if_pos member
  have added : ∀ other ∈ news, level' other = level block + 1 := by
    intro other member
    rw [← moved]
    exact if_neg (new other member).2
  have limit : ∀ other ∈ found ++ news, level' other ≤ level block + 1 := by
    intro other member
    rcases List.mem_append.mp member with before | after
    · rw [old other before]
      exact levelled.ahead block here other before
    · exact Nat.le_of_eq (added other after)
  have sorted : (found ++ news).Pairwise fun a b => level' a ≤ level' b := by
    refine List.pairwise_append.mpr ⟨?_, ?_, ?_⟩
    · refine levelled.sorted.imp_of_mem fun here there below => ?_
      rwa [old _ here, old _ there]
    · refine List.pairwise_of_forall_mem_list fun a first b second => ?_
      rw [added a first, added b second]
    · intro a before b after
      rw [added b after]
      exact limit a (List.mem_append_left _ before)
  have nodup := Distinct.nodup_addAll (shape.successors block) levelled.nodup
  have next : ∀ other ∈ shape.successors block, other ∈ found ++ news := by
    intro other follows
    rw [← split]
    exact Distinct.mem_addAll.mpr (.inr follows)
  rw [split] at nodup ⊢
  constructor
  case nodup => exact nodup
  case origin =>
    obtain ⟨first, zero⟩ := levelled.origin
    exact ⟨List.mem_append_left _ first, (old _ first).trans zero⟩
  case path =>
    intro other member
    rcases List.mem_append.mp member with before | after
    · rw [old other before]
      exact levelled.path other before
    · rw [added other after]
      exact (levelled.path block visited).step (new other after).1
  case sorted => exact sorted
  case ahead =>
    intro other there third member
    -- the block that is next now stands behind the one that was visited
    have behind : level' block ≤ level' other := by
      obtain ⟨bound, rfl⟩ := List.getElem?_eq_some_iff.mp there
      have first : (found ++ news)[done]? = some block := by
        rw [List.getElem?_append_left waiting, here]
      obtain ⟨_, rfl⟩ := List.getElem?_eq_some_iff.mp first
      exact List.pairwise_iff_getElem.mp sorted done (done + 1) _ bound (Nat.lt_succ_self done)
    rw [old block visited] at behind
    exact (limit third member).trans (Nat.add_le_add_right behind 1)
  case edge =>
    intro other member third follows
    rw [List.take_append_of_le_length waiting, List.take_add_one, here] at member
    rcases List.mem_append.mp member with before | last
    · obtain ⟨found', close⟩ := levelled.edge other before third follows
      rw [old third found', old other (List.mem_of_mem_take before)]
      exact ⟨List.mem_append_left _ found', close⟩
    · obtain rfl : other = block := by simpa using last
      rw [old other visited]
      exact ⟨next third follows, limit third (next third follows)⟩

/-- When nothing waits, every way leads to a block found and is as long as its level at least. -/
theorem le_of_path (levelled : shape.Levelled start done found level)
    (all : found.length ≤ done) {n : Nat} (path : shape.Path start n block) :
    block ∈ found ∧ level block ≤ n := by
  induction path with
  | start => exact ⟨levelled.origin.1, Nat.le_of_eq levelled.origin.2⟩
  | @step n block next _ follows ih =>
      have visited : block ∈ found.take done := by
        rw [List.take_of_length_le all]
        exact ih.1
      obtain ⟨found', close⟩ := levelled.edge block visited next follows
      exact ⟨found', close.trans (Nat.add_le_add_right ih.2 1)⟩

end Levelled

/-- Levels are kept to the end of a search. -/
theorem Searches.levelled {done : Nat} {found last : List BlockId} {level : BlockId → Nat}
    (searches : Searches shape done found last) (levelled : shape.Levelled start done found level) :
    ∃ all levels, last.length ≤ all ∧ shape.Levelled start all last levels := by
  induction searches generalizing level with
  | @ended done found visited =>
      exact ⟨done, level, List.getElem?_eq_none_iff.mp visited, levelled⟩
  | visit here _ ih => exact ih (levelled.visit here)

/-! ## What is found -/

/-- The blocks that control gets to from `start`, each once, the nearest first. -/
structure NearestFirst (shape : Topology) (start : BlockId) (found : List BlockId) : Prop where
  first : found.head? = some start
  nodup : found.Nodup
  mem : ∀ block, block ∈ found ↔ shape.Flows start block
  /-- To every block found there is a shortest way. -/
  shortest : ∀ block ∈ found, IsLeast { n | shape.Path start n block } (shape.distance start block)
  sorted : found.Pairwise fun a b => shape.distance start a ≤ shape.distance start b

/-- **A search comes to an end and lists the region of its start, nearest first.** -/
theorem reachable_spec (closed : shape.Closed) (known : shape.hasBlock start = true) :
    Searches shape 0 [start] (shape.reachable start) ∧
      shape.NearestFirst start (shape.reachable start) := by
  have searches : Searches shape 0 [start] (shape.reachable start) :=
    search_searches closed (shape.blockCount + 1) 0 (List.nodup_singleton start) (by simpa using known)
      (by omega)
  obtain ⟨rest, split⟩ := searches.extends
  obtain ⟨all, level, visited, levelled⟩ := searches.levelled (Levelled.initial shape start)
  have mem (block : BlockId) : block ∈ shape.reachable start ↔ shape.Flows start block := by
    rw [flows_iff_path]
    constructor
    · exact fun found => ⟨_, levelled.path block found⟩
    · rintro ⟨n, path⟩
      exact (levelled.le_of_path visited path).1
  have distance : ∀ block ∈ shape.reachable start, level block = shape.distance start block := by
    intro block found
    obtain ⟨shortest, least⟩ := isLeast_distance ((mem block).mp found)
    exact Nat.le_antisymm (levelled.le_of_path visited shortest).2
      (least (levelled.path block found))
  refine ⟨searches, ?_⟩
  constructor
  case first => rw [← split, List.singleton_append, List.head?_cons]
  case nodup => exact levelled.nodup
  case mem => exact mem
  case shortest => exact fun block found => isLeast_distance ((mem block).mp found)
  case sorted =>
    refine levelled.sorted.imp_of_mem fun {a b} here there below => ?_
    rwa [distance a here, distance b there] at below

/-- **A search finds the region of its start.** -/
theorem mem_reachable_iff (closed : shape.Closed) (known : shape.hasBlock start = true) :
    block ∈ shape.reachable start ↔ shape.Flows start block :=
  (reachable_spec closed known).2.mem block

end Topology

/-! ## Graphs built by operations -/

namespace Graph

variable {S K : Type}

/-- The node lists of blocks that are listed once have no node in common. -/
theorem Coherent.nodup_nodes {g : Graph S K} (coherent : g.Coherent) {blocks : List BlockId}
    (nodup : blocks.Nodup) : (blocks.flatMap g.topology.nodes).Nodup := by
  refine List.nodup_flatMap.mpr ⟨fun block _ => coherent.distinct block, ?_⟩
  refine nodup.imp fun {a b} apart node inA inB => ?_
  exact apart (coherent.block_unique inA inB)

/-- **Searches and walks agree on what control gets to, and a search lists it nearest first.**  On
every graph that operations have built and from each of its blocks, a search comes to an end with
the blocks that a run that does not follow calls numbers from there.  The nodes of a subgraph are
those of the blocks found from its entry, each node once. -/
theorem reachable_nearestFirst (tracksCallSites : Bool) (ops : List (Op S K)) {start : BlockId}
    (known : (built tracksCallSites ops).topology.hasBlock start = true) :
    let g : Graph S K := built tracksCallSites ops
    (∃ found, g.reachable? start = some found ∧ g.topology.Searches 0 [start] found ∧
        g.topology.NearestFirst start found ∧
        ∀ mode : Mode, mode.interprocedural = false → ∀ block, block ∈ found ↔
          block ∈ ((Walker.fresh mode).run g start).walk.walker.blocks) ∧
      ∀ sub data, g.subgraph? sub = some data →
        ∃ found, g.reachable? data.entryBlock = some found ∧
          g.topology.NearestFirst data.entryBlock found ∧
          g.subgraphNodes? sub = some (found.flatMap g.topology.nodes) ∧
          (found.flatMap g.topology.nodes).Nodup := by
  intro g
  have coherent : g.Coherent := built_coherent tracksCallSites ops
  constructor
  · obtain ⟨searches, nearest⟩ := Topology.reachable_spec coherent.closed known
    refine ⟨g.topology.reachable start, if_pos known, searches, nearest, fun mode within block => ?_⟩
    have discovery : mode.discovery = none := by simp [Mode.discovery, within]
    have numbered := Walker.explore_mem_blocks coherent.closed
      (Walker.fresh_sound g.topology mode) (Walker.fresh_saturated _ mode) known block
    rw [nearest.mem, Walker.run_walk]
    refine Iff.trans ?_ numbered.symm
    show _ ↔ block ∈ [] ∨ g.topology.Reaches mode.discovery start block
    rw [discovery, Topology.reaches_none]
    exact (or_iff_right List.not_mem_nil).symm
  · intro sub data found
    obtain ⟨-, entry, target, -⟩ := (built_owned tracksCallSites ops).subgraph coherent found
    have inside : g.topology.hasBlock data.entryBlock = true := hasBlock_iff.mpr ⟨entry, target⟩
    have nearest := (Topology.reachable_spec coherent.closed inside).2
    refine ⟨g.topology.reachable data.entryBlock, if_pos inside, nearest, ?_,
      coherent.nodup_nodes nearest.nodup⟩
    rw [subgraphNodes?, found, Option.map_some]

/-- Block 0 flows into blocks 1 and 2, and block 1 through block 3 into block 2, which closes the
loop.  Block 4 calls the procedure at block 0. -/
def detour : List (Op Unit Unit) :=
  [.addFreshBlock [(), ()], .addFreshBlock [()], .addFreshBlock [()], .addFreshBlock [()],
    .addFreshBlock [()], .addEdge ⟨0⟩ ⟨1⟩, .addEdge ⟨0⟩ ⟨2⟩, .addEdge ⟨1⟩ ⟨3⟩, .addEdge ⟨3⟩ ⟨2⟩,
    .addEdge ⟨2⟩ ⟨0⟩, .addSubgraph ⟨5⟩ ⟨0⟩]

/-- A search finds block 2 before the block through which a walk comes to it. -/
theorem detour_nearestFirst :
    let g : Graph Unit Unit := built true detour
    g.topology.hasBlock ⟨0⟩ = true ∧ g.topology.NearestFirst ⟨0⟩ [⟨0⟩, ⟨1⟩, ⟨2⟩, ⟨3⟩] ∧
      ((Walker.fresh .within).run g ⟨0⟩).walk.walker.blocks = [⟨0⟩, ⟨1⟩, ⟨3⟩, ⟨2⟩] ∧
      g.subgraphNodes? ⟨0⟩ = some [⟨0⟩, ⟨1⟩, ⟨2⟩, ⟨3⟩, ⟨4⟩] := by
  have known : (built true detour : Graph Unit Unit).topology.hasBlock ⟨0⟩ = true := by
    decide +kernel
  obtain ⟨⟨found, listed, -, nearest, -⟩, -⟩ := reachable_nearestFirst true detour known
  have order : (built true detour : Graph Unit Unit).reachable? ⟨0⟩ =
      some [⟨0⟩, ⟨1⟩, ⟨2⟩, ⟨3⟩] := by
    decide +kernel
  obtain rfl := Option.some.inj (listed.symm.trans order)
  exact ⟨known, nearest, by decide +kernel, by decide +kernel⟩

end Graph

end BlockFlow
