/-
# BlockFlow.Proofs.RingTours -- how ring programs are numbered

A walk over a ring program begins at the last block of the ring and goes once round.  When it
follows calls it leaves the ring at each block, for one round of the procedure called there,
again from the last block on.  All this is one list (`tour`), in which the place of every
block can be computed, and `Laid.schedule_eq` says that a run numbers its blocks in this order.
-/
import BlockFlow.Proofs.RingPrograms
import BlockFlow.Proofs.Runs

namespace BlockFlow

set_option autoImplicit false

/-- In lists of one length put together, places are counted list by list. -/
theorem getElem?_flatMap_of_length {α β : Type} {f : α → List β} {width : Nat} {xs : List α}
    (uniform : ∀ x ∈ xs, (f x).length = width) {j : Nat} (inside : j < width) (r : Nat) :
    (xs.flatMap f)[r * width + j]? = xs[r]?.bind fun x => (f x)[j]? := by
  induction xs generalizing r with
  | nil => rfl
  | cons x rest ih =>
      have here := uniform x List.mem_cons_self
      have later := ih fun y member => uniform y (List.mem_cons_of_mem _ member)
      rw [List.flatMap_cons]
      cases r with
      | zero =>
          rw [Nat.zero_mul, Nat.zero_add, List.getElem?_append_left (by omega)]
          rfl
      | succ r =>
          have step : (r + 1) * width + j - width = r * width + j := by
            rw [Nat.succ_mul, Nat.add_right_comm, Nat.add_sub_cancel]
          rw [List.getElem?_append_right (by rw [here, Nat.succ_mul]; omega), here, step, later,
            List.getElem?_cons_succ]

/-- The blocks numbered once round a cycle. -/
theorem Topology.Cycle.map_block_round (turn : Nat → BlockId) (scope : BlockId)
    (detour : Nat → List Numbered) (len : Nat) :
    (round turn scope detour 0 len).map (·.block) =
      (List.range len).flatMap fun r => turn r :: (detour r).map (·.block) := by
  rw [round, List.map_flatMap, List.range_eq_range']
  rfl

namespace Ring.Program

/-! ## Once round -/

/-- Where one is after `r` steps round `len` places, beginning at the last. -/
def lap (len r : Nat) : Nat := (len - 1 + r) % len

section Lap

variable {len r s : Nat}

theorem lap_zero (positive : 0 < len) : lap len 0 = len - 1 :=
  Nat.mod_eq_of_lt (by omega)

theorem lap_succ (inside : r < len) : lap len (r + 1) = r := by
  have once : len - 1 + (r + 1) = r + len := by omega
  rw [lap, once, Nat.add_mod_right, Nat.mod_eq_of_lt inside]

/-- One comes to place `r` right after place `r - 1`, and to place 0 after the last. -/
theorem lap_succ_mod (inside : r < len) : lap len ((r + 1) % len) = r := by
  rw [lap, Nat.add_mod_mod]
  exact lap_succ inside

theorem lap_lt (positive : 0 < len) : lap len r < len := Nat.mod_lt _ positive

theorem lap_inj (inR : r < len) (inS : s < len) (same : lap len r = lap len s) : r = s :=
  (Nat.ModEq.add_left_cancel' (len - 1) same).eq_of_lt_of_lt inR inS

end Lap

/-! ## Tours -/

/-- What a walk numbers between the `r`-th block of the ring and the next: the block itself, and
the first `inner` blocks that it comes to in the procedure. -/
def leg (n m inner r : Nat) : List BlockId :=
  ⟨lap n r⟩ :: (List.range inner).map fun s => ⟨n + lap n r * m + lap m s⟩

/-- Once round a ring of `n` blocks, with `inner` of the `m` blocks of each procedure. -/
def tour (n m inner : Nat) : List BlockId := (List.range n).flatMap (leg n m inner)

section Tour

variable {n m inner r : Nat}

theorem length_leg : (leg n m inner r).length = 1 + inner := by
  rw [leg, List.length_cons, List.length_map, List.length_range, Nat.add_comm]

theorem length_tour : (tour n m inner).length = n * (1 + inner) := by
  rw [tour, List.length_flatMap, List.map_congr_left fun r _ => length_leg, List.map_const',
    List.sum_replicate_nat, List.length_range]

/-- The place in the ring that a block belongs to. -/
def home (n m : Nat) (block : BlockId) : Nat :=
  if block.index < n then block.index else (block.index - n) / m

theorem home_of_mem_leg (positive : 0 < n) (few : inner ≤ m) {block : BlockId}
    (member : block ∈ leg n m inner r) : home n m block = lap n r := by
  rcases List.mem_cons.mp member with rfl | called
  · exact if_pos (lap_lt positive)
  · obtain ⟨s, inside, rfl⟩ := List.mem_map.mp called
    have nonempty : 0 < m := by have := List.mem_range.mp inside; omega
    have outside : ¬ n + lap n r * m + lap m s < n := by omega
    rw [home, if_neg outside, Nat.add_assoc, Nat.add_sub_cancel_left, Nat.mul_comm,
      Nat.mul_add_div nonempty, Nat.div_eq_of_lt (lap_lt nonempty), Nat.add_zero]

theorem nodup_leg (positive : 0 < n) (few : inner ≤ m) : (leg n m inner r).Nodup := by
  refine List.nodup_cons.mpr ⟨fun called => ?_, List.nodup_range.map_on fun s inS t inT same => ?_⟩
  · obtain ⟨s, -, same⟩ := List.mem_map.mp called
    have index : n + lap n r * m + lap m s = lap n r := congrArg BlockId.index same
    have bound : lap n r < n := lap_lt positive
    omega
  · have inS := List.mem_range.mp inS
    have inT := List.mem_range.mp inT
    exact lap_inj (by omega) (by omega) (Nat.add_left_cancel (congrArg BlockId.index same))

/-- No block is come to twice. -/
theorem nodup_tour (positive : 0 < n) (few : inner ≤ m) : (tour n m inner).Nodup := by
  refine List.nodup_flatMap.mpr ⟨fun r _ => nodup_leg positive few, ?_⟩
  refine List.nodup_range.imp_of_mem fun {a b} inA inB apart => ?_
  refine List.disjoint_left.mpr fun block first second => apart ?_
  have same := (home_of_mem_leg positive few first).symm.trans (home_of_mem_leg positive few second)
  exact lap_inj (List.mem_range.mp inA) (List.mem_range.mp inB) same

theorem tour_getElem? (inside : r < n) {j : Nat} (within : j < 1 + inner) :
    (tour n m inner)[r * (1 + inner) + j]? = (leg n m inner r)[j]? := by
  rw [tour, getElem?_flatMap_of_length (fun _ _ => length_leg) within, List.getElem?_range inside]
  rfl

/-- Where a tour comes to the blocks of the ring, -/
theorem tour_ring (inside : r < n) : (tour n m inner)[r * (1 + inner)]? = some ⟨lap n r⟩ :=
  tour_getElem? (j := 0) inside (by omega)

/-- and where to those of the procedures. -/
theorem tour_procedure {k s : Nat} (inside : k < n) (within : s < inner) :
    (tour n m inner)[(k + 1) % n * (1 + inner) + (1 + s)]? = some ⟨n + k * m + lap m s⟩ := by
  have positive : 0 < n := by omega
  rw [tour_getElem? (Nat.mod_lt _ positive) (by omega), leg, lap_succ_mod inside, Nat.add_comm 1 s,
    List.getElem?_cons_succ, List.getElem?_map, List.getElem?_range within]
  rfl

/-- A tour that enters no procedure stays in the ring. -/
theorem not_mem_tour (positive : 0 < n) (i : Nat) : (⟨n + i⟩ : BlockId) ∉ tour n m 0 := by
  intro member
  obtain ⟨r, -, here⟩ := List.mem_flatMap.mp member
  have index : n + i = lap n r := congrArg BlockId.index (List.mem_singleton.mp here)
  have bound : lap n r < n := lap_lt positive
  omega

end Tour

/-! ## Walks -/

/-- What a walk numbers in the procedure that the `r`-th block of the ring calls. -/
def procedureRound (n m r : Nat) : List Numbered :=
  let turn s : BlockId := ⟨n + lap n r * m + lap m s⟩
  Topology.Cycle.round turn (turn 0) (fun _ => []) 0 m

theorem blocks_procedureRound (n m r : Nat) :
    (procedureRound n m r).map (·.block) =
      (List.range m).map fun s => ⟨n + lap n r * m + lap m s⟩ := by
  rw [procedureRound, Topology.Cycle.map_block_round]
  exact List.flatMap_pure_eq_map _ _

/-- How it is entered. -/
def procedureEntrance (n m r : Nat) : Entrance :=
  ⟨⟨lap n r⟩, ⟨lap n r⟩, ⟨n + lap n r * m + lap m 0⟩⟩

namespace Laid

variable {n m procedures calls : Nat} {g : VisitGraph}

/-- The ring from its last block on. -/
theorem ring_lap (laid : Laid n m procedures calls g) : g.topology.Cycle n fun r => ⟨lap n r⟩ :=
  laid.ring.rotate (n - 1)

/-- A procedure from its last block on. -/
theorem procedure_lap (laid : Laid n m procedures calls g) {k : Nat} (inside : k < procedures) :
    g.topology.Cycle m fun s => ⟨n + k * m + lap m s⟩ :=
  (laid.procedure k inside).rotate (m - 1)

theorem calls_eq (laid : Laid n m procedures calls g) (how : Discovery) {i : Nat}
    (bound : i < n + procedures * m) :
    g.topology.calls (some how) ⟨i⟩ = if i < calls then [⟨i⟩] else [] := by
  have owned := laid.owns i bound
  rw [Topology.calls, laid.coherent.callees_eq how, laid.nodes i bound, List.flatMap_singleton,
    owned]

/-- A procedure is entered at its last block. -/
theorem entryBlock_eq (laid : Laid n m procedures calls g) (nonempty : 0 < m) {k : Nat}
    (inside : k < calls) : g.topology.entryBlock ⟨k⟩ = ⟨n + k * m + lap m 0⟩ := by
  obtain ⟨first, found⟩ := laid.subgraph k inside
  rw [lap_zero nonempty]
  simp only [Graph.topology, found, Option.map_some, Option.getD_some]

/-- **Each block of the ring sends a walk once round its procedure.** -/
theorem detours (laid : Laid n m n n g) (nonempty : 0 < m) (how : Discovery) :
    Topology.Cycle.Detours g.topology (some how) n (fun r => ⟨lap n r⟩)
      (procedureRound n m) fun r => [procedureEntrance n m r] where
  calm r inR := Walker.strayCaller?_of_closed laid.coherent.closed _ (laid.ring_lap.known r inR)
  adds r inR walker same clear := by
    have here : lap n r < n := lap_lt laid.ring.positive
    have cycle := laid.procedure_lap here
    have called : Walker.descents g.topology (some how) ⟨lap n r⟩ =
        [⟨⟨n + lap n r * m + lap m 0⟩, ⟨n + lap n r * m + lap m 0⟩,
          some (procedureEntrance n m r)⟩] := by
      rw [Walker.descents, laid.calls_eq how (Nat.lt_add_right _ here), if_pos here,
        List.map_singleton, laid.entryBlock_eq nonempty here]
      rfl
    have silent : ∀ s < m, g.topology.calls (some how) ⟨n + lap n r * m + lap m s⟩ = [] := by
      intro s inS
      have bound : n + lap n r * m + lap m s < n + n * m :=
        laid.blockCount ▸ of_decide_eq_true (cycle.known s inS)
      rw [laid.calls_eq how bound, if_neg (by omega)]
    have entered := cycle.adds (cycle.detours_of_calls_eq_nil laid.coherent.closed silent)
      (some (procedureEntrance n m r)) same clear
    have quiet : ((List.range' 0 m).flatMap fun _ => ([] : List Entrance)) = [] :=
      List.flatMap_eq_nil_iff.mpr fun _ _ => rfl
    rw [quiet] at entered
    exact called ▸ entered

/-- A walk over a ring program with these detours. -/
theorem explore_eq (laid : Laid n m procedures calls g) (mode : Mode) {inner : Nat}
    (few : inner ≤ m) {detour : Nat → List Numbered} {entered : Nat → List Entrance}
    (detours : Topology.Cycle.Detours g.topology mode.discovery n (fun r => ⟨lap n r⟩) detour
      entered)
    (legs : ∀ r, (⟨lap n r⟩ : BlockId) :: (detour r).map (·.block) = leg n m inner r) :
    let walker := ((Walker.fresh mode).explore g.topology ⟨n - 1⟩).walker
    walker.blocks = tour n m inner ∧ walker.entrances = (List.range n).flatMap entered := by
  have positive := laid.ring.positive
  have blocks : (Topology.Cycle.round (fun r => ⟨lap n r⟩) ⟨lap n 0⟩ detour 0 n).map (·.block) =
      tour n m inner := by
    rw [Topology.Cycle.map_block_round, tour]
    exact congrArg (List.range n).flatMap (funext legs)
  have clear : (Walker.fresh mode).Clear
      (Topology.Cycle.round (fun r => ⟨lap n r⟩) ⟨lap n 0⟩ detour 0 n) :=
    ⟨rfl, blocks ▸ nodup_tour positive few⟩
  have walked := Walker.explore_of_adds laid.coherent.closed (Walker.fresh_sound _ mode)
    (laid.ring_lap.known 0 positive) (laid.ring_lap.adds detours none rfl clear)
  rw [lap_zero positive] at walked blocks
  refine walked ▸ ⟨?_, ?_⟩
  · rw [Walker.blocks_extend, blocks]
    rfl
  · rw [List.range_eq_range']
    rfl

end Laid

/-- Whether a run goes into procedures. -/
def deep (mode : Mode) (procedureNodes : Option Nat) : Bool :=
  mode.interprocedural && procedureNodes.isSome

/-- How many nodes of each procedure a run comes to. -/
def reached (mode : Mode) (procedureNodes : Option Nat) : Nat :=
  if deep mode procedureNodes then procedureNodes.getD 0 else 0

/-- **A walk over a ring program is a tour**, and enters each procedure once if it follows calls. -/
theorem Laid.explore_tour {n : Nat} {procedureNodes : Option Nat} {g : VisitGraph}
    (laid : Laid n (procedureNodes.getD 0) (procedureCount n procedureNodes)
      (procedureCount n procedureNodes) g)
    (nonempty : ∀ m ∈ procedureNodes, 0 < m) (mode : Mode) :
    let walker := ((Walker.fresh mode).explore g.topology ⟨n - 1⟩).walker
    walker.blocks = tour n (procedureNodes.getD 0) (reached mode procedureNodes) ∧
      walker.entrances.length = if deep mode procedureNodes then n else 0 := by
  by_cases follows : deep mode procedureNodes = true
  · obtain ⟨across, given⟩ := Bool.and_eq_true_iff.mp follows
    obtain ⟨m, rfl⟩ := Option.isSome_iff_exists.mp given
    obtain ⟨how, discovery⟩ : ∃ how, mode.discovery = some how := ⟨_, if_pos across⟩
    have detours := laid.detours (nonempty m rfl) how
    rw [← discovery] at detours
    obtain ⟨blocks, entrances⟩ := laid.explore_eq mode le_rfl detours fun r =>
      congrArg _ (blocks_procedureRound n m r)
    rw [reached, if_pos follows, if_pos follows]
    exact ⟨blocks, by simp [entrances]⟩
  · have silent : ∀ r < n, g.topology.calls mode.discovery ⟨lap n r⟩ = [] := by
      intro r _
      cases discovery : mode.discovery with
      | none => rfl
      | some how =>
          have across := (Option.ite_none_right_eq_some.mp discovery).1
          have without : procedureNodes.isSome ≠ true :=
            fun given => follows (Bool.and_eq_true_iff.mpr ⟨across, given⟩)
          have bound := Nat.lt_add_right (procedureCount n procedureNodes * procedureNodes.getD 0)
            (lap_lt (r := r) laid.ring.positive)
          rw [laid.calls_eq how bound, procedureCount, if_neg without, if_neg (Nat.not_lt_zero _)]
    have detours := laid.ring_lap.detours_of_calls_eq_nil laid.coherent.closed silent
    obtain ⟨blocks, entrances⟩ := laid.explore_eq mode (Nat.zero_le _) detours fun _ => rfl
    rw [reached, if_neg follows, if_neg follows]
    exact ⟨blocks, by simp [entrances]⟩

end Ring.Program

end BlockFlow
