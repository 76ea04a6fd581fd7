/-
# BlockFlow.Proofs.Cycles -- traversals once round a cycle

In a cycle of blocks each passes control to the next and to no other (`Topology.Cycle`).  A
breadth-first search from one of its blocks finds the blocks of the cycle once round
(`Cycle.reachable_eq`), and so does a walk.  A walk that follows calls may leave the cycle at
each of its blocks, for what is called there, and comes back to number the next (`Cycle.adds`).

What a walk makes of some pending visits does not depend on what waits behind them.
`Walker.Adds` says what they add to a walker, and the parts of a walk are put together in
these terms.
-/
import BlockFlow.Proofs.Walks
import Mathlib.Data.Nat.ModEq

namespace BlockFlow

set_option autoImplicit false

/-- Control passes from each of these blocks to the next, and from the last to the first. -/
structure Topology.Cycle (shape : Topology) (len : Nat) (turn : Nat → BlockId) : Prop where
  positive : 0 < len
  known : ∀ r < len, shape.hasBlock (turn r) = true
  next : ∀ r < len, shape.successors (turn r) = [turn ((r + 1) % len)]
  distinct : ∀ r < len, ∀ s < len, turn r = turn s → r = s

namespace Topology

variable {shape : Topology} {len : Nat} {turn : Nat → BlockId}

theorem nodup_turns (distinct : ∀ r < len, ∀ s < len, turn r = turn s → r = s) :
    ((List.range len).map turn).Nodup :=
  List.nodup_range.map_on fun r inR s inS =>
    distinct r (List.mem_range.mp inR) s (List.mem_range.mp inS)

/-- There are no more blocks that are told apart than blocks. -/
theorem length_turns_le (known : ∀ r < len, shape.hasBlock (turn r) = true)
    (distinct : ∀ r < len, ∀ s < len, turn r = turn s → r = s) : len ≤ shape.blockCount := by
  have inside : ∀ block ∈ (List.range len).map turn, shape.hasBlock block = true := by
    intro block member
    obtain ⟨r, bound, rfl⟩ := List.mem_map.mp member
    exact known r (List.mem_range.mp bound)
  simpa using length_le_blockCount (nodup_turns distinct) inside

namespace Cycle

/-- A cycle may begin with any of its blocks. -/
theorem rotate (cycle : shape.Cycle len turn) (first : Nat) :
    shape.Cycle len fun r => turn ((first + r) % len) where
  positive := cycle.positive
  known r _ := cycle.known _ (Nat.mod_lt _ cycle.positive)
  next r _ := by
    rw [cycle.next _ (Nat.mod_lt _ cycle.positive)]
    simp only [Nat.mod_add_mod, Nat.add_mod_mod, Nat.add_assoc]
  distinct r inR s inS same := by
    have residues := cycle.distinct _ (Nat.mod_lt _ cycle.positive) _ (Nat.mod_lt _ cycle.positive)
      same
    exact (Nat.ModEq.add_left_cancel' first residues).eq_of_lt_of_lt inR inS

/-- A cycle is one in every topology with its blocks and their successors. -/
theorem congr {other : Topology} (cycle : shape.Cycle len turn)
    (known : ∀ r < len, other.hasBlock (turn r) = true)
    (next : ∀ r < len, other.successors (turn r) = shape.successors (turn r)) :
    other.Cycle len turn where
  positive := cycle.positive
  known := known
  next r inside := (next r inside).trans (cycle.next r inside)
  distinct := cycle.distinct

theorem length_le (cycle : shape.Cycle len turn) : len ≤ shape.blockCount :=
  length_turns_le cycle.known cycle.distinct

end Cycle

/-! ## Breadth first -/

/-- A search with nothing waiting is over. -/
theorem search_of_length_le (shape : Topology) (budget : Nat) {done : Nat} {found : List BlockId}
    (finished : found.length ≤ done) : shape.search budget done found = found := by
  cases budget with
  | zero => rfl
  | succ budget => rw [search, List.getElem?_eq_none finished]

/-- A search that comes from each block of a list to the next one, and from the last one to none
that is new, finds the list to its end. -/
theorem search_along
    (visit : ∀ r < len, Distinct.addAll ((List.range (r + 1)).map turn) (shape.successors (turn r)) =
      (List.range (min (r + 2) len)).map turn)
    (budget : Nat) {r : Nat} (inside : r < len) (enough : len ≤ r + budget) :
    shape.search budget r ((List.range (r + 1)).map turn) = (List.range len).map turn := by
  induction budget generalizing r with
  | zero => omega
  | succ budget ih =>
      have waiting : ((List.range (r + 1)).map turn)[r]? = some (turn r) := by simp
      rw [search, waiting]
      simp only [visit r inside]
      by_cases last : r + 1 = len
      · rw [Nat.min_eq_right (by omega)]
        exact shape.search_of_length_le budget (by simp [last])
      · rw [Nat.min_eq_left (by omega)]
        exact ih (by omega) (by omega)

/-- The next of the blocks that are told apart is new. -/
theorem addAll_turn (distinct : ∀ r < len, ∀ s < len, turn r = turn s → r = s) {r : Nat}
    (further : r + 1 < len) :
    Distinct.addAll ((List.range (r + 1)).map turn) [turn (r + 1)] =
      (List.range (min (r + 2) len)).map turn := by
  have new : turn (r + 1) ∉ (List.range (r + 1)).map turn := by
    intro old
    obtain ⟨s, before, same⟩ := List.mem_map.mp old
    have earlier := List.mem_range.mp before
    have := distinct s (by omega) (r + 1) further same
    omega
  show Distinct.add _ _ = _
  rw [Distinct.add, if_neg new, Nat.min_eq_left further, ← List.map_singleton, ← List.map_append,
    ← List.range_succ]

/-- **A search finds a cycle once round.** -/
theorem Cycle.reachable_eq (cycle : shape.Cycle len turn) :
    shape.reachable (turn 0) = (List.range len).map turn := by
  have enough := cycle.length_le
  refine search_along (fun r inside => ?_) (shape.blockCount + 1) cycle.positive (by omega)
  rw [cycle.next r inside]
  by_cases last : r + 1 = len
  · have old : turn 0 ∈ (List.range len).map turn :=
      List.mem_map.mpr ⟨0, List.mem_range.mpr cycle.positive, rfl⟩
    show Distinct.add _ _ = _
    rw [last, Nat.mod_self, Distinct.add, if_pos old, Nat.min_eq_right (by omega)]
  · have further : r + 1 < len := by omega
    rw [Nat.mod_eq_of_lt further]
    exact addAll_turn cycle.distinct further

end Topology

/-! ## What pending visits add -/

namespace Walker

variable {shape : Topology}

/-- The walker with these blocks numbered and these scopes entered besides. -/
def extend (walker : Walker) (items : List Numbered) (entrances : List Entrance) : Walker :=
  { walker with
    numbered := walker.numbered ++ items
    entrances := walker.entrances ++ entrances }

/-- Whatever waits behind them, making these visits numbers these blocks and enters these
scopes. -/
def Adds (shape : Topology) (pending : List Pending) (walker : Walker) (items : List Numbered)
    (entrances : List Entrance) : Prop :=
  ∀ rest last, Finishes shape rest (walker.extend items entrances) last →
    Finishes shape (pending ++ rest) walker last

@[simp] theorem extend_nil (walker : Walker) : walker.extend [] [] = walker := by
  simp [extend]

@[simp] theorem extend_extend (walker : Walker) (items others : List Numbered)
    (entrances later : List Entrance) :
    (walker.extend items entrances).extend others later =
      walker.extend (items ++ others) (entrances ++ later) := by
  simp [extend]

@[simp] theorem blocks_extend (walker : Walker) (items : List Numbered)
    (entrances : List Entrance) :
    (walker.extend items entrances).blocks = walker.blocks ++ items.map (·.block) := by
  simp [extend, blocks]

/-- No stray has been met, and these blocks can be numbered in turn. -/
structure Clear (walker : Walker) (items : List Numbered) : Prop where
  strays : walker.strays = []
  nodup : (walker.blocks ++ items.map (·.block)).Nodup

variable {walker : Walker} {items others : List Numbered} {entrances later : List Entrance}

theorem isVisited_iff (strays : walker.strays = []) (block : BlockId) :
    walker.isVisited block = true ↔ block ∈ walker.blocks := by
  rw [isVisited, strays, List.contains_nil, Bool.or_false, blocks, List.any_eq_true]
  simp

theorem Clear.front (clear : walker.Clear (items ++ others)) : walker.Clear items where
  strays := clear.strays
  nodup := by
    have nodup := clear.nodup
    rw [List.map_append, ← List.append_assoc] at nodup
    exact (List.nodup_append.mp nodup).1

theorem Clear.extend (clear : walker.Clear (items ++ others)) (entrances : List Entrance) :
    (walker.extend items entrances).Clear others where
  strays := clear.strays
  nodup := by
    have nodup := clear.nodup
    rwa [List.map_append, ← List.append_assoc, ← blocks_extend walker items entrances] at nodup

theorem Clear.isVisited {item : Numbered} (clear : walker.Clear (item :: items)) :
    walker.isVisited item.block = false := by
  rw [← Bool.not_eq_true, isVisited_iff clear.strays]
  intro old
  exact (List.nodup_append.mp clear.nodup).2.2 _ old _ List.mem_cons_self rfl

theorem Adds.nil (walker : Walker) : Adds shape [] walker [] [] := by
  intro rest last finishes
  rwa [extend_nil] at finishes

theorem Adds.append {pending next : List Pending}
    (first : Adds shape pending walker items entrances)
    (second : Adds shape next (walker.extend items entrances) others later) :
    Adds shape (pending ++ next) walker (items ++ others) (entrances ++ later) := by
  intro rest last finishes
  rw [List.append_assoc]
  rw [← extend_extend] at finishes
  exact first _ _ (second _ _ finishes)

/-- A visit of a block that is numbered adds nothing. -/
theorem Adds.skip {visit : Pending} (seen : walker.isVisited visit.block = true) :
    Adds shape [visit] walker [] [] := by
  intro rest last finishes
  rw [extend_nil] at finishes
  exact .skip seen finishes

/-- A visit of a block that is not numbered adds it and what it leads to. -/
theorem Adds.number {visit : Pending} (fresh : walker.isVisited visit.block = false)
    (known : shape.hasBlock visit.block = true)
    (calm : shape.strayCaller? walker.discovery visit.block = none)
    (onward : Adds shape (walker.onward shape visit.block visit.scope)
      (walker.extend [⟨visit.block, visit.scope⟩] visit.entrance.toList) items entrances) :
    Adds shape [visit] walker (⟨visit.block, visit.scope⟩ :: items)
      (visit.entrance.toList ++ entrances) := by
  intro rest last finishes
  rw [← List.singleton_append, ← extend_extend] at finishes
  exact .number fresh known calm (onward _ _ finishes)

/-- **A walk adds what its first visit adds.** -/
theorem explore_of_adds (closed : shape.Closed) (sound : walker.Sound shape) {entry : BlockId}
    (known : shape.hasBlock entry = true)
    (adds : Adds shape [⟨entry, entry, none⟩] walker items entrances) :
    (walker.explore shape entry).walker = walker.extend items entrances := by
  have made := adds [] _ (.done _)
  rw [List.append_nil] at made
  exact made.unique (explore_finishes closed sound known)

/-! ## Once round -/

/-- The visits of the procedures that a block calls. -/
def descents (shape : Topology) (discovery : Option Discovery) (block : BlockId) : List Pending :=
  (shape.calls discovery block).map fun sub =>
    ⟨shape.entryBlock sub, shape.entryBlock sub, some ⟨block, sub, shape.entryBlock sub⟩⟩

end Walker

namespace Topology.Cycle

open Walker (Adds descents)

variable {shape : Topology} {len : Nat} {turn : Nat → BlockId} {discovery : Option Discovery}

/-- A walk may leave a cycle at each of its blocks: what is called from the `r`-th block adds
`detour r`. -/
structure Detours (shape : Topology) (discovery : Option Discovery) (len : Nat)
    (turn : Nat → BlockId) (detour : Nat → List Numbered) (entered : Nat → List Entrance) :
    Prop where
  calm : ∀ r < len, shape.strayCaller? discovery (turn r) = none
  adds : ∀ r < len, ∀ walker : Walker, walker.discovery = discovery → walker.Clear (detour r) →
    Adds shape (descents shape discovery (turn r)) walker (detour r) (entered r)

/-- What a walk adds at the blocks of a cycle in `scope` from the `r`-th on, `left` of them. -/
def round (turn : Nat → BlockId) (scope : BlockId) (detour : Nat → List Numbered) (r left : Nat) :
    List Numbered :=
  (List.range' r left).flatMap fun r => ⟨turn r, scope⟩ :: detour r

variable {detour : Nat → List Numbered} {entered : Nat → List Entrance} {scope : BlockId}

/-- One block of the cycle, what is called there, and what comes after it. -/
theorem adds_turn (cycle : shape.Cycle len turn)
    (detours : Detours shape discovery len turn detour entered) {r : Nat} (inside : r < len)
    (entrance : Option Entrance) {walker : Walker} (how : walker.discovery = discovery)
    {later : List Numbered} {laterEntered : List Entrance}
    (clear : walker.Clear (⟨turn r, scope⟩ :: (detour r ++ later)))
    (onward : ∀ after : Walker, after.discovery = discovery →
      walker.blocks ++ [turn r] ⊆ after.blocks → after.Clear later →
        Adds shape [⟨turn ((r + 1) % len), scope, none⟩] after later laterEntered) :
    Adds shape [⟨turn r, scope, entrance⟩] walker (⟨turn r, scope⟩ :: (detour r ++ later))
      (entrance.toList ++ (entered r ++ laterEntered)) := by
  subst how
  refine .number clear.isVisited (cycle.known r inside) (detours.calm r inside) ?_
  have numbered : (walker.extend [⟨turn r, scope⟩] entrance.toList).Clear (detour r ++ later) :=
    clear.extend entrance.toList
  have leads : walker.onward shape (turn r) scope =
      descents shape walker.discovery (turn r) ++ [⟨turn ((r + 1) % len), scope, none⟩] := by
    rw [Walker.onward, cycle.next r inside]
    rfl
  rw [leads]
  refine (detours.adds r inside (walker.extend _ _) rfl numbered.front).append
    (onward _ rfl ?_ (numbered.extend (entered r)))
  rw [Walker.blocks_extend, Walker.blocks_extend]
  exact List.subset_append_left _ _

/-- The rest of the cycle, up to its beginning. -/
theorem adds_rest (cycle : shape.Cycle len turn)
    (detours : Detours shape discovery len turn detour entered) {r : Nat} (left : Nat)
    (ends : r + left = len) {walker : Walker} (how : walker.discovery = discovery)
    (begun : turn 0 ∈ walker.blocks) (clear : walker.Clear (round turn scope detour r left)) :
    Adds shape [⟨turn (r % len), scope, none⟩] walker (round turn scope detour r left)
      ((List.range' r left).flatMap entered) := by
  induction left generalizing r walker with
  | zero =>
      obtain rfl : r = len := ends
      rw [Nat.mod_self]
      exact .skip ((Walker.isVisited_iff clear.strays _).mpr begun)
  | succ left ih =>
      have inside : r < len := by omega
      rw [Nat.mod_eq_of_lt inside]
      exact cycle.adds_turn detours inside none how clear fun after how older clear =>
        ih (by omega) how (older (List.mem_append_left _ begun)) clear

/-- **A walk goes once round a cycle**, with a detour at each of its blocks. -/
theorem adds (cycle : shape.Cycle len turn)
    (detours : Detours shape discovery len turn detour entered) (entrance : Option Entrance)
    {walker : Walker} (how : walker.discovery = discovery)
    (clear : walker.Clear (round turn scope detour 0 len)) :
    Adds shape [⟨turn 0, scope, entrance⟩] walker (round turn scope detour 0 len)
      (entrance.toList ++ (List.range' 0 len).flatMap entered) := by
  obtain ⟨left, rfl⟩ : ∃ left, len = left + 1 := ⟨len - 1, by have := cycle.positive; omega⟩
  exact cycle.adds_turn detours cycle.positive entrance how clear fun after how older clear =>
    cycle.adds_rest detours left (Nat.add_comm 1 left) how
      (older (List.mem_append_right _ List.mem_cons_self)) clear

/-- Where nothing is called there are no detours. -/
theorem detours_of_calls_eq_nil (cycle : shape.Cycle len turn) (closed : shape.Closed)
    (none : ∀ r < len, shape.calls discovery (turn r) = []) :
    Detours shape discovery len turn (fun _ => []) fun _ => [] where
  calm r inside := Walker.strayCaller?_of_closed closed discovery (cycle.known r inside)
  adds r inside walker _ _ := by
    rw [descents, none r inside]
    exact .nil walker

end Topology.Cycle

end BlockFlow
