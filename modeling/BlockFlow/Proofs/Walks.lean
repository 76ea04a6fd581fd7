/-
# BlockFlow.Proofs.Walks -- where a walk comes to

`Walker.walk` recurses on a budget.  `Walker.Finishes` is its loop on its own: pending visits
are taken from the front until none is left.  On a closed graph the budget is never what
ends a walk (`walk_finishes`), so whatever is to be known of a walk is an induction on the
loop, one case for a visit that is dropped and one for a block that is numbered:

* a walk goes on to everything that its numbered blocks lead to (`Finishes.covers`);
* what holds of the pending visits and is passed on by numbering a block holds of all that
  is numbered (`Finishes.passesOn`);
* a walk therefore numbers exactly what its entry reaches (`explore_mem_blocks`).
-/
import BlockFlow.Proofs.Numbering
import Mathlib.Data.List.Perm.Subperm
import Mathlib.Logic.Relation

namespace BlockFlow

set_option autoImplicit false

namespace Topology

/-- Control can pass from the first block to the second along edges. -/
def Flows (shape : Topology) : BlockId → BlockId → Prop :=
  Relation.ReflTransGen fun block next => next ∈ shape.successors block

/-- A traversal that numbers `block` goes on to `next`: control passes there, or `block` calls
a procedure that begins there. -/
def Leads (shape : Topology) (discovery : Option Discovery) (block next : BlockId) : Prop :=
  next ∈ shape.successors block ∨ ∃ sub ∈ shape.calls discovery block, shape.entryBlock sub = next

/-- A traversal that begins at the first block comes to the second. -/
def Reaches (shape : Topology) (discovery : Option Discovery) : BlockId → BlockId → Prop :=
  Relation.ReflTransGen (shape.Leads discovery)

theorem Closed.hasBlock_of_leads {shape : Topology} (closed : shape.Closed)
    {discovery : Option Discovery} {block next : BlockId} (known : shape.hasBlock block = true)
    (leads : shape.Leads discovery block next) : shape.hasBlock next = true := by
  rcases leads with follows | ⟨sub, called, rfl⟩
  · exact closed.successor block known next follows
  · cases discovery with
    | none => exact absurd called List.not_mem_nil
    | some how => exact closed.entry how block known sub called

theorem reaches_none (shape : Topology) : shape.Reaches none = shape.Flows := by
  have leads : shape.Leads none = fun block next => next ∈ shape.successors block := by
    funext block next
    simp [Topology.Leads, Topology.calls]
  rw [Topology.Reaches, leads, Topology.Flows]

/-- Blocks of the graph listed without repeats are some of the blocks there are. -/
theorem subperm_blocks {shape : Topology} {blocks : List BlockId} (nodup : blocks.Nodup)
    (known : ∀ block ∈ blocks, shape.hasBlock block = true) :
    blocks.Subperm ((List.range shape.blockCount).map BlockId.mk) := by
  refine List.subperm_of_subset nodup fun block member => ?_
  have bound : block.index < shape.blockCount := of_decide_eq_true (known block member)
  exact List.mem_map.mpr ⟨block.index, List.mem_range.mpr bound, rfl⟩

theorem length_le_blockCount {shape : Topology} {blocks : List BlockId} (nodup : blocks.Nodup)
    (known : ∀ block ∈ blocks, shape.hasBlock block = true) :
    blocks.length ≤ shape.blockCount := by
  simpa using (subperm_blocks nodup known).length_le

end Topology

namespace Walker

variable {shape : Topology} {walker last : Walker} {pending : List Pending}

/-! ## Walkers between two rounds -/

/-- What a walker on a closed graph is like, in the middle of a walk as well as between walks. -/
structure Sound (shape : Topology) (walker : Walker) : Prop where
  nodup : walker.blocks.Nodup
  known : ∀ block ∈ walker.blocks, shape.hasBlock block = true
  strays : walker.strays = []

theorem fresh_sound (shape : Topology) (mode : Mode) : (fresh mode).Sound shape where
  nodup := List.nodup_nil
  known _ member := absurd member List.not_mem_nil
  strays := rfl

theorem Sound.isVisited_iff (sound : walker.Sound shape) {block : BlockId} :
    walker.isVisited block = true ↔ block ∈ walker.blocks := by
  rw [isVisited, sound.strays, List.contains_nil, Bool.or_false, blocks, List.any_eq_true]
  simp

theorem Sound.number (sound : walker.Sound shape) {visit : Pending}
    (fresh : walker.isVisited visit.block = false) (known : shape.hasBlock visit.block = true) :
    ((walker.enter visit).number visit).Sound shape where
  nodup := by
    rw [blocks_number, blocks_enter]
    exact sound.nodup.append (List.nodup_singleton _) (by simpa using not_mem_blocks fresh)
  known block member := by
    rw [blocks_number, blocks_enter, List.mem_append, List.mem_singleton] at member
    rcases member with old | rfl
    · exact sound.known block old
    · exact known
  strays := sound.strays

/-- The numbered blocks are some of the blocks of the graph. -/
theorem Sound.subperm (sound : walker.Sound shape) :
    walker.blocks.Subperm ((List.range shape.blockCount).map BlockId.mk) :=
  Topology.subperm_blocks sound.nodup sound.known

theorem Sound.length_le (sound : walker.Sound shape) :
    walker.blocks.length ≤ shape.blockCount :=
  Topology.length_le_blockCount sound.nodup sound.known

/-- Once there are as many numbered blocks as there are blocks, all blocks are numbered. -/
theorem Sound.mem_of_length (sound : walker.Sound shape)
    (all : shape.blockCount ≤ walker.blocks.length) {block : BlockId}
    (known : shape.hasBlock block = true) : block ∈ walker.blocks := by
  have perm := sound.subperm.perm_of_length_le (by simpa using all)
  rw [perm.mem_iff]
  exact List.mem_map.mpr ⟨block.index, List.mem_range.mpr (of_decide_eq_true known), rfl⟩

/-- A block that is numbered leads to the blocks of its onward visits. -/
theorem leads_iff_onward (walker : Walker) (shape : Topology) {block scope next : BlockId} :
    shape.Leads walker.discovery block next ↔
      ∃ visit ∈ walker.onward shape block scope, visit.block = next := by
  simp only [Topology.Leads, onward, List.mem_append, List.mem_map]
  constructor
  · rintro (follows | ⟨sub, called, rfl⟩)
    · exact ⟨_, Or.inr ⟨next, follows, rfl⟩, rfl⟩
    · exact ⟨_, Or.inl ⟨sub, called, rfl⟩, rfl⟩
  · rintro ⟨_, ⟨sub, called, rfl⟩ | ⟨_, follows, rfl⟩, rfl⟩
    · exact Or.inr ⟨sub, called, rfl⟩
    · exact Or.inl follows

/-! ## The loop without a budget -/

/-- Taking pending visits from the front until none is left turns the first walker into the
second. -/
inductive Finishes (shape : Topology) : List Pending → Walker → Walker → Prop
  | done (walker : Walker) : Finishes shape [] walker walker
  | skip {visit : Pending} {rest : List Pending} {walker last : Walker}
      (seen : walker.isVisited visit.block = true) (later : Finishes shape rest walker last) :
      Finishes shape (visit :: rest) walker last
  | number {visit : Pending} {rest : List Pending} {walker last : Walker}
      (fresh : walker.isVisited visit.block = false) (known : shape.hasBlock visit.block = true)
      (calm : shape.strayCaller? walker.discovery visit.block = none)
      (later : Finishes shape (walker.onward shape visit.block visit.scope ++ rest)
        ((walker.enter visit).number visit) last) :
      Finishes shape (visit :: rest) walker last

/-- The loop comes to one end only. -/
theorem Finishes.unique {other : Walker} (finishes : Finishes shape pending walker last)
    (too : Finishes shape pending walker other) : other = last := by
  induction finishes with
  | done =>
      cases too
      rfl
  | skip seen _ ih =>
      cases too with
      | skip _ later => exact ih later
      | number fresh => exact absurd seen (by simp [fresh])
  | number fresh _ _ _ ih =>
      cases too with
      | skip seen => exact absurd seen (by simp [fresh])
      | number _ _ _ later => exact ih later

theorem Finishes.of_dropWhile
    (later : Finishes shape (pending.dropWhile fun visit => walker.isVisited visit.block) walker last) :
    Finishes shape pending walker last := by
  induction pending with
  | nil => exact later
  | cons visit rest ih =>
      by_cases seen : walker.isVisited visit.block = true
      · simp only [List.dropWhile_cons, seen, if_true] at later
        exact .skip seen (ih later)
      · simp only [List.dropWhile_cons, seen] at later
        exact later

theorem Finishes.of_seen (seen : ∀ visit ∈ pending, walker.isVisited visit.block = true) :
    Finishes shape pending walker walker := by
  induction pending with
  | nil => exact .done walker
  | cons visit rest ih =>
      exact .skip (seen visit List.mem_cons_self)
        (ih fun other member => seen other (List.mem_cons_of_mem _ member))

/-- **The budget never ends a walk.**  Every block of the graph is numbered at most once, so a
budget that covers the blocks not numbered yet is as good as none. -/
theorem walk_finishes (closed : shape.Closed) (budget : Nat) (sound : walker.Sound shape)
    (inside : ∀ visit ∈ pending, shape.hasBlock visit.block = true)
    (enough : shape.blockCount ≤ walker.blocks.length + budget) :
    Finishes shape pending walker (walk shape budget pending walker).walker := by
  fun_induction walk shape budget pending walker with
  | case1 pending walker =>
      exact .of_seen fun visit member =>
        sound.isVisited_iff.mpr (sound.mem_of_length enough (inside visit member))
  | case2 budget pending walker next =>
      refine .of_dropWhile ?_
      rw [next]
      exact .done walker
  | case3 budget pending walker visit rest next entered known calm ih =>
      have fresh := isVisited_of_dropWhile next
      have later := ih (sound.number fresh known)
        (fun other member => by
          rcases List.mem_append.mp member with onward | waiting
          · exact hasBlock_of_mem_onward closed known other onward
          · exact inside other (mem_of_dropWhile next other (List.mem_cons_of_mem _ waiting)))
        (by
          rw [blocks_number, List.length_append]
          simp only [List.length_singleton, entered, blocks_enter]
          omega)
      refine .of_dropWhile ?_
      rw [next]
      exact .number fresh known calm later
  | case4 budget pending walker visit rest next entered known node stray =>
      rw [strayCaller?_of_closed closed _ known] at stray
      cases stray
  | case5 budget pending walker visit rest next entered unknown =>
      exact absurd (inside visit (mem_of_dropWhile next visit List.mem_cons_self)) unknown

theorem explore_finishes (closed : shape.Closed) (sound : walker.Sound shape) {entry : BlockId}
    (known : shape.hasBlock entry = true) :
    Finishes shape [⟨entry, entry, none⟩] walker (walker.explore shape entry).walker :=
  walk_finishes closed _ sound (by simpa using known) (by omega)

/-! ## What the loop keeps -/

theorem Finishes.sound (finishes : Finishes shape pending walker last)
    (sound : walker.Sound shape) : last.Sound shape := by
  induction finishes with
  | done => exact sound
  | skip _ _ ih => exact ih sound
  | number fresh known _ _ ih => exact ih (sound.number fresh known)

theorem Finishes.discovery (finishes : Finishes shape pending walker last) :
    last.discovery = walker.discovery := by
  induction finishes with
  | done => rfl
  | skip _ _ ih => exact ih
  | number _ _ _ _ ih => exact ih

/-- A walk only adds to what is numbered. -/
theorem Finishes.extends (finishes : Finishes shape pending walker last) :
    walker.numbered <+: last.numbered := by
  induction finishes with
  | done => exact List.prefix_rfl
  | skip _ _ ih => exact ih
  | number _ _ _ _ ih => exact (List.prefix_append _ _).trans ih

theorem Finishes.blocks_prefix (finishes : Finishes shape pending walker last) :
    walker.blocks <+: last.blocks :=
  finishes.extends.map _

/-- At the end no visit is left to be made: the pending blocks are numbered, and so is what a
newly numbered block leads to. -/
theorem Finishes.covers (finishes : Finishes shape pending walker last)
    (sound : walker.Sound shape) :
    (∀ visit ∈ pending, visit.block ∈ last.blocks) ∧
      ∀ block ∈ last.blocks, block ∈ walker.blocks ∨
        ∀ next, shape.Leads walker.discovery block next → next ∈ last.blocks := by
  induction finishes with
  | done => exact ⟨fun _ member => absurd member List.not_mem_nil, fun _ member => Or.inl member⟩
  | @skip visit rest walker last seen later ih =>
      obtain ⟨made, closed⟩ := ih sound
      refine ⟨fun other member => ?_, closed⟩
      rcases List.mem_cons.mp member with rfl | waiting
      · exact later.blocks_prefix.subset (sound.isVisited_iff.mp seen)
      · exact made other waiting
  | @number visit rest walker last fresh known _ later ih =>
      obtain ⟨made, closed⟩ := ih (sound.number fresh known)
      have numbered : visit.block ∈ last.blocks := later.blocks_prefix.subset (by simp)
      constructor
      · intro other member
        rcases List.mem_cons.mp member with rfl | waiting
        · exact numbered
        · exact made other (List.mem_append_right _ waiting)
      · intro block member
        rcases closed block member with before | onward
        · rw [blocks_number, blocks_enter, List.mem_append, List.mem_singleton] at before
          rcases before with old | rfl
          · exact Or.inl old
          · refine Or.inr fun next leads => ?_
            obtain ⟨other, onward, rfl⟩ := (leads_iff_onward walker shape).mp leads
            exact made other (List.mem_append_left _ onward)
        · exact Or.inr onward

/-- What holds of the pending visits, and of the onward visits of a block it holds of, holds of
all that the walk numbers. -/
theorem Finishes.passesOn (finishes : Finishes shape pending walker last)
    {P : (block scope : BlockId) → Prop}
    (onward : ∀ block scope, P block scope →
      ∀ visit ∈ walker.onward shape block scope, P visit.block visit.scope)
    (start : ∀ visit ∈ pending, P visit.block visit.scope) :
    ∀ item ∈ last.numbered, item ∈ walker.numbered ∨ P item.block item.scope := by
  induction finishes with
  | done => exact fun _ member => Or.inl member
  | skip _ _ ih => exact ih onward fun visit member => start visit (List.mem_cons_of_mem _ member)
  | @number visit rest walker last _ _ _ _ ih =>
      have here := start visit List.mem_cons_self
      have later := ih onward fun other member => by
        rcases List.mem_append.mp member with next | waiting
        · exact onward _ _ here other next
        · exact start other (List.mem_cons_of_mem _ waiting)
      intro item member
      rcases later item member with before | holds
      · rcases List.mem_append.mp before with old | new
        · exact Or.inl old
        · rw [List.mem_singleton] at new
          exact Or.inr (new ▸ here)
      · exact Or.inr holds

/-! ## Whole walks -/

/-- What a walker has numbered leads to nothing else. -/
def Saturated (shape : Topology) (walker : Walker) : Prop :=
  ∀ block ∈ walker.blocks, ∀ next, shape.Leads walker.discovery block next → next ∈ walker.blocks

theorem Saturated.mem_of_reaches (saturated : walker.Saturated shape) {block other : BlockId}
    (member : block ∈ walker.blocks) (reaches : shape.Reaches walker.discovery block other) :
    other ∈ walker.blocks := by
  induction reaches with
  | refl => exact member
  | tail _ leads ih => exact saturated _ ih _ leads

theorem explore_saturated (closed : shape.Closed) (sound : walker.Sound shape)
    (saturated : walker.Saturated shape) {entry : BlockId} (known : shape.hasBlock entry = true) :
    (walker.explore shape entry).walker.Saturated shape := by
  have finishes := explore_finishes closed sound known
  intro block member next leads
  rw [finishes.discovery] at leads
  rcases (finishes.covers sound).2 block member with old | onward
  · exact finishes.blocks_prefix.subset (saturated block old next leads)
  · exact onward next leads

/-- **A walk numbers what its entry reaches.** -/
theorem explore_mem_blocks (closed : shape.Closed) (sound : walker.Sound shape)
    (saturated : walker.Saturated shape) {entry : BlockId} (known : shape.hasBlock entry = true)
    (block : BlockId) :
    block ∈ (walker.explore shape entry).walker.blocks ↔
      block ∈ walker.blocks ∨ shape.Reaches walker.discovery entry block := by
  have finishes := explore_finishes closed sound known
  constructor
  · intro member
    obtain ⟨item, numbered, rfl⟩ := List.mem_map.mp member
    have reached := finishes.passesOn
      (P := fun block _ => shape.Reaches walker.discovery entry block)
      (fun block scope reached visit onward => reached.tail
        ((leads_iff_onward walker shape).mpr ⟨visit, onward, rfl⟩))
      (by
        intro visit member
        rw [List.mem_singleton] at member
        exact member ▸ Relation.ReflTransGen.refl) item numbered
    exact reached.imp_left List.mem_map_of_mem
  · rintro (old | reaches)
    · exact finishes.blocks_prefix.subset old
    · have all := explore_saturated closed sound saturated known
      have first := (finishes.covers sound).1 _ List.mem_cons_self
      rw [← finishes.discovery] at reaches
      exact all.mem_of_reaches first reaches

end Walker

end BlockFlow
