/-
# BlockFlow.Proofs.Regions -- procedures are numbered as if they were alone

When procedures are separate, a run that follows calls numbers the region of every scope it begins
in the order in which a run that stays inside numbers it from there (`run_regions`).  The calls in
between interrupt the numbering of a scope but do not disturb it.

`inScope` and `following` are what can be seen from inside one scope: its numbered blocks, and the
pending visits that wait in it.  Seen from there, each round of the walk outside the scope is no
round at all, and each round inside it is a round of the walk that stays inside
(`Finishes.inScope`).  That a visit dropped by the one walk is dropped by the other is where
separateness comes in: a block numbered already may be numbered in no other scope.

The region of a scope is what breadth-first search finds (`mem_reachable_iff`).
-/
import BlockFlow.Proofs.BreadthFirst
import BlockFlow.Proofs.Nesting
import BlockFlow.Proofs.Procedures

namespace BlockFlow

set_option autoImplicit false

open FlowGraph (topology)

namespace Walker

variable {shape : Topology} {walker last : Walker} {pending : List Pending} {entry : BlockId}

/-! ## Homes -/

theorem Due.home {visit : Pending} (due : Due shape walker visit)
    (homes : ∀ item ∈ walker.numbered, shape.Home walker.discovery entry item.block item.scope) :
    shape.Home walker.discovery entry visit.block visit.scope := by
  cases due with
  | call numbered called =>
      obtain ⟨item, member, rfl⟩ := List.mem_map.mp numbered
      exact (homes item member).call called
  | flow numbered follows => exact (homes _ numbered).flow follows

/-- What one run numbers has its scope for a home. -/
theorem Grown.home {begun : List BlockId} (grown : Grown shape begun walker)
    (one : ∀ scope ∈ begun, scope = entry) :
    ∀ item ∈ walker.numbered, shape.Home walker.discovery entry item.block item.scope := by
  induction grown with
  | fresh mode => exact fun item absent => absurd absent List.not_mem_nil
  | begin _ _ _ ih =>
      intro item member
      rcases List.mem_append.mp member with old | new
      · exact ih (fun scope begun => one scope (List.mem_append_left _ begun)) item old
      · obtain rfl := List.mem_singleton.mp new
        obtain rfl := one _ (List.mem_append_right _ (List.mem_singleton_self _))
        exact .start
  | next _ _ due ih =>
      intro item member
      rcases List.mem_append.mp member with old | new
      · exact ih one item old
      · obtain rfl := List.mem_singleton.mp new
        exact due.home (ih one)

/-! ## One scope of a walk -/

theorem enter_of_entrance {visit : Pending} (follows : visit.entrance = none) :
    walker.enter visit = walker := by
  simp [enter, follows]

/-- The walker as it is seen from inside a scope. -/
def inScope (walker : Walker) (scope : BlockId) : Walker :=
  ⟨none, walker.numbered.filter (·.scope = scope), [], []⟩

/-- The visits that wait in a scope. -/
def following (scope : BlockId) (pending : List Pending) : List Pending :=
  pending.filter fun visit => visit.entrance.isNone && visit.scope = scope

theorem mem_blocks_inScope {block scope : BlockId} :
    block ∈ (walker.inScope scope).blocks ↔ ⟨block, scope⟩ ∈ walker.numbered := by
  simp only [blocks, inScope, List.mem_map, List.mem_filter, decide_eq_true_eq]
  constructor
  · rintro ⟨item, ⟨member, rfl⟩, rfl⟩
    exact member
  · exact fun member => ⟨_, ⟨member, rfl⟩, rfl⟩

theorem inScope_number_same (walker : Walker) (visit : Pending) :
    ((walker.enter visit).number visit).inScope visit.scope =
      (walker.inScope visit.scope).number visit := by
  simp [inScope, enter, number]

theorem inScope_number_other {visit : Pending} {scope : BlockId} (apart : visit.scope ≠ scope) :
    ((walker.enter visit).number visit).inScope scope = walker.inScope scope := by
  simp [inScope, enter, number, apart]

theorem following_onward_same (walker : Walker) (block scope : BlockId) (rest : List Pending) :
    following scope (walker.onward shape block scope ++ rest) =
      (walker.inScope scope).onward shape block scope ++ following scope rest := by
  simp [following, onward, inScope, Topology.calls, List.filter_map, Function.comp_def]

theorem following_onward_other (walker : Walker) (block : BlockId) {home scope : BlockId}
    (apart : home ≠ scope) (rest : List Pending) :
    following scope (walker.onward shape block home ++ rest) = following scope rest := by
  simp [following, onward, List.filter_map, Function.comp_def, apart]

theorem following_cons_same {visit : Pending} (follows : visit.entrance = none)
    (rest : List Pending) :
    following visit.scope (visit :: rest) = visit :: following visit.scope rest := by
  simp [following, follows]

theorem following_cons_other {visit : Pending} {scope : BlockId}
    (apart : visit.entrance = none → visit.scope ≠ scope) (rest : List Pending) :
    following scope (visit :: rest) = following scope rest := by
  refine List.filter_cons_of_neg ?_
  simpa using apart

theorem isVisited_inScope {block scope : BlockId} :
    (walker.inScope scope).isVisited block = true ↔ ⟨block, scope⟩ ∈ walker.numbered := by
  rw [← mem_blocks_inScope]
  simp [isVisited, inScope, blocks, and_assoc]

/-- In separate procedures a visit is made or dropped for the same reason inside its scope. -/
theorem Underway.isVisited_inScope_eq {visit : Pending} {rest : List Pending}
    (underway : Underway shape [entry] walker (visit :: rest))
    (separate : shape.Separate walker.discovery entry) :
    (walker.inScope visit.scope).isVisited visit.block = walker.isVisited visit.block := by
  rw [Bool.eq_iff_iff, isVisited_inScope, underway.sound.isVisited_iff]
  constructor
  · exact mem_blocks_of_mem
  · intro numbered
    obtain ⟨⟨block, scope⟩, member, same⟩ := List.mem_map.mp numbered
    have same : block = visit.block := same
    subst same
    have homes := underway.grown.home fun scope begun => List.mem_singleton.mp begun
    have home := (underway.due visit List.mem_cons_self).home homes
    have unique := separate.home_unique (homes _ member) home.opened home.flows
    exact unique ▸ member

/-- **From inside a scope that has begun, a walk is a walk that does not follow calls.** -/
theorem Finishes.inScope {scope : BlockId} (finishes : Finishes shape pending walker last)
    (underway : Underway shape [entry] walker pending)
    (separate : shape.Separate walker.discovery entry) (here : scope ∈ walker.blocks) :
    Finishes shape (following scope pending) (walker.inScope scope) (last.inScope scope) := by
  induction finishes with
  | done => exact .done _
  | @skip visit rest walker last seen later ih =>
      have step := ih underway.drop separate here
      by_cases waits : visit.entrance = none ∧ visit.scope = scope
      · obtain ⟨follows, rfl⟩ := waits
        rw [following_cons_same follows]
        exact .skip ((underway.isVisited_inScope_eq separate).trans seen) step
      · rw [following_cons_other fun follows same => waits ⟨follows, same⟩]
        exact step
  | @number visit rest walker last fresh known calm later ih =>
      have still : scope ∈ ((walker.enter visit).number visit).blocks := by
        rw [blocks_number]
        exact List.mem_append_left _ here
      have step := ih (underway.number fresh known) separate still
      by_cases waits : visit.entrance = none ∧ visit.scope = scope
      · obtain ⟨follows, rfl⟩ := waits
        rw [following_cons_same follows]
        rw [inScope_number_same, following_onward_same] at step
        refine .number ((underway.isVisited_inScope_eq separate).trans fresh) known rfl ?_
        rw [enter_of_entrance follows]
        exact step
      · have apart : visit.scope ≠ scope := by
          rintro rfl
          cases underway.due visit List.mem_cons_self with
          | call _ _ => exact not_mem_blocks fresh here
          | flow _ _ => exact waits ⟨rfl, rfl⟩
        rw [following_cons_other fun _ => apart]
        rw [inScope_number_other apart, following_onward_other walker _ apart] at step
        exact step

/-- What is seen of a scope before it begins. -/
theorem Grown.inScope_of_not_mem {begun : List BlockId} (grown : Grown shape begun walker)
    {scope : BlockId} (new : scope ∉ walker.blocks) :
    walker.inScope scope = Walker.fresh .within := by
  have none : walker.numbered.filter (·.scope = scope) = [] := by
    refine List.filter_eq_nil_iff.mpr fun item member same => ?_
    have same : item.scope = scope := of_decide_eq_true same
    exact new (same ▸ mem_blocks_of_mem (grown.opened item member).mem)
  rw [Walker.inScope, none]
  rfl

/-- Nothing waits in a scope before it begins. -/
theorem Underway.following_of_not_mem {begun : List BlockId}
    (underway : Underway shape begun walker pending) {scope : BlockId}
    (new : scope ∉ walker.blocks) : following scope pending = [] := by
  refine List.filter_eq_nil_iff.mpr fun visit member waits => ?_
  obtain ⟨follows, same⟩ := Bool.and_eq_true_iff.mp waits
  have waits := (underway.due visit member).mem_scopes (Option.isNone_iff_eq_none.mp follows)
  exact new (underway.grown.mem_blocks_of_scopes (of_decide_eq_true same ▸ waits))

/-- When a scope begins, the walk from its first block on is a walk of its own. -/
theorem Finishes.begins {scope : BlockId} {entrance : Option Entrance} {rest : List Pending}
    (later : Finishes shape (walker.onward shape scope scope ++ rest)
      ((walker.enter ⟨scope, scope, entrance⟩).number ⟨scope, scope, entrance⟩) last)
    (underway : Underway shape [entry]
      ((walker.enter ⟨scope, scope, entrance⟩).number ⟨scope, scope, entrance⟩)
      (walker.onward shape scope scope ++ rest))
    (known : shape.hasBlock scope = true) (separate : shape.Separate walker.discovery entry)
    (unseen : walker.inScope scope = fresh .within) (idle : following scope rest = []) :
    Finishes shape [⟨scope, scope, none⟩] (fresh .within) (last.inScope scope) := by
  have here : scope ∈ ((walker.enter ⟨scope, scope, entrance⟩).number
      ⟨scope, scope, entrance⟩).blocks := by
    rw [blocks_number]
    exact List.mem_append_right _ (List.mem_singleton_self _)
  have step := later.inScope underway separate here
  have first : ((walker.enter ⟨scope, scope, entrance⟩).number ⟨scope, scope, entrance⟩).inScope
      scope = (fresh .within).number ⟨scope, scope, none⟩ := by
    rw [← unseen]
    exact inScope_number_same walker ⟨scope, scope, entrance⟩
  rw [first, following_onward_same, unseen, idle] at step
  exact .number rfl known rfl step

/-- **From inside a scope, a walk begins when the scope does.** -/
theorem Finishes.opens {scope : BlockId} (finishes : Finishes shape pending walker last)
    (underway : Underway shape [entry] walker pending)
    (separate : shape.Separate walker.discovery entry) (new : scope ∉ walker.blocks)
    (opened : ⟨scope, scope⟩ ∈ last.numbered) :
    Finishes shape [⟨scope, scope, none⟩] (fresh .within) (last.inScope scope) := by
  induction finishes with
  | done => exact absurd (mem_blocks_of_mem opened) new
  | skip _ _ ih => exact ih underway.drop separate new opened
  | @number visit rest walker last unmet known calm later ih =>
      have next := underway.number unmet known
      by_cases here : visit.block = scope
      · -- the visit is the one that begins the scope, since no block is numbered twice
        have numbered : ⟨visit.block, visit.scope⟩ ∈ last.numbered :=
          later.extends.subset (List.mem_append_right _ (List.mem_singleton_self _))
        have nodup := (later.sound next.sound).nodup
        have same : visit.scope = scope := by
          have found := scopeOf_of_mem nodup numbered
          have also := scopeOf_of_mem nodup opened
          simp only [here] at found
          simpa using found.symm.trans also
        obtain ⟨block, home, entrance⟩ := visit
        obtain rfl : block = scope := here
        obtain rfl : home = block := same
        exact later.begins next known separate (underway.grown.inScope_of_not_mem new)
          (underway.drop.following_of_not_mem new)
      · refine ih next separate ?_ opened
        rw [blocks_number, List.mem_append, List.mem_singleton]
        exact not_or.mpr ⟨new, Ne.symm here⟩

/-- **A run that follows calls numbers each scope as a run from there that does not.** -/
theorem explore_inScope (closed : shape.Closed) (mode : Mode) (known : shape.hasBlock entry = true)
    (separate : shape.Separate mode.discovery entry) {scope : BlockId}
    (opened : ⟨scope, scope⟩ ∈ ((fresh mode).explore shape entry).walker.numbered) :
    ((fresh mode).explore shape entry).walker.inScope scope =
      ((fresh .within).explore shape scope).walker := by
  have sound := fresh_sound shape mode
  have finishes := explore_finishes closed sound known
  have inside := (finishes.sound sound).known scope (mem_blocks_of_mem opened)
  refine (explore_finishes closed (fresh_sound shape .within) inside).unique ?_
  generalize ((fresh mode).explore shape entry).walker = last at finishes opened
  cases finishes with
  | skip seen => cases seen
  | number unmet _ _ later =>
      have first := Underway.begin sound (fresh_saturated shape mode) (.fresh mode) unmet known
      by_cases same : scope = entry
      · subst same
        exact later.begins first known separate rfl rfl
      · refine later.opens first separate ?_ opened
        simpa [fresh, blocks, number, enter] using same

/-! ## Runs -/

theorem blocks_inScope (nodup : walker.blocks.Nodup) (scope : BlockId) :
    (walker.inScope scope).blocks =
      walker.blocks.filter fun block => walker.scopeOf block = some scope := by
  show (walker.numbered.filter (·.scope = scope)).map (·.block) =
    (walker.numbered.map (·.block)).filter _
  rw [List.filter_map]
  refine congrArg _ (List.filter_congr fun item member => ?_)
  simp [scopeOf_of_mem nodup member]

end Walker

namespace Graph

open Walker

variable {S K : Type}

/-- **Separate procedures are numbered as if they were alone.**  When the regions of the scopes are
separate, a run has numbered in each scope that it has begun exactly the region of it, in the
order in which a run from there that does not follow calls numbers it; so the region of the entry,
too, is numbered in the order of such a run. -/
theorem run_regions (mode : Mode) (tracksCallSites : Bool) (ops : List (Op S K)) {entry : BlockId}
    (known : (built tracksCallSites ops).topology.hasBlock entry = true)
    (separate : (built tracksCallSites ops).topology.Separate mode.discovery entry) :
    let g := built tracksCallSites ops
    let walker := ((fresh mode).run g entry).walk.walker
    walker.scopeOf entry = some entry ∧
      ∀ block scope, walker.scopeOf block = some scope →
        (∀ other, walker.scopeOf other = some scope ↔ other ∈ g.topology.reachable scope) ∧
          walker.blocks.filter (fun other => walker.scopeOf other = some scope) =
            ((fresh .within).run g scope).walk.walker.blocks := by
  intro g walker
  have closed : g.topology.Closed := (built_coherent tracksCallSites ops).closed
  have start := fresh_sound g.topology mode
  have sound : walker.Sound g.topology := (explore_finishes closed start known).sound start
  have grown := explore_grown closed start (fresh_saturated g.topology mode) (.fresh mode) known
  have belongs {block scope : BlockId} : walker.scopeOf block = some scope ↔
      ⟨block, scope⟩ ∈ walker.numbered := scopeOf_eq_some_iff sound.nodup
  constructor
  · have first : entry ∈ walker.blocks :=
      (explore_mem_blocks closed start (fresh_saturated _ mode) known entry).mpr (Or.inr .refl)
    exact scopeOf_of_flows closed mode known separate (Or.inl rfl) .refl first
  · intro block scope found
    have opened := (grown.opened _ (belongs.mp found)).mem
    have inside := sound.known scope (mem_blocks_of_mem opened)
    have alone : walker.inScope scope = ((fresh .within).explore g.topology scope).walker :=
      explore_inScope closed mode known separate opened
    constructor
    · intro other
      have alone_mem := explore_mem_blocks closed (fresh_sound g.topology .within)
        (fresh_saturated _ .within) inside other
      rw [belongs, ← mem_blocks_inScope, alone, alone_mem]
      show other ∈ [] ∨ g.topology.Reaches none scope other ↔ _
      rw [Topology.reaches_none, Topology.mem_reachable_iff closed inside]
      exact or_iff_right List.not_mem_nil
    · rw [← blocks_inScope sound.nodup, alone]
      rfl

/-- The loop at block 2 is numbered as from block 2, though the procedure it calls is numbered in
between, and blocks 0 and 1 as from block 0. -/
theorem procedureNest_regions :
    let g : Graph Bool Unit := built true procedureNest
    let walker := ((fresh .across).run g ⟨0⟩).walk.walker
    g.topology.hasBlock ⟨0⟩ = true ∧ g.topology.Separate (some .cache) ⟨0⟩ ∧
      walker.numbered = [⟨⟨0⟩, ⟨0⟩⟩, ⟨⟨2⟩, ⟨2⟩⟩, ⟨⟨3⟩, ⟨2⟩⟩, ⟨⟨4⟩, ⟨4⟩⟩, ⟨⟨1⟩, ⟨0⟩⟩] ∧
      (∀ other, walker.scopeOf other = some ⟨0⟩ ↔ other ∈ g.topology.reachable ⟨0⟩) ∧
      ((fresh .within).run g ⟨0⟩).walk.walker.blocks = [⟨0⟩, ⟨1⟩] := by
  have known : (built true procedureNest : Graph Bool Unit).topology.hasBlock ⟨0⟩ = true := by
    decide +kernel
  have separate :
      (built true procedureNest : Graph Bool Unit).topology.Separate (some .cache) ⟨0⟩ :=
    Topology.separate_of_home (built_coherent true procedureNest).closed known
      (fun block => if block.index < 2 then ⟨0⟩ else if block.index < 4 then ⟨2⟩ else block)
      rfl (by decide +kernel) (by decide +kernel)
  obtain ⟨first, regions⟩ := run_regions .across true procedureNest known separate
  obtain ⟨region, order⟩ := regions ⟨0⟩ ⟨0⟩ first
  refine ⟨known, separate, by decide +kernel, region, ?_⟩
  rw [← order]
  decide +kernel

end Graph

end BlockFlow
