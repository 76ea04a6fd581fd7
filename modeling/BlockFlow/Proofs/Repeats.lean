/-
# BlockFlow.Proofs.Repeats -- repeated edges and repeated callees do not matter

A numbering comes to a block by its first mention and passes over all others, so of an edge list,
or of the entries of the procedures that a block calls, it reads no more than where each block
stands first.  Two graphs that agree on that are `Topology.SameButRepeats`.

The recursion of one graph is followed by the recursion of the other (`DepthFirst.of_matches`).
The lists that the two still have to go through need not be equal on the way: one of them may go
on mentioning blocks that are numbered already.  What they have in common is that they add the same
to the numbered blocks, and this stays so while more blocks are numbered (`Distinct.addAll_mono`).

After the numbering a run asks only whether a block is among the successors of another, or among
the entries it calls, so the worklists of the two graphs go on alike as long as the transfer
functions report alike (`BlockTransfer.BehavesAs`, `rounds_behavesAs`).
-/
import BlockFlow.Proofs.Preorder
import BlockFlow.Proofs.Limits
import BlockFlow.Proofs.EdgeLists

namespace BlockFlow

set_option autoImplicit false

open FlowGraph (topology order restamp)

/-! ## Lists that add the same -/

namespace Distinct

variable {α : Type} [DecidableEq α] {seen xs ys : List α} {x : α}

theorem addAll_cons_of_mem (old : x ∈ seen) : addAll seen (x :: xs) = addAll seen xs := by
  simp [addAll, add, old]

theorem addAll_cons_of_not_mem (new : x ∉ seen) :
    addAll seen (x :: xs) = addAll (seen ++ [x]) xs := by
  simp [addAll, add, new]

theorem addAll_congr (same : xs.eraseDups = ys.eraseDups) (seen : List α) :
    addAll seen xs = addAll seen ys := by
  rw [addAll_eq_append_filter, addAll_eq_append_filter, same]

/-- Lists that add the same go on to do so when more is seen. -/
theorem addAll_mono {later : List α} (same : addAll seen xs = addAll seen ys)
    (more : ∀ x ∈ seen, x ∈ later) : addAll later xs = addAll later ys := by
  rw [addAll_eq_append_filter, addAll_eq_append_filter, List.append_cancel_left_eq] at same
  have sift : ∀ zs : List α, zs.filter (· ∉ later) = (zs.filter (· ∉ seen)).filter (· ∉ later) := by
    intro zs
    rw [List.filter_filter]
    refine List.filter_congr fun z _ => ?_
    by_cases old : z ∈ seen <;> simp [old, more]
  rw [addAll_eq_append_filter, addAll_eq_append_filter, sift, same, ← sift]

/-- A list adds nothing only if all of it is seen. -/
theorem mem_of_addAll_nil (same : addAll seen [] = addAll seen ys) : ∀ y ∈ ys, y ∈ seen := by
  intro y member
  have added : y ∈ addAll seen [] := same ▸ mem_addAll.mpr (.inr member)
  simpa [addAll] using added

/-- When the first item of a list is new, the other list comes to the same item after items that
are seen, and from there on the two lists add the same. -/
theorem addAll_cons_inv (new : x ∉ seen) (same : addAll seen (x :: xs) = addAll seen ys) :
    ∃ before after, ys = before ++ x :: after ∧ (∀ y ∈ before, y ∈ seen) ∧
      addAll (seen ++ [x]) xs = addAll (seen ++ [x]) after := by
  induction ys with
  | nil =>
      have added : x ∈ addAll seen (x :: xs) := mem_addAll.mpr (.inr List.mem_cons_self)
      rw [same] at added
      exact absurd added new
  | cons y ys ih =>
      by_cases old : y ∈ seen
      · rw [addAll_cons_of_mem old] at same
        obtain ⟨before, after, rfl, passed, rest⟩ := ih same
        exact ⟨y :: before, after, rfl, by simpa [old] using passed, rest⟩
      · rw [addAll_cons_of_not_mem new, addAll_cons_of_not_mem old] at same
        have first : x = y := by
          simp only [addAll_eq_append_filter, List.append_assoc, List.append_cancel_left_eq,
            List.singleton_append, List.cons.injEq] at same
          exact same.1
        subst first
        exact ⟨[], ys, rfl, by simp, same⟩

end Distinct

/-! ## Graphs that differ in repeats -/

/-- Graphs with the same blocks, in which every block flows into the same blocks, and calls
procedures with the same entries, when only first mentions count. -/
structure Topology.SameButRepeats (shape other : Topology) (discovery : Option Discovery) :
    Prop where
  count : other.blockCount = shape.blockCount
  successors : ∀ block, shape.hasBlock block = true →
    (other.successors block).eraseDups = (shape.successors block).eraseDups
  entries : ∀ block, shape.hasBlock block = true →
    (Schedule.calleeEntries other discovery block).eraseDups =
      (Schedule.calleeEntries shape discovery block).eraseDups

/-- Only the finitely many blocks there are have to be compared. -/
instance (shape other : Topology) (discovery : Option Discovery) :
    Decidable (shape.SameButRepeats other discovery) :=
  decidable_of_iff (other.blockCount = shape.blockCount ∧ ∀ i < shape.blockCount,
      (other.successors ⟨i⟩).eraseDups = (shape.successors ⟨i⟩).eraseDups ∧
        (Schedule.calleeEntries other discovery ⟨i⟩).eraseDups =
          (Schedule.calleeEntries shape discovery ⟨i⟩).eraseDups)
    ⟨fun ⟨count, checked⟩ =>
        ⟨count, fun block known => (checked block.index (of_decide_eq_true known)).1,
          fun block known => (checked block.index (of_decide_eq_true known)).2⟩,
      fun alike => ⟨alike.count, fun i bound =>
        ⟨alike.successors ⟨i⟩ (decide_eq_true bound), alike.entries ⟨i⟩ (decide_eq_true bound)⟩⟩⟩

namespace Topology.SameButRepeats

variable {shape other : Topology} {discovery : Option Discovery}

theorem hasBlock (alike : shape.SameButRepeats other discovery) (block : BlockId) :
    other.hasBlock block = shape.hasBlock block := by
  rw [Topology.hasBlock, Topology.hasBlock, alike.count]

theorem mem_successors (alike : shape.SameButRepeats other discovery) {block : BlockId}
    (known : shape.hasBlock block = true) (next : BlockId) :
    next ∈ other.successors block ↔ next ∈ shape.successors block := by
  rw [← List.mem_eraseDups, alike.successors block known, List.mem_eraseDups]

theorem mem_entries (alike : shape.SameButRepeats other discovery) {block : BlockId}
    (known : shape.hasBlock block = true) (entry : BlockId) :
    entry ∈ Schedule.calleeEntries other discovery block ↔
      entry ∈ Schedule.calleeEntries shape discovery block := by
  rw [← List.mem_eraseDups, alike.entries block known, List.mem_eraseDups]

end Topology.SameButRepeats

/-! ## One recursion follows the other -/

/-- The jobs of two graphs number the same once `seen` is numbered. -/
inductive Job.Matches (shape other : Topology) (seen : List BlockId) : Job → Job → Prop
  | visit (block scope : BlockId) : Matches shape other seen (.visit block scope) (.visit block scope)
  | enter {subs subs' : List SubgraphId}
      (same : Distinct.addAll seen (subs.map shape.entryBlock) =
        Distinct.addAll seen (subs'.map other.entryBlock)) :
      Matches shape other seen (.enter subs) (.enter subs')
  | follow {blocks blocks' : List BlockId} (scope : BlockId)
      (same : Distinct.addAll seen blocks = Distinct.addAll seen blocks') :
      Matches shape other seen (.follow blocks scope) (.follow blocks' scope)

/-- The blocks a job begins with. -/
def Job.blocks (shape : Topology) : Job → List BlockId
  | visit block _ => [block]
  | enter subs => subs.map shape.entryBlock
  | follow blocks _ => blocks

namespace DepthFirst

variable {shape other : Topology} {discovery : Option Discovery} {job job' : Job}
  {account last : Account}

theorem blocks_subset (walked : DepthFirst shape discovery job account last) :
    ∀ block ∈ account.blocks, block ∈ last.blocks := by
  induction walked with
  | seen | entered | followed => exact fun _ member => member
  | fresh _ _ _ called flowed =>
      exact fun other member => flowed other (called other (List.mem_append_left _ member))
  | pass _ _ passed => exact passed
  | enter _ _ _ visited entered => exact fun other member => entered other (visited other member)
  | follow _ _ visited followed => exact fun other member => followed other (visited other member)

/-- A visit leaves its block numbered. -/
theorem block_mem {block scope : BlockId}
    (walked : DepthFirst shape discovery (.visit block scope) account last) :
    block ∈ last.blocks := by
  cases walked with
  | seen numbered => exact numbered
  | fresh new calls flow =>
      exact flow.blocks_subset _ (calls.blocks_subset _ (by simp [Account.number]))

/-- What is seen after a visit is what was seen before it and the block visited, at least. -/
theorem subset_after_visit {block scope : BlockId}
    (walked : DepthFirst shape discovery (.visit block scope) account last) :
    ∀ other ∈ account.blocks ++ [block], other ∈ last.blocks := by
  intro other member
  rcases List.mem_append.mp member with old | single
  · exact walked.blocks_subset other old
  · exact List.mem_singleton.mp single ▸ walked.block_mem

/-- Numbered blocks may be put in front of those to be followed. -/
theorem follow_append {before blocks : List BlockId} {scope : BlockId}
    (numbered : ∀ block ∈ before, block ∈ account.blocks)
    (walked : DepthFirst shape discovery (.follow blocks scope) account last) :
    DepthFirst shape discovery (.follow (before ++ blocks) scope) account last := by
  induction before with
  | nil => exact walked
  | cons block rest ih =>
      rw [List.forall_mem_cons] at numbered
      exact .follow (.seen numbered.1) (ih numbered.2)

/-- Procedures with numbered entries may be put in front of those to be entered. -/
theorem enter_append {before subs : List SubgraphId}
    (numbered : ∀ sub ∈ before, shape.entryBlock sub ∈ account.blocks)
    (walked : DepthFirst shape discovery (.enter subs) account last) :
    DepthFirst shape discovery (.enter (before ++ subs)) account last := by
  induction before with
  | nil => exact walked
  | cons sub rest ih =>
      rw [List.forall_mem_cons] at numbered
      exact .pass numbered.1 (ih numbered.2)

/-- **Where graphs differ in repeats only, the recursion of one follows that of the other.** -/
theorem of_matches (alike : shape.SameButRepeats other discovery) (closed : shape.Closed)
    (walked : DepthFirst shape discovery job account last)
    (inside : ∀ block ∈ job.blocks shape, shape.hasBlock block = true)
    (same : job.Matches shape other account.blocks job') :
    DepthFirst other discovery job' account last := by
  induction walked generalizing job' with
  | seen numbered =>
      cases same
      exact .seen numbered
  | @fresh block scope account called last new calls flow enters follows =>
      cases same
      have known : shape.hasBlock block = true := inside block List.mem_cons_self
      have entries := Distinct.addAll_congr (alike.entries block known).symm
      have successors := Distinct.addAll_congr (alike.successors block known).symm
      refine .fresh new (enters ?_ (.enter (entries _))) (follows ?_ (.follow scope (successors _)))
      · intro entry member
        obtain ⟨sub, called, rfl⟩ := List.mem_map.mp member
        exact closed.hasBlock_of_leads known (Or.inr ⟨sub, called, rfl⟩)
      · exact fun next follows => closed.successor block known next follows
  | @entered account =>
      cases same with
      | @enter _ subs' same =>
          have numbered := Distinct.mem_of_addAll_nil same
          have passed : DepthFirst other discovery (.enter (subs' ++ [])) account account :=
            enter_append (fun sub member => numbered _ (List.mem_map_of_mem member)) .entered
          rwa [List.append_nil] at passed
  | @pass sub subs account last numbered later passed =>
      cases same with
      | enter same =>
          rw [List.map_cons, Distinct.addAll_cons_of_mem numbered] at same
          exact passed (fun block member => inside block (List.mem_cons_of_mem _ member))
            (.enter same)
  | @enter sub subs account mid last new call later visited entered =>
      cases same with
      | @enter _ subs' same =>
          obtain ⟨before, after, split, numbered, rest⟩ := Distinct.addAll_cons_inv new same
          obtain ⟨passed, onward, rfl, rfl, there⟩ := List.map_eq_append_iff.mp split
          obtain ⟨sub', subs', rfl, entry, rfl⟩ := List.map_eq_cons_iff.mp there
          have known := List.forall_mem_cons.mp inside
          refine enter_append (fun sub member => numbered _ (List.mem_map_of_mem member)) ?_
          refine .enter (by rwa [entry]) ?_ (entered known.2 (.enter ?_))
          · rw [entry]
            exact visited (by simpa [Job.blocks] using known.1) (.visit _ _)
          · exact Distinct.addAll_mono rest call.subset_after_visit
  | @followed scope account =>
      cases same with
      | @follow _ blocks' _ same =>
          have numbered := Distinct.mem_of_addAll_nil same
          have passed : DepthFirst other discovery (.follow (blocks' ++ []) scope) account account :=
            follow_append numbered .followed
          rwa [List.append_nil] at passed
  | @follow next scope blocks account mid last call later visited followed =>
      have known := List.forall_mem_cons.mp inside
      cases same with
      | follow _ same =>
          cases call with
          | seen numbered =>
              rw [Distinct.addAll_cons_of_mem numbered] at same
              exact followed known.2 (.follow scope same)
          | fresh new calls flow =>
              obtain ⟨before, after, rfl, numbered, rest⟩ := Distinct.addAll_cons_inv new same
              refine follow_append numbered (.follow ?_ (followed known.2 (.follow scope ?_)))
              · exact visited (by simpa [Job.blocks] using known.1) (.visit _ _)
              · exact Distinct.addAll_mono rest (subset_after_visit (.fresh new calls flow))

end DepthFirst

/-! ## One walker numbers as the other -/

namespace Walker

/-- The walkers have numbered the same blocks in the same order and scopes, and have entered as
many scopes through calls. -/
structure Agrees (walker walker' : Walker) : Prop where
  discovery : walker'.discovery = walker.discovery
  numbered : walker'.numbered = walker.numbered
  subgraphsEntered : walker'.subgraphsEntered = walker.subgraphsEntered

variable {shape other : Topology} {walker walker' : Walker}

theorem Agrees.blocks (agrees : walker.Agrees walker') : walker'.blocks = walker.blocks :=
  congrArg (List.map Numbered.block) agrees.numbered

theorem Agrees.scopeOf (agrees : walker.Agrees walker') : walker'.scopeOf = walker.scopeOf := by
  funext block
  rw [Walker.scopeOf, agrees.numbered]
  rfl

/-- What is numbered can be read off the blocks and their scopes. -/
theorem numbered_eq_map (nodup : walker.blocks.Nodup) :
    walker.numbered = walker.blocks.map fun block => ⟨block, (walker.scopeOf block).getD block⟩ := by
  conv_lhs => rw [← List.map_id walker.numbered]
  rw [Walker.blocks, List.map_map]
  refine List.map_congr_left fun item member => ?_
  simp [scopeOf_of_mem nodup member]

/-- Two walkers agree when their accounts do. -/
theorem Agrees.of_account (discovery : walker'.discovery = walker.discovery)
    (nodup : walker.blocks.Nodup) (nodup' : walker'.blocks.Nodup) {stamp stamp' : BlockId → Nat}
    (same : walker'.account stamp' = walker.account stamp) : walker.Agrees walker' := by
  simp only [account, Account.mk.injEq] at same
  obtain ⟨blocks, -, scopes, entered⟩ := same
  exact ⟨discovery, by rw [numbered_eq_map nodup', numbered_eq_map nodup, blocks, scopes], entered⟩

/-- A walk takes the account of its walker where the recursion takes it. -/
theorem explore_depthFirst (closed : shape.Closed) (sound : walker.Sound shape) {entry : BlockId}
    (known : shape.hasBlock entry = true) (stamp : BlockId → Nat) :
    ∃ stamp', DepthFirst shape walker.discovery (.visit entry entry) (walker.account stamp)
      ((walker.explore shape entry).walker.account stamp') := by
  obtain ⟨mid, news, rest, -, visits⟩ :=
    (explore_finishes closed sound known).visits sound [⟨entry, entry, none⟩] [] rfl
  obtain rfl := rest.unique (.done _)
  have loop : DepthFirst _ _ (.follow [entry] entry) _ _ := (visits stamp).follow
  cases loop with
  | follow call later =>
      cases later
      exact ⟨_, call⟩

/-- **Walkers that agree go on to do so on graphs that differ in repeats only.** -/
theorem explore_agrees (same : shape.SameButRepeats other walker.discovery) (closed : shape.Closed)
    (closed' : other.Closed) (sound : walker.Sound shape) (sound' : walker'.Sound other)
    (agrees : walker.Agrees walker') {entry : BlockId} (known : shape.hasBlock entry = true) :
    (walker.explore shape entry).walker.Agrees (walker'.explore other entry).walker := by
  have known' : other.hasBlock entry = true := (same.hasBlock entry).trans known
  have finishes := explore_finishes closed sound known
  have finishes' := explore_finishes closed' sound' known'
  obtain ⟨stamp, walked⟩ := explore_depthFirst closed sound known fun _ => 0
  obtain ⟨stamp', walked'⟩ := explore_depthFirst closed' sound' known' fun _ => 0
  have account : walker'.account (fun _ => 0) = walker.account fun _ => 0 := by
    simp only [Walker.account, agrees.blocks, agrees.scopeOf, agrees.subgraphsEntered]
  rw [account, agrees.discovery] at walked'
  have followed := walked.of_matches same closed (by simpa [Job.blocks] using known) (.visit _ _)
  refine .of_account ?_ (finishes.sound sound).nodup (finishes'.sound sound').nodup
    (followed.unique walked')
  rw [finishes.discovery, finishes'.discovery, agrees.discovery]

section Runs

variable {G H : Type} [FlowGraph G] [FlowGraph H]

theorem runAll_agrees (same : shape.SameButRepeats other walker.discovery) (closed : shape.Closed)
    (closed' : other.Closed) (sound : walker.Sound shape) (sound' : walker'.Sound other)
    (agrees : walker.Agrees walker') {g : G} {h : H} (here : topology g = shape)
    (here' : topology h = other) {entries : List BlockId}
    (inside : ∀ entry ∈ entries, shape.hasBlock entry = true) :
    (walker.runAll g entries).1.Agrees (walker'.runAll h entries).1 := by
  induction entries generalizing walker walker' g h with
  | nil => exact agrees
  | cons entry later ih =>
      subst here here'
      obtain ⟨known, inside⟩ := List.forall_mem_cons.mp inside
      have known' := (same.hasBlock entry).trans known
      have finishes := explore_finishes closed sound known
      have finishes' := explore_finishes closed' sound' known'
      exact ih (finishes.discovery.symm ▸ same) (finishes.sound sound) (finishes'.sound sound')
        (explore_agrees same closed closed' sound sound' agrees known) (topology_run walker g entry)
        (topology_run walker' h entry) inside

/-- What runs from these entries have left behind on two graphs: the same blocks in the same
scopes with the same stamps. -/
structure SameNumbering (g : G) (h : H) (one : Walker × G) (two : Walker × H) : Prop where
  numbered : two.1.numbered = one.1.numbered
  subgraphsEntered : two.1.subgraphsEntered = one.1.subgraphsEntered
  stamped : ∀ block ∈ one.1.blocks, order two.2 block = order one.2 block
  /-- The other blocks have the stamps they had. -/
  kept : ∀ block, block ∉ one.1.blocks →
    order one.2 block = order g block ∧ order two.2 block = order h block
  /-- No further run meets a stray. -/
  calm : ∀ entry, (topology g).hasBlock entry = true →
    (one.1.run one.2 entry).walk.stray = none ∧ (two.1.run two.2 entry).walk.stray = none

theorem runAll_sameNumbering {mode : Mode} {g : G} {h : H}
    (same : (topology g).SameButRepeats (topology h) mode.discovery)
    (closed : (topology g).Closed) (closed' : (topology h).Closed) {entries : List BlockId}
    (inside : ∀ entry ∈ entries, (topology g).hasBlock entry = true) :
    SameNumbering g h ((fresh mode).runAll g entries) ((fresh mode).runAll h entries) := by
  have inside' : ∀ entry ∈ entries, (topology h).hasBlock entry = true :=
    fun entry member => (same.hasBlock entry).trans (inside entry member)
  have agrees := runAll_agrees same closed closed' (fresh_sound _ mode) (fresh_sound _ mode)
    ⟨rfl, rfl, rfl⟩ (rfl : topology g = _) (rfl : topology h = _) inside
  have one := (runAll_fresh closed mode inside).numbers
  have two := (runAll_fresh closed' mode inside').numbers
  constructor
  case numbered => exact agrees.numbered
  case subgraphsEntered => exact agrees.subgraphsEntered
  case stamped =>
    intro block member
    obtain ⟨i, found⟩ := List.getElem?_of_mem member
    rw [one.stamped i block found, two.stamped i block (agrees.blocks.symm ▸ found)]
  case kept =>
    exact fun block absent => ⟨one.kept block absent, two.kept block (agrees.blocks.symm ▸ absent)⟩
  case calm =>
    intro entry known
    rw [run_walk, run_walk, one.shape, two.shape]
    exact ⟨explore_stray closed _ known, explore_stray closed' _ ((same.hasBlock entry).trans known)⟩

end Runs

end Walker

/-! ## One worklist goes as the other -/

/-- Called on these blocks, in any order and any number of times, the two transfer functions make
the same reports. -/
def BlockTransfer.BehavesAs {G H σ τ : Type} (transfer : BlockTransfer G σ)
    (other : BlockTransfer H τ) (blocks : List BlockId) (g : G) (memory : σ) (h : H) (memory' : τ) :
    Prop :=
  ∀ visits g₁ memory₁, (∀ visit ∈ visits, visit.block ∈ blocks) →
    Calls transfer g memory visits g₁ memory₁ → ∃ h₁ memory₁', Calls other h memory' visits h₁ memory₁'

section Behaviour

variable {G H σ τ : Type} {transfer : BlockTransfer G σ} {other : BlockTransfer H τ}
  {blocks : List BlockId}

/-- Transfer functions that report the same from related states, and leave related states behind,
behave alike. -/
theorem BlockTransfer.BehavesAs.of_related (Related : G → σ → H → τ → Prop)
    (step : ∀ block ∈ blocks, ∀ g memory h memory', Related g memory h memory' →
      (other block h memory').changed = (transfer block g memory).changed ∧
        Related (transfer block g memory).graph (transfer block g memory).memory
          (other block h memory').graph (other block h memory').memory)
    {g : G} {memory : σ} {h : H} {memory' : τ} (related : Related g memory h memory') :
    transfer.BehavesAs other blocks g memory h memory' := by
  intro visits g₁ memory₁ inside calls
  induction calls generalizing h memory' with
  | nil => exact ⟨h, memory', .nil _ _⟩
  | @cons g memory block visits g₁ memory₁ _ ih =>
      obtain ⟨here, inside⟩ := List.forall_mem_cons.mp inside
      obtain ⟨report, after⟩ := step block here g memory h memory' related
      obtain ⟨h₁, memory₁', later⟩ := ih after inside
      rw [← report]
      exact ⟨h₁, memory₁', .cons later⟩

/-- Transfer functions that behave alike make the same report on the next block, and behave alike
from there on. -/
theorem BlockTransfer.BehavesAs.step {g : G} {memory : σ} {h : H} {memory' : τ}
    (behaves : transfer.BehavesAs other blocks g memory h memory') {block : BlockId}
    (here : block ∈ blocks) :
    (other block h memory').changed = (transfer block g memory).changed ∧
      transfer.BehavesAs other blocks (transfer block g memory).graph (transfer block g memory).memory
        (other block h memory').graph (other block h memory').memory := by
  constructor
  · have single : Calls transfer g memory [⟨block, (transfer block g memory).changed⟩] _ _ :=
      .cons (.nil _ _)
    obtain ⟨_, _, calls⟩ := behaves _ _ _ (by simpa using here) single
    generalize report : (transfer block g memory).changed = changed at calls
    cases calls
    rfl
  · intro visits g₁ memory₁ inside later
    obtain ⟨h₁, memory₁', calls⟩ := behaves _ g₁ memory₁ (by simpa using ⟨here, inside⟩) (.cons later)
    generalize report : (transfer block g memory).changed = changed at calls
    cases calls with
    | cons later' => exact ⟨h₁, memory₁', later'⟩

variable [FlowGraph G] [FlowGraph H]

theorem drain_behavesAs {queue : List BlockId} (inside : ∀ block ∈ queue, block ∈ blocks)
    (progress : Progress G σ) (progress' : Progress H τ)
    (behaves : transfer.BehavesAs other blocks progress.graph progress.memory progress'.graph
      progress'.memory) :
    (drain other queue progress').1 = (drain transfer queue progress).1 ∧
      transfer.BehavesAs other blocks (drain transfer queue progress).2.graph
        (drain transfer queue progress).2.memory (drain other queue progress').2.graph
        (drain other queue progress').2.memory := by
  induction queue generalizing progress progress' with
  | nil => exact ⟨rfl, behaves⟩
  | cons block rest ih =>
      obtain ⟨here, inside⟩ := List.forall_mem_cons.mp inside
      obtain ⟨report, after⟩ := behaves.step here
      obtain ⟨visits, last⟩ := ih inside (progress.visit transfer block).2
        (progress'.visit other block).2 after
      have visit : (progress'.visit other block).1 = (progress.visit transfer block).1 :=
        congrArg (Visit.mk block) report
      exact ⟨congrArg₂ List.cons visit visits, last⟩

/-- **Worklists go on alike** when the blocks of the schedule feed each other alike and the
transfer functions behave alike on them. -/
theorem rounds_behavesAs {feeds feeds' : BlockId → BlockId → Prop} [DecidableRel feeds]
    [DecidableRel feeds'] {schedule : List BlockId}
    (fed : ∀ block ∈ schedule, ∀ reader ∈ schedule, feeds' block reader ↔ feeds block reader)
    (limit : Nat) {queue : List BlockId} (inside : ∀ block ∈ queue, block ∈ schedule)
    (progress : Progress G σ) (progress' : Progress H τ)
    (behaves : transfer.BehavesAs other schedule progress.graph progress.memory progress'.graph
      progress'.memory) :
    (rounds other schedule feeds' limit queue progress').visits =
        (rounds transfer schedule feeds limit queue progress).visits ∧
      (rounds other schedule feeds' limit queue progress').converged =
        (rounds transfer schedule feeds limit queue progress).converged := by
  induction limit generalizing queue progress progress' with
  | zero => exact ⟨rfl, rfl⟩
  | succ limit ih =>
      obtain ⟨visits, after⟩ := drain_behavesAs inside progress.beginPass progress'.beginPass behaves
      have blocks := drain_blocks transfer queue progress.beginPass
      have next : schedule.filter (Disturbed feeds' (drain transfer queue progress.beginPass).1) =
          schedule.filter (Disturbed feeds (drain transfer queue progress.beginPass).1) := by
        refine List.filter_congr fun reader there => decide_eq_decide.mpr ?_
        refine exists_congr fun visit => and_congr_right fun made => ?_
        have here : visit.block ∈ schedule := inside _ (blocks ▸ List.mem_map_of_mem made)
        rw [fed _ here reader there]
      have listed : ∀ block ∈ schedule.filter
          (Disturbed feeds (drain transfer queue progress.beginPass).1), block ∈ schedule :=
        fun block member => List.mem_of_mem_filter member
      simp only [rounds, visits, next]
      split
      · obtain ⟨later, converged⟩ := ih listed _ _ after
        exact ⟨congrArg _ later, converged⟩
      · exact ⟨rfl, rfl⟩

end Behaviour

/-! ## Runs -/

namespace Analysis

variable {G H σ τ : Type} [FlowGraph G] [FlowGraph H]

/-- The two runs make the same visits in the same passes and come to the same end. -/
structure SameRun (one : Run G σ) (two : Run H τ) : Prop where
  ending : two.ending = one.ending
  calm : ∀ what, one.ending ≠ .stray what
  visits : two.visits = one.visits
  blocks : two.analysis.statistics.blocks = one.analysis.statistics.blocks
  passes : two.analysis.statistics.passes = one.analysis.statistics.passes
  blockVisits : two.analysis.statistics.blockVisits = one.analysis.statistics.blockVisits
  changedBlocks : two.analysis.statistics.changedBlocks = one.analysis.statistics.changedBlocks
  subgraphsEntered :
    two.analysis.statistics.subgraphsEntered = one.analysis.statistics.subgraphsEntered

variable {analysis : Analysis G σ} {other : Analysis H τ} {g : G} {h : H}

theorem numbering_sameButRepeats
    (same : (topology g).SameButRepeats (topology h) analysis.mode.discovery)
    (closed : (topology g).Closed) (closed' : (topology h).Closed)
    (entry : other.entry = analysis.entry) (mode : other.mode = analysis.mode)
    (known : (topology g).hasBlock analysis.entry = true) :
    (analysis.numbering g).walker.Agrees (other.numbering h).walker := by
  rw [numbering, numbering, entry, mode]
  exact Walker.explore_agrees same closed closed' (Walker.fresh_sound _ _) (Walker.fresh_sound _ _)
    ⟨rfl, rfl, rfl⟩ known

/-- The blocks of a run feed each other alike. -/
theorem feeds_sameButRepeats
    (same : (topology g).SameButRepeats (topology h) analysis.mode.discovery)
    (numbered : (analysis.numbering g).walker.Agrees (other.numbering h).walker) :
    ∀ block ∈ analysis.schedule g, ∀ reader ∈ analysis.schedule g,
      other.Feeds h block reader ↔ analysis.Feeds g block reader := by
  intro block here reader there
  have discovery : (analysis.numbering g).walker.discovery = analysis.mode.discovery :=
    Walker.explore_discovery ..
  have hasBlock := analysis.schedule_hasBlock g
  rw [Feeds, Feeds, Walker.Feeds, Walker.Feeds, numbered.discovery, numbered.scopeOf, discovery]
  simp only [same.mem_successors (hasBlock block here), same.mem_entries (hasBlock block here),
    same.mem_entries (hasBlock reader there)]

theorem runBounded_sameRun
    (same : (topology g).SameButRepeats (topology h) analysis.mode.discovery)
    (closed : (topology g).Closed) (closed' : (topology h).Closed)
    (entry : other.entry = analysis.entry) (mode : other.mode = analysis.mode)
    (known : (topology g).hasBlock analysis.entry = true)
    (behaves : analysis.transfer.BehavesAs other.transfer (analysis.schedule g)
      (analysis.stamped g) analysis.memory (other.stamped h) other.memory) (limit : Nat) :
    SameRun (analysis.runBounded limit g) (other.runBounded limit h) := by
  have numbered := numbering_sameButRepeats same closed closed' entry mode known
  have calm := analysis.numbering_calm closed known
  have calm' : (other.numbering h).stray = none := by
    refine other.numbering_calm closed' ?_
    rw [entry, same.hasBlock]
    exact known
  have schedule : other.schedule h = analysis.schedule g := numbered.blocks
  obtain ⟨visits, converged⟩ := rounds_behavesAs (feeds_sameButRepeats same numbered) limit
    (fun _ member => member) (analysis.start g) (other.start h) behaves
  have visited : (other.passes limit h).visits = (analysis.passes limit g).visits := by
    rw [passes, schedule]
    exact visits
  have ended : (other.passes limit h).converged = (analysis.passes limit g).converged := by
    rw [passes, schedule]
    exact converged
  have counted := analysis.runBounded_statistics limit calm
  have counted' := other.runBounded_statistics limit calm'
  rw [analysis.runBounded_of_calm limit calm, other.runBounded_of_calm limit calm'] at *
  constructor
  case ending => simp only [ended]
  case calm =>
    rw [← analysis.runBounded_of_calm limit calm]
    exact (analysis.numbering_calm_iff limit g).mp calm
  case visits => exact visited
  all_goals
    rw [counted, counted', tally, tally, visited]
    simp [Statistics.counting, sizes, numbered.numbered, numbered.subgraphsEntered]

end Analysis

/-- **Repeated edges and repeated callees do not matter.**  On two closed graphs that differ in
repeats only, runs of a walker from any entries number the same blocks in the same order and
scopes, stamp them the same and enter as many procedures; and runs of two analyses whose transfer
functions report alike make the same visits in the same passes, end alike and count alike. -/
theorem runs_sameButRepeats {G H : Type} [FlowGraph G] [FlowGraph H] (mode : Mode) (g : G) (h : H)
    (closed : (topology g).Closed) (closed' : (topology h).Closed)
    (same : (topology g).SameButRepeats (topology h) mode.discovery) :
    (∀ entries : List BlockId, (∀ entry ∈ entries, (topology g).hasBlock entry = true) →
      Walker.SameNumbering g h ((Walker.fresh mode).runAll g entries)
        ((Walker.fresh mode).runAll h entries)) ∧
      ∀ {σ τ : Type} (analysis : Analysis G σ) (other : Analysis H τ), analysis.mode = mode →
        other.mode = mode → other.entry = analysis.entry →
        (topology g).hasBlock analysis.entry = true →
        analysis.transfer.BehavesAs other.transfer (analysis.schedule g) (analysis.stamped g)
          analysis.memory (other.stamped h) other.memory →
        ∀ limit, Analysis.SameRun (analysis.runBounded limit g) (other.runBounded limit h) := by
  refine ⟨fun entries inside => Walker.runAll_sameNumbering same closed closed' inside, ?_⟩
  rintro σ τ analysis other rfl mode entry known behaves limit
  exact Analysis.runBounded_sameRun same closed closed' entry mode known behaves limit

/-! ## Every edge twice, and three subgraphs with one entry -/

/-- The graph `calledTwice` with its edges doubled.  Block 0 owns two subgraphs that begin at block
2, both caches list a caller twice, and they list node 4, which owns no subgraph. -/
def calledOften : Table Unit where
  rows := #[⟨[⟨0⟩, ⟨4⟩], [⟨1⟩, ⟨1⟩], some [⟨4⟩, ⟨0⟩, ⟨0⟩]⟩, ⟨[⟨1⟩], [⟨3⟩, ⟨3⟩], some [⟨1⟩, ⟨4⟩, ⟨1⟩]⟩,
    ⟨[⟨2⟩], [], none⟩, ⟨[⟨3⟩], [], none⟩]
  subgraphs := #[(⟨0⟩, ⟨2⟩), (⟨1⟩, ⟨2⟩), (⟨0⟩, ⟨2⟩)]
  states := #[(), (), (), (), ()]
  orders := #[4, 0, 7, 7]

/-- Six calls on each graph report alike, one block is scheduled once for all its mentions, and only
the nodes are not counted alike. -/
theorem calledOften_sameRun :
    let one := (calleeChanges 6).runBounded 9 calledTwice
    let two := (calleeChanges 6).runBounded 9 calledOften
    (topology calledTwice).Closed ∧ (topology calledOften).Closed ∧
      (topology calledTwice).SameButRepeats (topology calledOften) (some .cache) ∧
      Walker.SameNumbering calledTwice calledOften ((Walker.fresh .across).runAll calledTwice [⟨0⟩])
        ((Walker.fresh .across).runAll calledOften [⟨0⟩]) ∧
      Analysis.SameRun one two ∧
      two.visits.map (·.map (·.block.index)) = [[0, 2, 1, 3], [0, 2, 1], [0, 2, 1]] ∧
      one.analysis.statistics = ⟨4, 4, 3, 10, 10, 2, 1⟩ ∧
      two.analysis.statistics = ⟨4, 5, 3, 10, 13, 2, 1⟩ := by
  have closed : (topology calledTwice).Closed := by decide +kernel
  have closed' : (topology calledOften).Closed := by decide +kernel
  have same : (topology calledTwice).SameButRepeats (topology calledOften) (some .cache) := by
    decide +kernel
  obtain ⟨numbering, runs⟩ := runs_sameButRepeats .across calledTwice calledOften closed closed' same
  have behaves : (calleeChanges 6).transfer.BehavesAs (calleeChanges 6).transfer
      ((calleeChanges 6).schedule calledTwice) ((calleeChanges 6).stamped calledTwice) 0
      ((calleeChanges 6).stamped calledOften) 0 := by
    refine .of_related (fun _ memory _ memory' => memory' = memory) ?_ rfl
    rintro block - g memory h memory' rfl
    exact ⟨rfl, rfl⟩
  exact ⟨closed, closed', same, numbering [⟨0⟩] (by decide),
    runs (calleeChanges 6) (calleeChanges 6) rfl rfl rfl (by decide) behaves 9, by decide +kernel⟩

end BlockFlow
