/-
# BlockFlow.Proofs.Effort -- how much a run can do

Every pass but the last is made because the pass before it changed something, and every visit
after the first pass is made because the block changed or was fed by a block that did.  So a run
is paid for by the changes its transfer function reports:

* the passes are at most one more than the changes (`rounds_length_le`);
* the visits are at most the scheduled blocks and, for each change, the block that changed and
  its dependents (`rounds_visits_le`).

The charge for one pass is `length_disturbed_le`: what a pass disturbs is among the blocks that
changed in it and their dependents.  A transfer function that can report only so many changes
therefore comes to a converged run, whatever the graph (`runBounded_effort`).
-/
import BlockFlow.Proofs.EdgeLists
import BlockFlow.Proofs.Settling
import Mathlib.Algebra.GroupWithZero.Nat
import Mathlib.Data.List.Perm.Subperm

namespace BlockFlow

set_option autoImplicit false

open FlowGraph (topology)

/-! ## What changes pay for -/

/-- The visits that the changes among these visits pay for: each brings back its block and the
blocks of the schedule that it feeds. -/
def allowance (schedule : List BlockId) (feeds : BlockId → BlockId → Prop) [DecidableRel feeds]
    (visits : List Visit) : Nat :=
  ((visits.filter (·.changed)).map fun visit => 1 + (schedule.filter (feeds visit.block)).length).sum

section Charge

variable (schedule : List BlockId) (feeds : BlockId → BlockId → Prop) [DecidableRel feeds]

theorem allowance_append (visits others : List Visit) :
    allowance schedule feeds (visits ++ others) =
      allowance schedule feeds visits + allowance schedule feeds others := by
  simp [allowance]

/-- A pass disturbs no more blocks than its changes pay for. -/
theorem length_disturbed_le {schedule : List BlockId} (nodup : schedule.Nodup) (visits : List Visit) :
    (schedule.filter (Disturbed feeds visits)).length ≤ allowance schedule feeds visits := by
  have among : schedule.filter (Disturbed feeds visits) ⊆
      (visits.filter (·.changed)).flatMap fun visit =>
        visit.block :: schedule.filter (feeds visit.block) := by
    intro block member
    obtain ⟨listed, disturbed⟩ := List.mem_filter.mp member
    obtain ⟨visit, made, changed, cause⟩ := of_decide_eq_true disturbed
    refine List.mem_flatMap.mpr ⟨visit, List.mem_filter.mpr ⟨made, changed⟩, ?_⟩
    rcases cause with rfl | fed
    · exact List.mem_cons_self
    · exact List.mem_cons_of_mem _ (List.mem_filter.mpr ⟨listed, decide_eq_true fed⟩)
  have bound := (List.subperm_of_subset (nodup.filter _) among).length_le
  simpa [allowance, List.length_flatMap, Nat.add_comm] using bound

variable {G σ : Type} [FlowGraph G] (transfer : BlockTransfer G σ)

/-- A worklist makes at most one pass more than it meets changes. -/
theorem rounds_length_le (limit : Nat) (queue : List BlockId) (progress : Progress G σ) :
    (rounds transfer schedule feeds limit queue progress).visits.length ≤
      1 + (rounds transfer schedule feeds limit queue progress).visits.flatten.countP
        (·.changed) := by
  induction limit generalizing queue progress with
  | zero => simp [rounds]
  | succ limit ih =>
      simp only [rounds]
      split
      · rename_i changed
        have busy : 0 < (drain transfer queue progress.beginPass).1.countP (·.changed) := by
          simpa [List.countP_pos_iff] using changed
        have later := ih (schedule.filter (Disturbed feeds (drain transfer queue progress.beginPass).1))
          (drain transfer queue progress.beginPass).2
        simp only [List.length_cons, List.flatten_cons, List.countP_append]
        omega
      · simp

/-- A worklist visits its first queue and what the changes pay for. -/
theorem rounds_visits_le {schedule : List BlockId} (nodup : schedule.Nodup) (limit : Nat)
    (queue : List BlockId) (progress : Progress G σ) :
    (rounds transfer schedule feeds limit queue progress).visits.flatten.length ≤
      queue.length + allowance schedule feeds
        (rounds transfer schedule feeds limit queue progress).visits.flatten := by
  induction limit generalizing queue progress with
  | zero => simp [rounds]
  | succ limit ih =>
      have made : (drain transfer queue progress.beginPass).1.length = queue.length := by
        rw [← List.length_map (·.block), drain_blocks]
      simp only [rounds]
      split
      · -- the next queue is what this pass disturbed, so the changes of this pass pay for it
        have charge := length_disturbed_le feeds nodup (drain transfer queue progress.beginPass).1
        have later := ih (schedule.filter (Disturbed feeds (drain transfer queue progress.beginPass).1))
          (drain transfer queue progress.beginPass).2
        simp only [List.flatten_cons, List.length_append, allowance_append]
        omega
      · simp [made]

end Charge

/-! ## Transfer functions that tire -/

/-- However it is called from here on, the transfer function reports at most `most` changes. -/
def BlockTransfer.TiresAfter {G σ : Type} (transfer : BlockTransfer G σ) (g : G) (memory : σ)
    (most : Nat) : Prop :=
  ∀ visits g' memory', Calls transfer g memory visits g' memory' →
    visits.countP (·.changed) ≤ most

section Tires

variable {G σ : Type} [FlowGraph G] {transfer : BlockTransfer G σ}

/-- A worklist that may make more passes than there are changes left converges. -/
theorem rounds_converged_of_tires (schedule : List BlockId) (feeds : BlockId → BlockId → Prop)
    [DecidableRel feeds] (queue : List BlockId) (progress : Progress G σ) {most limit : Nat}
    (tires : transfer.TiresAfter progress.graph progress.memory most) (enough : most < limit) :
    (rounds transfer schedule feeds limit queue progress).converged = true := by
  have follows := rounds_followsWorklist transfer schedule feeds limit queue progress
  have changes := tires _ _ _ (rounds_calls transfer schedule feeds limit queue progress)
  by_contra going
  have passes := follows.length_le_changes going
  rw [follows.stopped going] at passes
  omega

end Tires

/-! ## Dependents as a schedule lists them -/

namespace Schedule

/-- Dependents are positions in the schedule. -/
theorem lt_of_mem_dependents {shape : Topology} {discovery : Option Discovery}
    {blocks : List BlockId} {item : Numbered} {i : Nat}
    (member : i ∈ dependents shape discovery blocks (callTable shape discovery blocks) item) :
    i < blocks.length := by
  have position : ∀ targets : List BlockId, i ∈ targets.filterMap blocks.idxOf? →
      i < blocks.length := by
    intro targets listed
    obtain ⟨block, -, found⟩ := List.mem_filterMap.mp listed
    exact (List.idxOf?_eq_some_iff.mp found).1
  simp only [dependents, List.mem_eraseDups, List.mem_append] at member
  rcases member with (next | called) | calls
  · exact position _ next
  · exact position _ called
  · simp only [callers, callTable, List.mem_filterMap, List.mem_flatMap] at calls
    obtain ⟨⟨entry, pos⟩, ⟨⟨caller, at_⟩, numbered, listed⟩, found⟩ := calls
    obtain ⟨target, -, same⟩ := List.mem_map.mp listed
    obtain ⟨rfl, rfl⟩ := Prod.mk.inj same
    simp only [Option.ite_none_right_eq_some, Option.some.injEq] at found
    obtain ⟨-, rfl⟩ := found
    exact (List.getElem?_eq_some_iff.mp (List.mk_mem_zipIdx_iff_getElem?.mp numbered)).1

/-- A slot lists as many dependents as there are blocks that its block feeds. -/
theorem length_dependents (shape : Topology) {walker : Walker} (nodup : walker.blocks.Nodup)
    {slot : Slot} (member : slot ∈ ofWalker shape walker) :
    slot.dependents.length = (walker.blocks.filter (walker.Feeds shape slot.block)).length := by
  have lists := ofWalker_listsDependents shape nodup slot member
  have inside : ∀ i ∈ slot.dependents, i < walker.blocks.length := by
    obtain ⟨item, -, rfl⟩ := List.mem_map.mp member
    exact fun i => lt_of_mem_dependents
  have once : slot.dependents.Nodup := by
    obtain ⟨item, -, rfl⟩ := List.mem_map.mp member
    show (List.eraseDups _).Nodup
    rw [← Distinct.addAll_nil]
    exact Distinct.nodup_addAll _ List.nodup_nil
  -- the slot at a position holds the block at that position
  have there : ∀ (i : Nat) (block : BlockId), walker.blocks[i]? = some block →
      (i ∈ slot.dependents ↔ walker.Feeds shape slot.block block) := by
    intro i block found
    rw [← ofWalker_blocks shape walker, List.getElem?_map, Option.map_eq_some_iff] at found
    obtain ⟨other, here, rfl⟩ := found
    exact lists i other here
  have perm : (slot.dependents.map (walker.blocks[·]?)).Perm
      ((walker.blocks.filter (walker.Feeds shape slot.block)).map some) := by
    refine (List.perm_ext_iff_of_nodup ?_ ?_).mpr fun found => ?_
    · refine once.map_on fun i listed j _ same => ?_
      exact (List.getElem?_inj (inside i listed) nodup).mp same
    · exact (nodup.filter _).map (Option.some_injective _)
    · simp only [List.mem_map, List.mem_filter, decide_eq_true_eq]
      constructor
      · rintro ⟨i, listed, rfl⟩
        have here := List.getElem?_eq_getElem (inside i listed)
        exact ⟨_, ⟨List.getElem_mem _, (there i _ here).mp listed⟩, here.symm⟩
      · rintro ⟨block, ⟨listed, fed⟩, rfl⟩
        obtain ⟨i, here⟩ := List.getElem?_of_mem listed
        exact ⟨i, (there i block here).mpr fed, here⟩
  simpa using perm.length_eq

end Schedule

/-! ## Runs -/

namespace Analysis

variable {G σ : Type} [FlowGraph G]

/-- The scheduled blocks that depend on `block`: those it feeds. -/
def dependents (analysis : Analysis G σ) (g : G) (block : BlockId) : List BlockId :=
  (analysis.schedule g).filter (analysis.Feeds g block)

/-- **A run does no more than the changes reported to it call for.**  Whatever the transfer
function answers, the passes are at most one more than the changes, and the visits at most the
scheduled blocks and, for each change, one and the dependents of the block that changed.  So
where only so many changes can be reported, a run with room for one pass more converges, and the
run without a limit of its own answers. -/
theorem runBounded_effort (analysis : Analysis G σ) (limit : Nat) (g : G) :
    let run := analysis.runBounded limit g
    ((topology g).Closed → (topology g).hasBlock analysis.entry = true →
        ∀ what, run.ending ≠ .stray what) ∧
      ((∀ what, run.ending ≠ .stray what) →
        run.visits.length ≤ 1 + run.visits.flatten.countP (·.changed) ∧
        run.visits.flatten.length ≤ (analysis.schedule g).length +
          ((run.visits.flatten.filter (·.changed)).map fun visit =>
            1 + (analysis.dependents g visit.block).length).sum ∧
        (∀ slot ∈ Schedule.ofWalker (topology g) (analysis.numbering g).walker,
          slot.dependents.length = (analysis.dependents g slot.block).length) ∧
        ∀ most, analysis.transfer.TiresAfter (analysis.stamped g) analysis.memory most →
          most + 1 ≤ limit → run.ending = .converged ∧ analysis.run limit g = some run) := by
  dsimp only
  rw [← analysis.numbering_calm_iff limit g]
  refine ⟨analysis.numbering_calm, fun calm => ?_⟩
  have nodup := analysis.schedule_nodup g
  have worked := analysis.runBounded_of_calm limit calm
  refine ⟨?_, ?_, ?_, ?_⟩
  · rw [worked]
    exact rounds_length_le (analysis.schedule g) (analysis.Feeds g) analysis.transfer limit _ _
  · rw [worked]
    exact rounds_visits_le (analysis.Feeds g) analysis.transfer nodup limit _ _
  · exact fun slot member => Schedule.length_dependents (topology g) nodup member
  · intro most tires enough
    have converged : (analysis.passes limit g).converged = true :=
      rounds_converged_of_tires _ _ (analysis.schedule g) (analysis.start g) tires enough
    have ending : (analysis.runBounded limit g).ending = .converged := by
      rw [worked, if_pos converged]
    refine ⟨ending, ?_⟩
    rw [run, ending]
    rfl

end Analysis

/-! ## A procedure that changes six times at most -/

theorem calleeChanges_tires (calls : Nat) (g : Table Unit) :
    (calleeChanges calls).transfer.TiresAfter g (calleeChanges calls).memory calls := by
  -- each call takes one of the calls that may report a change, whether it does or not
  have left : ∀ {g g' : Table Unit} {memory memory' : Nat} {visits : List Visit},
      Calls (calleeChanges calls).transfer g memory visits g' memory' →
        visits.countP (·.changed) ≤ calls - memory := by
    intro g g' memory memory' visits made
    induction made with
    | nil => simp
    | @cons g memory block visits g' memory' _ ih =>
        simp only [calleeChanges] at ih
        by_cases changes : block = ⟨2⟩ ∧ memory < calls
        · simp [calleeChanges, changes]
          omega
        · have quiet : (decide (block = ⟨2⟩) && decide (memory < calls)) = false := by simpa using changes
          simp [calleeChanges, quiet]
          omega
  intro visits g' memory' made
  exact left made

/-- Two changes of the procedure pay for two more passes over it and its two callers. -/
theorem calledTwice_effort :
    let run := (calleeChanges 6).runBounded 9 calledTwice
    (topology calledTwice).Closed ∧ (topology calledTwice).hasBlock (calleeChanges 6).entry = true ∧
      run.ending = .converged ∧ (calleeChanges 6).run 9 calledTwice = some run ∧
      run.visits.length = 3 ∧ run.visits.flatten.countP (·.changed) = 2 ∧
      run.visits.flatten.length = 4 + ((1 + 2) + (1 + 2)) ∧
      (calleeChanges 6).dependents calledTwice ⟨2⟩ = [⟨0⟩, ⟨1⟩] := by
  have closed : (topology calledTwice).Closed := by decide +kernel
  have known : (topology calledTwice).hasBlock (calleeChanges 6).entry = true := by decide
  obtain ⟨calm, bounds⟩ := (calleeChanges 6).runBounded_effort 9 calledTwice
  obtain ⟨-, -, -, tired⟩ := bounds (calm closed known)
  obtain ⟨converged, answered⟩ := tired 6 (calleeChanges_tires 6 _) (by decide)
  exact ⟨closed, known, converged, answered, by decide +kernel⟩

end BlockFlow
