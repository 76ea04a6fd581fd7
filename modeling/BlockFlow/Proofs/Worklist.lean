/-
# BlockFlow.Proofs.Worklist -- marked sweeps are a worklist

The engine keeps marks by position and sweeps over all slots.  The worklist below keeps
blocks: a queue is drained from the front, and when it is empty the next queue holds, in
schedule order, the blocks that are `Disturbed`, that is, those that changed or are fed
by a block that did (`Walker.Feeds`).  There are no positions, tables or marks in it.

* `solve_eq_rounds`: the engine's passes are the rounds of this worklist, call by call;
* `Schedule.ofWalker_listsDependents`: the tables of a schedule agree with `Feeds`.
-/
import BlockFlow.Analysis
import BlockFlow.Proofs.Numbering

namespace BlockFlow

set_option autoImplicit false

open Schedule (calleeEntries callTable callers)

/-! ## Which blocks feed which -/

/-- A change in `block` may matter to `reader`: control passes from `block` to `reader`, or
`block` calls the procedure entered at `reader`, or `reader` calls the procedure that
`block` was numbered in. -/
def Walker.Feeds (walker : Walker) (shape : Topology) (block reader : BlockId) : Prop :=
  reader ∈ shape.successors block ∨ reader ∈ calleeEntries shape walker.discovery block ∨
    ∃ scope ∈ walker.scopeOf block, scope ∈ calleeEntries shape walker.discovery reader

instance (walker : Walker) (shape : Topology) : DecidableRel (walker.Feeds shape) :=
  fun block _ => inferInstanceAs (Decidable (_ ∨ _ ∨ ∃ scope ∈ walker.scopeOf block, _))

/-- After these visits `block` has to be visited again. -/
def Disturbed (feeds : BlockId → BlockId → Prop) (visits : List Visit) (block : BlockId) : Prop :=
  ∃ visit ∈ visits, visit.changed = true ∧ (visit.block = block ∨ feeds visit.block block)

instance (feeds : BlockId → BlockId → Prop) [DecidableRel feeds] (visits : List Visit) :
    DecidablePred (Disturbed feeds visits) :=
  fun _ => inferInstanceAs (Decidable (∃ visit ∈ visits, _))

theorem disturbed_cons {feeds : BlockId → BlockId → Prop} {visit : Visit} {visits : List Visit}
    {block : BlockId} :
    Disturbed feeds (visit :: visits) block ↔
      (visit.changed = true ∧ (visit.block = block ∨ feeds visit.block block)) ∨
        Disturbed feeds visits block := by
  simp [Disturbed]

/-! ## The worklist -/

section Rounds

variable {G σ : Type} [FlowGraph G]

/-- Visit the blocks of a queue from the front until it is empty. -/
def drain (transfer : BlockTransfer G σ) :
    List BlockId → Progress G σ → List Visit × Progress G σ
  | [], progress => ([], progress)
  | block :: rest, progress =>
    let first := progress.visit transfer block
    let others := drain transfer rest first.2
    (first.1 :: others.1, others.2)

/-- Drain a queue and fill it again with what was disturbed, until a round changes nothing,
at most `limit` times. -/
def rounds (transfer : BlockTransfer G σ) (schedule : List BlockId)
    (feeds : BlockId → BlockId → Prop) [DecidableRel feeds] :
    (limit : Nat) → (queue : List BlockId) → Progress G σ → Passes G σ
  | 0, _, progress => ⟨false, [], progress⟩
  | limit + 1, queue, progress =>
    let round := drain transfer queue progress.beginPass
    if round.1.any (·.changed) then
      let later := rounds transfer schedule feeds limit
        (schedule.filter (Disturbed feeds round.1)) round.2
      { later with visits := round.1 :: later.visits }
    else
      ⟨true, [round.1], round.2⟩

/-- Draining a queue visits exactly its blocks, in order. -/
theorem drain_blocks (transfer : BlockTransfer G σ) (queue : List BlockId)
    (progress : Progress G σ) :
    (drain transfer queue progress).1.map (·.block) = queue := by
  induction queue generalizing progress with
  | nil => rfl
  | cons block rest ih =>
      simp only [drain, List.map_cons, ih]
      rfl

end Rounds

/-! ## Marks and queues -/

theorem exists_getElem?_cons {α : Type} {x : α} {xs : List α} {P : Nat → α → Prop} :
    (∃ i y, (x :: xs)[i]? = some y ∧ P i y) ↔ P 0 x ∨ ∃ i y, xs[i]? = some y ∧ P (i + 1) y := by
  constructor
  · rintro ⟨_ | i, y, found, holds⟩
    · simp only [List.getElem?_cons_zero, Option.some.injEq] at found
      exact Or.inl (found ▸ holds)
    · exact Or.inr ⟨i, y, by simpa using found, holds⟩
  · rintro (holds | ⟨i, y, found, holds⟩)
    · exact ⟨0, x, rfl, holds⟩
    · exact ⟨i + 1, y, by simpa using found, holds⟩

/-- The blocks a sweep from position `pos` on visits. -/
def queueOf (marked : Marks) : (pos : Nat) → List Slot → List BlockId
  | _, [] => []
  | pos, slot :: rest =>
    if marked.has pos then slot.block :: queueOf marked (pos + 1) rest
    else queueOf marked (pos + 1) rest

theorem mem_of_mem_queueOf {marked : Marks} {pos : Nat} {slots : List Slot} {block : BlockId}
    (member : block ∈ queueOf marked pos slots) : block ∈ slots.map (·.block) := by
  induction slots generalizing pos with
  | nil => simp [queueOf] at member
  | cons slot rest ih =>
      simp only [queueOf] at member
      split at member
      · rcases List.mem_cons.mp member with rfl | later
        · exact List.mem_cons_self
        · exact List.mem_cons_of_mem _ (ih later)
      · exact List.mem_cons_of_mem _ (ih member)

/-- When the marks stand for a property of blocks, the queue is what has the property. -/
theorem queueOf_eq_filter {marked : Marks} {P : BlockId → Prop} [DecidablePred P] {pos : Nat}
    {slots : List Slot}
    (means : ∀ i slot, slots[i]? = some slot → (marked.has (pos + i) = true ↔ P slot.block)) :
    queueOf marked pos slots = (slots.map (·.block)).filter P := by
  induction slots generalizing pos with
  | nil => rfl
  | cons slot rest ih =>
      have head : marked.has pos = true ↔ P slot.block := means 0 slot rfl
      have tail : queueOf marked (pos + 1) rest = (rest.map (·.block)).filter P := by
        refine ih fun i later found => ?_
        rw [Nat.add_assoc, Nat.add_comm 1]
        exact means (i + 1) later found
      by_cases here : P slot.block
      · simp [queueOf, head.mpr here, here, tail]
      · have unmarked : marked.has pos = false := by simpa [here] using head
        simp [queueOf, unmarked, here, tail]

theorem has_blank (size pos : Nat) : (Marks.blank size).has pos = false := by
  simp only [Marks.has, Marks.blank, Array.getElem?_replicate]
  split <;> rfl

theorem has_full {size pos : Nat} (inside : pos < size) : (Marks.full size).has pos = true := by
  simp [Marks.has, Marks.full, inside]

theorem queueOf_full (slots : List Slot) :
    queueOf (Marks.full slots.length) 0 slots = slots.map (·.block) := by
  have all : queueOf (Marks.full slots.length) 0 slots =
      (slots.map (·.block)).filter fun _ => True := by
    refine queueOf_eq_filter fun i slot found => ?_
    have inside : i < slots.length := (List.getElem?_eq_some_iff.mp found).1
    simp [has_full inside]
  simpa using all

section Sweep

variable {G σ : Type} [FlowGraph G] (transfer : BlockTransfer G σ) (marked : Marks)

theorem sweep_eq_drain (pos : Nat) (slots : List Slot) (next : Marks) (progress : Progress G σ) :
    ((sweep transfer marked pos slots next progress).visits,
        (sweep transfer marked pos slots next progress).progress) =
      drain transfer (queueOf marked pos slots) progress := by
  induction slots generalizing pos next progress with
  | nil => rfl
  | cons slot rest ih =>
      simp only [sweep, queueOf]
      split
      · exact congrArg (fun others : List Visit × Progress G σ =>
          ((progress.visit transfer slot.block).1 :: others.1, others.2)) (ih ..)
      · exact ih ..

theorem mem_slots_of_mem_sweep {pos : Nat} {slots : List Slot} {next : Marks}
    {progress : Progress G σ} {visit : Visit}
    (member : visit ∈ (sweep transfer marked pos slots next progress).visits) :
    visit.block ∈ slots.map (·.block) := by
  have same := congrArg Prod.fst (sweep_eq_drain transfer marked pos slots next progress)
  have blocks := drain_blocks transfer (queueOf marked pos slots) progress
  simp only at same
  rw [← same] at blocks
  exact mem_of_mem_queueOf (blocks ▸ List.mem_map_of_mem member)

theorem Marks.has_addAll_if {marks : Marks} {changed : Bool} {positions : List Nat} {target : Nat} :
    (if changed = true then marks.addAll positions else marks).has target = true ↔
      marks.has target = true ∨ (target < marks.size ∧ changed = true ∧ target ∈ positions) := by
  cases changed with
  | false => simp
  | true => simp [Marks.has_addAll]

theorem Marks.size_addAll_if {marks : Marks} {changed : Bool} {positions : List Nat} :
    (if changed = true then marks.addAll positions else marks).size = marks.size := by
  split
  · exact size_addAll ..
  · rfl

/-- A sweep marks the slots that changed and their dependents, and nothing else. -/
theorem sweep_marks_has (pos : Nat) (slots : List Slot) (next : Marks) (progress : Progress G σ)
    (nodup : (slots.map (·.block)).Nodup) (target : Nat) :
    (sweep transfer marked pos slots next progress).marks.has target = true ↔
      next.has target = true ∨ (target < next.size ∧ ∃ i slot, slots[i]? = some slot ∧
        (⟨slot.block, true⟩ ∈ (sweep transfer marked pos slots next progress).visits ∧
          (target = pos + i ∨ target ∈ slot.dependents))) := by
  induction slots generalizing pos next progress with
  | nil => simp [sweep]
  | cons slot rest ih =>
      obtain ⟨absent, distinct⟩ := List.nodup_cons.mp nodup
      -- no later visit is a visit of this slot, since no block is scheduled twice
      have notLater : ∀ (marks : Marks) (later : Progress G σ),
          ⟨slot.block, true⟩ ∉ (sweep transfer marked (pos + 1) rest marks later).visits :=
        fun _ _ member => absent (mem_slots_of_mem_sweep transfer marked member)
      have shift : ∀ i, pos + 1 + i = pos + (i + 1) := fun i => by omega
      simp only [sweep]
      split
      · let visit := (progress.visit transfer slot.block).1
        have here : ∀ (visits : List Visit), ⟨slot.block, true⟩ ∉ visits →
            (⟨slot.block, true⟩ ∈ visit :: visits ↔ visit.changed = true) := by
          intro visits other
          simp only [List.mem_cons, other, or_false, Visit.mk.injEq, visit, Progress.visit,
            true_and]
          exact eq_comm
        have there : ∀ (visits : List Visit) (i : Nat) (later : Slot), rest[i]? = some later →
            (⟨later.block, true⟩ ∈ visit :: visits ↔ ⟨later.block, true⟩ ∈ visits) := by
          intro visits i later found
          have apart : later.block ≠ slot.block := by
            intro same
            exact absent (List.mem_map.mpr ⟨later, List.mem_of_getElem? found, same⟩)
          simp [visit, Progress.visit, apart]
        rw [ih _ _ _ distinct, Marks.has_addAll_if, Marks.size_addAll_if, exists_getElem?_cons,
          here _ (notLater _ _)]
        have rest_iff := fun visits => exists_congr fun i => exists_congr fun later : Slot =>
          and_congr_right (b := _ ∧ (target = pos + (i + 1) ∨ target ∈ later.dependents))
            fun found => and_congr_left' (there visits i later found)
        rw [rest_iff]
        simp only [visit, shift, List.mem_cons, Nat.add_zero]
        rw [or_assoc, ← and_or_left]
      · rw [ih _ _ _ distinct, exists_getElem?_cons]
        simp only [shift, notLater, false_and, false_or]

end Sweep

/-! ## The passes of the engine -/

/-- The dependents of each slot are the positions of the blocks it feeds. -/
def ListsDependents (slots : List Slot) (feeds : BlockId → BlockId → Prop) : Prop :=
  ∀ slot ∈ slots, ∀ (i : Nat) (other : Slot), slots[i]? = some other →
    (i ∈ slot.dependents ↔ feeds slot.block other.block)

section Solve

variable {G σ : Type} [FlowGraph G] (transfer : BlockTransfer G σ)
variable {feeds : BlockId → BlockId → Prop} [DecidableRel feeds] {slots : List Slot}

/-- The marks a pass leaves are the next queue of the worklist. -/
theorem queueOf_sweep (nodup : (slots.map (·.block)).Nodup)
    (lists : ListsDependents slots feeds) (marked : Marks) (progress : Progress G σ) :
    queueOf (sweep transfer marked 0 slots (Marks.blank slots.length) progress).marks 0 slots =
      (slots.map (·.block)).filter (Disturbed feeds
        (sweep transfer marked 0 slots (Marks.blank slots.length) progress).visits) := by
  refine queueOf_eq_filter fun i slot found => ?_
  have inside : i < (Marks.blank slots.length).size := by
    have := (List.getElem?_eq_some_iff.mp found).1
    simpa [Marks.blank] using this
  rw [Nat.zero_add, sweep_marks_has transfer marked _ _ _ _ nodup]
  simp only [has_blank, Bool.false_eq_true, false_or, inside, true_and, Nat.zero_add]
  constructor
  · rintro ⟨j, other, there, visited, same | depends⟩
    · subst same
      rw [found, Option.some.injEq] at there
      exact ⟨_, visited, rfl, Or.inl (by rw [there])⟩
    · exact ⟨_, visited, rfl,
        Or.inr ((lists other (List.mem_of_getElem? there) i slot found).mp depends)⟩
  · rintro ⟨⟨block, changed⟩, visited, rfl, cause⟩
    obtain ⟨other, member, rfl⟩ :=
      List.mem_map.mp (mem_slots_of_mem_sweep transfer marked visited)
    obtain ⟨j, there⟩ := List.getElem?_of_mem member
    refine ⟨j, other, there, visited, ?_⟩
    rcases cause with same | fed
    · have bound : i < (slots.map (·.block)).length := by
        simpa using (List.getElem?_eq_some_iff.mp found).1
      refine Or.inl ((List.getElem?_inj bound nodup).mp ?_)
      simpa [there, found] using same.symm
    · exact Or.inr ((lists other member i slot found).mpr fed)

/-- **Sweeping over marked slots is draining a worklist.** -/
theorem solve_eq_rounds (nodup : (slots.map (·.block)).Nodup)
    (lists : ListsDependents slots feeds) (limit : Nat) (marked : Marks) (progress : Progress G σ) :
    solve transfer slots limit marked progress =
      rounds transfer (slots.map (·.block)) feeds limit (queueOf marked 0 slots) progress := by
  induction limit generalizing marked progress with
  | zero => rfl
  | succ limit ih =>
      have same := sweep_eq_drain transfer marked 0 slots (Marks.blank slots.length)
        progress.beginPass
      have queue := queueOf_sweep transfer nodup lists marked progress.beginPass
      simp only [solve, rounds, ← same]
      generalize sweep transfer marked 0 slots (Marks.blank slots.length) progress.beginPass = pass
        at queue ⊢
      cases changed : pass.changed with
      | true =>
          have some_changed : pass.visits.any (·.changed) = true := changed
          simp only [some_changed, if_true, ih, queue]
      | false =>
          have none_changed : pass.visits.any (·.changed) = false := changed
          simp only [none_changed, Bool.false_eq_true, if_false]

end Solve

/-! ## The slots of a schedule -/

namespace Schedule

@[simp] theorem ofWalker_blocks (shape : Topology) (walker : Walker) :
    (ofWalker shape walker).map (·.block) = walker.blocks := by
  simp [ofWalker, Walker.blocks]

theorem idxOf?_eq_some_of_nodup {blocks : List BlockId} (nodup : blocks.Nodup) {block : BlockId}
    {i : Nat} : blocks.idxOf? block = some i ↔ blocks[i]? = some block := by
  rw [List.idxOf?_eq_some_iff]
  constructor
  · rintro ⟨bound, found, -⟩
    rw [List.getElem?_eq_getElem bound, found]
  · intro found
    obtain ⟨bound, here⟩ := List.getElem?_eq_some_iff.mp found
    refine ⟨bound, here, fun j earlier same => ?_⟩
    have := (List.Nodup.getElem_inj_iff nodup).mp (same.trans here.symm)
    omega

theorem mem_positions {blocks targets : List BlockId} (nodup : blocks.Nodup) {i : Nat}
    {block : BlockId} (there : blocks[i]? = some block) :
    i ∈ targets.filterMap blocks.idxOf? ↔ block ∈ targets := by
  simp only [List.mem_filterMap, idxOf?_eq_some_of_nodup nodup, there, Option.some.injEq]
  constructor
  · rintro ⟨target, member, rfl⟩
    exact member
  · exact fun member => ⟨block, member, rfl⟩

theorem mem_callers {shape : Topology} {discovery : Option Discovery} {blocks : List BlockId}
    {scope block : BlockId} {i : Nat} (there : blocks[i]? = some block) :
    i ∈ callers (callTable shape discovery blocks) scope ↔
      scope ∈ calleeEntries shape discovery block := by
  simp only [callers, callTable, List.mem_filterMap, List.mem_flatMap]
  constructor
  · rintro ⟨⟨entry, pos⟩, ⟨⟨caller, at_⟩, member, listed⟩, found⟩
    obtain ⟨target, called, same⟩ := List.mem_map.mp listed
    obtain ⟨rfl, rfl⟩ := Prod.mk.inj same
    simp only [Option.ite_none_right_eq_some, Option.some.injEq] at found
    obtain ⟨rfl, rfl⟩ := found
    rw [List.mk_mem_zipIdx_iff_getElem?, there, Option.some.injEq] at member
    exact member ▸ called
  · intro called
    exact ⟨(scope, i), ⟨(block, i), List.mk_mem_zipIdx_iff_getElem?.mpr there,
      List.mem_map_of_mem called⟩, by simp⟩

/-- The dependents of a scheduled block are the positions of the blocks it feeds. -/
theorem ofWalker_listsDependents (shape : Topology) {walker : Walker}
    (nodup : walker.blocks.Nodup) :
    ListsDependents (ofWalker shape walker) (walker.Feeds shape) := by
  intro slot member i other found
  obtain ⟨item, numbered, rfl⟩ := List.mem_map.mp member
  have there : walker.blocks[i]? = some other.block := by
    rw [← ofWalker_blocks shape walker, List.getElem?_map, found, Option.map_some]
  simp only [dependents, List.mem_eraseDups, List.mem_append, mem_positions nodup there,
    mem_callers there, Walker.Feeds, Walker.scopeOf_of_mem nodup numbered, or_assoc]
  simp

end Schedule

end BlockFlow
