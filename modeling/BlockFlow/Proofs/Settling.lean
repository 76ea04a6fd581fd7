/-
# BlockFlow.Proofs.Settling -- what a run has settled when it converges

A property of blocks that a quiet visit of the block establishes, and that a visit of
another block only spoils by disturbing it, holds of every scheduled block when a run
converges (`Settles`, `rounds_settle`): a block that is not queued has not been disturbed
since its last quiet visit.  The property may speak of the visits made so far, for
instance of what has changed since the block was last visited (`ChangedSince`).

* A run on which no visit changes anything takes one pass (`rounds_rest`);
* every pass that does not end a run has a visit that changes something, so a measure
  that such visits raise bounds the passes (`rounds_converged_of_measure`).
-/
import BlockFlow.Proofs.Runs

namespace BlockFlow

set_option autoImplicit false

/-! ## Changes since a visit -/

/-- `source` has reported a change since the last of these visits to `reader`. -/
def ChangedSince (visits : List Visit) (source reader : BlockId) : Prop :=
  ⟨source, true⟩ ∈ visits.reverse.takeWhile fun visit => visit.block ≠ reader

instance (visits : List Visit) (source reader : BlockId) :
    Decidable (ChangedSince visits source reader) :=
  inferInstanceAs (Decidable (_ ∈ _))

theorem changedSince_concat {visits : List Visit} {visit : Visit} {source reader : BlockId} :
    ChangedSince (visits ++ [visit]) source reader ↔
      visit.block ≠ reader ∧ (visit = ⟨source, true⟩ ∨ ChangedSince visits source reader) := by
  unfold ChangedSince
  rw [List.reverse_append, List.reverse_singleton, List.singleton_append, List.takeWhile_cons]
  by_cases same : visit.block = reader
  · simp [same]
  · simp [same, eq_comm]

/-! ## Settling -/

section Settles

variable {G σ : Type} [FlowGraph G]

/-- `Fine` is settled by quiet visits and spoilt by disturbance only, as long as the graph
keeps `Inv`. -/
structure Settles (transfer : BlockTransfer G σ) (feeds : BlockId → BlockId → Prop)
    (schedule : List BlockId) (Inv : G → Prop) (Fine : BlockId → List Visit → G → Prop) :
    Prop where
  kept : ∀ block ∈ schedule, ∀ g memory, Inv g → Inv (transfer block g memory).graph
  quiet : ∀ block ∈ schedule, ∀ g memory visits, Inv g →
    (transfer block g memory).changed = false →
    Fine block (visits ++ [⟨block, false⟩]) (transfer block g memory).graph
  apart : ∀ block ∈ schedule, ∀ other ∈ schedule, other ≠ block → ∀ g memory visits, Inv g →
    ((transfer block g memory).changed = true → ¬ feeds block other) → Fine other visits g →
    Fine other (visits ++ [⟨block, (transfer block g memory).changed⟩])
      (transfer block g memory).graph

variable {transfer : BlockTransfer G σ} {feeds : BlockId → BlockId → Prop}
  {schedule : List BlockId} {Inv : G → Prop} {Fine : BlockId → List Visit → G → Prop}

/-- Draining a queue makes every block fine that is not disturbed on the way; `due` are the
blocks that may not be fine although they are not in the queue. -/
theorem drain_settles (settles : Settles transfer feeds schedule Inv Fine) {queue : List BlockId}
    (inside : ∀ block ∈ queue, block ∈ schedule) (due : BlockId → Prop) (visits : List Visit)
    (progress : Progress G σ) (inv : Inv progress.graph)
    (fine : ∀ block ∈ schedule, block ∉ queue → ¬ due block → Fine block visits progress.graph) :
    Inv (drain transfer queue progress).2.graph ∧
      ∀ block ∈ schedule, ¬ due block → ¬ Disturbed feeds (drain transfer queue progress).1 block →
        Fine block (visits ++ (drain transfer queue progress).1)
          (drain transfer queue progress).2.graph := by
  induction queue generalizing due visits progress with
  | nil =>
      refine ⟨inv, fun block scheduled notDue _ => ?_⟩
      rw [drain, List.append_nil]
      exact fine block scheduled List.not_mem_nil notDue
  | cons first rest ih =>
      have scheduled := inside first List.mem_cons_self
      let visit := (progress.visit transfer first).1
      let after := (progress.visit transfer first).2
      have kept : Inv after.graph := settles.kept first scheduled _ _ inv
      have later := ih (fun block member => inside block (List.mem_cons_of_mem _ member))
        (fun block => due block ∨ visit.changed = true ∧ (first = block ∨ feeds first block))
        (visits ++ [visit]) after kept <| by
          intro block here notQueued notDue
          obtain ⟨notBefore, undisturbed⟩ := not_or.mp notDue
          by_cases same : block = first
          · subst same
            have calm : (transfer block progress.graph progress.memory).changed = false := by
              rw [← Bool.not_eq_true]
              exact fun changed => undisturbed ⟨changed, Or.inl rfl⟩
            have settled := settles.quiet block here progress.graph progress.memory visits inv calm
            rw [← calm] at settled
            exact settled
          · have old : block ∉ first :: rest := by simp [same, notQueued]
            exact settles.apart first scheduled block here same _ _ _ inv
              (fun changed fed => undisturbed ⟨changed, Or.inr fed⟩)
              (fine block here old notBefore)
      refine ⟨later.1, fun block here notDue undisturbed => ?_⟩
      rw [drain, disturbed_cons, not_or] at undisturbed
      have settled := later.2 block here (not_or.mpr ⟨notDue, undisturbed.1⟩) undisturbed.2
      rw [List.append_assoc, List.singleton_append] at settled
      exact settled

/-- When the rounds of a worklist converge, everything scheduled is fine. -/
theorem rounds_settle [DecidableRel feeds] (settles : Settles transfer feeds schedule Inv Fine)
    (limit : Nat) {queue : List BlockId} (inside : ∀ block ∈ queue, block ∈ schedule)
    (visits : List Visit) (progress : Progress G σ) (inv : Inv progress.graph)
    (fine : ∀ block ∈ schedule, block ∉ queue → Fine block visits progress.graph)
    (converged : (rounds transfer schedule feeds limit queue progress).converged = true) :
    Inv (rounds transfer schedule feeds limit queue progress).progress.graph ∧
      ∀ block ∈ schedule,
        Fine block (visits ++ (rounds transfer schedule feeds limit queue progress).visits.flatten)
          (rounds transfer schedule feeds limit queue progress).progress.graph := by
  induction limit generalizing queue visits progress with
  | zero => cases converged
  | succ limit ih =>
      obtain ⟨kept, settled⟩ := drain_settles settles inside (fun _ => False) visits
        progress.beginPass inv fun block here notQueued _ => fine block here notQueued
      simp only [rounds] at converged ⊢
      generalize drain transfer queue progress.beginPass = round at kept settled converged ⊢
      by_cases changed : round.1.any (·.changed) = true
      · simp only [changed, if_true, List.flatten_cons] at converged ⊢
        have later := ih (fun block member => List.mem_of_mem_filter member)
          (visits ++ round.1) round.2 kept (fun block here notQueued => by
            refine settled block here not_false fun disturbed => notQueued ?_
            exact List.mem_filter.mpr ⟨here, decide_eq_true disturbed⟩) converged
        rw [List.append_assoc] at later
        exact later
      · simp only [changed, Bool.false_eq_true, if_false, List.flatten_cons, List.flatten_nil,
          List.append_nil]
        refine ⟨kept, fun block here => settled block here not_false ?_⟩
        rintro ⟨visit, member, reported, -⟩
        exact changed (List.any_eq_true.mpr ⟨visit, member, reported⟩)

/-! ## Resting -/

/-- When every visit of a queued block reports no change and keeps `Rest`, so does the whole
queue. -/
theorem drain_rest {queue : List BlockId} {Rest : G → Prop}
    (quiet : ∀ block ∈ queue, ∀ g memory, Rest g →
      (transfer block g memory).changed = false ∧ Rest (transfer block g memory).graph)
    (progress : Progress G σ) (rest : Rest progress.graph) :
    (∀ visit ∈ (drain transfer queue progress).1, visit.changed = false) ∧
      Rest (drain transfer queue progress).2.graph := by
  induction queue generalizing progress with
  | nil => exact ⟨fun _ member => absurd member List.not_mem_nil, rest⟩
  | cons block later ih =>
      obtain ⟨calm, kept⟩ := quiet block List.mem_cons_self progress.graph progress.memory rest
      obtain ⟨others, last⟩ := ih (fun other member => quiet other (List.mem_cons_of_mem _ member))
        (progress.visit transfer block).2 kept
      refine ⟨fun visit member => ?_, last⟩
      rcases List.mem_cons.mp member with rfl | member
      · exact calm
      · exact others visit member

/-- Then the rounds end with the first. -/
theorem rounds_rest (schedule : List BlockId) (feeds : BlockId → BlockId → Prop)
    [DecidableRel feeds] {queue : List BlockId} {Rest : G → Prop}
    (quiet : ∀ block ∈ queue, ∀ g memory, Rest g →
      (transfer block g memory).changed = false ∧ Rest (transfer block g memory).graph)
    {limit : Nat} (positive : 0 < limit) (progress : Progress G σ) (rest : Rest progress.graph) :
    (rounds transfer schedule feeds limit queue progress).converged = true ∧
      (∃ pass, (rounds transfer schedule feeds limit queue progress).visits = [pass] ∧
        pass.map (·.block) = queue ∧ ∀ visit ∈ pass, visit.changed = false) ∧
      Rest (rounds transfer schedule feeds limit queue progress).progress.graph := by
  obtain ⟨calm, kept⟩ := drain_rest quiet progress.beginPass rest
  have blocks := drain_blocks transfer queue progress.beginPass
  obtain ⟨limit, rfl⟩ := Nat.exists_eq_succ_of_ne_zero (Nat.ne_of_gt positive)
  have none_changed :
      ¬ (drain transfer queue progress.beginPass).1.any (·.changed) = true := by
    rw [List.any_eq_true]
    rintro ⟨visit, member, reported⟩
    rw [calm visit member] at reported
    cases reported
  rw [rounds, if_neg none_changed]
  exact ⟨rfl, ⟨_, rfl, blocks, calm⟩, kept⟩

/-! ## Measuring -/

omit [FlowGraph G] in
/-- What every call on a scheduled block keeps, a sequence of such calls keeps; and it raises
a measure by the changes it reports when every call does. -/
theorem Calls.measured {measure : G → Nat}
    (step : ∀ block ∈ schedule, ∀ g memory, Inv g → Inv (transfer block g memory).graph ∧
      measure g + (transfer block g memory).changed.toNat ≤
        measure (transfer block g memory).graph)
    {g g' : G} {memory memory' : σ} {visits : List Visit}
    (calls : Calls transfer g memory visits g' memory')
    (inside : ∀ visit ∈ visits, visit.block ∈ schedule) (inv : Inv g) :
    Inv g' ∧ measure g + visits.countP (·.changed) ≤ measure g' := by
  induction calls with
  | nil => exact ⟨inv, Nat.le_refl _⟩
  | @cons g memory block visits g' memory' later ih =>
      obtain ⟨kept, raised⟩ := step block (inside _ List.mem_cons_self) g memory inv
      obtain ⟨last, rest⟩ := ih (fun visit member => inside visit (List.mem_cons_of_mem _ member)) kept
      refine ⟨last, ?_⟩
      rw [List.countP_cons]
      cases reported : (transfer block g memory).changed with
      | false =>
          rw [reported, Bool.toNat_false] at raised
          simp only [Bool.false_eq_true, if_false]
          omega
      | true =>
          rw [reported, Bool.toNat_true] at raised
          simp only [if_true]
          omega

/-- The blocks a worklist visits are those of its queue and of its schedule. -/
theorem FollowsWorklist.block_mem [DecidableRel feeds] {queue : List BlockId} {limit : Nat}
    {converged : Prop} {passes : List (List Visit)}
    (follows : FollowsWorklist schedule feeds queue limit converged passes)
    (inside : ∀ block ∈ queue, block ∈ schedule) :
    ∀ visit ∈ passes.flatten, visit.block ∈ schedule := by
  intro visit member
  obtain ⟨pass, listed, here⟩ := List.mem_flatten.mp member
  obtain ⟨k, found⟩ := List.getElem?_of_mem listed
  have block : visit.block ∈ pass.map (·.block) := List.mem_map_of_mem here
  cases k with
  | zero =>
      rw [follows.first pass found] at block
      exact inside _ block
  | succ k =>
      have bound := (List.getElem?_eq_some_iff.mp found).1
      have before := List.getElem?_eq_getElem (Nat.lt_of_succ_lt bound)
      rw [follows.next k _ pass before found] at block
      exact List.mem_of_mem_filter block

/-- Every pass of a worklist that does not converge has a visit that changes something. -/
theorem FollowsWorklist.length_le_changes [DecidableRel feeds] {queue : List BlockId} {limit : Nat}
    {converged : Prop} {passes : List (List Visit)}
    (follows : FollowsWorklist schedule feeds queue limit converged passes)
    (going : ¬ converged) : passes.length ≤ passes.flatten.countP (·.changed) := by
  have busy : ∀ pass ∈ passes, 1 ≤ pass.countP (·.changed) := by
    intro pass listed
    obtain ⟨k, found⟩ := List.getElem?_of_mem listed
    rw [Nat.one_le_iff_ne_zero, Ne, List.countP_eq_zero]
    intro calm
    have quiet : ∀ visit ∈ pass, visit.changed = false := by simpa using calm
    exact going ((follows.quiet k pass found).mp quiet).1
  clear follows
  induction passes with
  | nil => exact Nat.zero_le _
  | cons pass rest ih =>
      have here := busy pass List.mem_cons_self
      have later := ih fun other listed => busy other (List.mem_cons_of_mem _ listed)
      rw [List.flatten_cons, List.countP_append, List.length_cons]
      omega

/-- A worklist converges when it may make more passes than a measure has room for. -/
theorem rounds_converged_of_measure [DecidableRel feeds] {measure : G → Nat} {bound limit : Nat}
    (step : ∀ block ∈ schedule, ∀ g memory, Inv g → Inv (transfer block g memory).graph ∧
      measure g + (transfer block g memory).changed.toNat ≤
        measure (transfer block g memory).graph)
    (bounded : ∀ g, Inv g → measure g ≤ bound) (enough : bound < limit) (progress : Progress G σ)
    (inv : Inv progress.graph) :
    (rounds transfer schedule feeds limit schedule progress).converged = true := by
  have calls := rounds_calls transfer schedule feeds limit schedule progress
  have follows := rounds_followsWorklist transfer schedule feeds limit schedule progress
  obtain ⟨last, raised⟩ := calls.measured step (follows.block_mem fun _ member => member) inv
  by_contra going
  have passes := follows.stopped going
  have changes := follows.length_le_changes going
  have room := bounded _ last
  omega

end Settles

end BlockFlow
