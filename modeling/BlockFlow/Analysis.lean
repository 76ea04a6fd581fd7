/-
# BlockFlow.Analysis -- running a transfer function to a fixed point

A run numbers the blocks its entry leads to and then visits them in that order, pass
after pass.  The first pass visits every scheduled block.  A later pass visits only
the blocks that are *marked*: those that changed in the pass before it, and their
dependents.  Marks made during a pass count for the next one, wherever the marked
slot stands.  The run converges with the first pass in which nothing changes.

* `sweep` is one pass, `solve` the passes up to a limit;
* `Analysis.runBounded` is a whole run of at most so many passes;
* `Analysis.run` has no limit of its own.  Its `fuel` only bounds the recursion:
  where `fuel` passes do not suffice the answer is `none`, and an answer is the same
  for every larger `fuel`;
* `Run.statisticsAt` goes back to the counters as they stood at an earlier visit.

An analysis keeps the memory of its transfer function and the statistics of its last
run.  The orders stamped by earlier runs are cleared before anything else happens.
-/
import BlockFlow.Schedule
import BlockFlow.Statistics
import BlockFlow.Transfer

namespace BlockFlow

set_option autoImplicit false

/-- One visit of a block, and whether the block reported a change. -/
structure Visit where
  block : BlockId
  changed : Bool
deriving DecidableEq

/-- The state of a run between two visits. -/
structure Progress (G σ : Type) where
  graph : G
  memory : σ
  statistics : Statistics

namespace Progress

variable {G σ : Type} [FlowGraph G]

/-- Count one more pass. -/
def beginPass (progress : Progress G σ) : Progress G σ :=
  { progress with
    statistics := { progress.statistics with passes := progress.statistics.passes + 1 } }

/-- Run the transfer function on `block` and count the visit. -/
def visit (transfer : BlockTransfer G σ) (block : BlockId) (progress : Progress G σ) :
    Visit × Progress G σ :=
  let size := ((FlowGraph.topology progress.graph).nodes block).length
  let effect := transfer block progress.graph progress.memory
  (⟨block, effect.changed⟩,
    { graph := effect.graph
      memory := effect.memory
      statistics :=
        { progress.statistics with
          blockVisits := progress.statistics.blockVisits + 1
          nodeVisits := progress.statistics.nodeVisits + size
          changedBlocks := progress.statistics.changedBlocks + effect.changed.toNat } })

end Progress

/-! ## Marks -/

/-- Which slots of a schedule are marked, by position. -/
abbrev Marks := Array Bool

namespace Marks

def blank (size : Nat) : Marks := Array.replicate size false

def full (size : Nat) : Marks := Array.replicate size true

def has (marks : Marks) (pos : Nat) : Bool := marks[pos]?.getD false

/-- Mark every position listed. -/
def addAll (marks : Marks) (positions : List Nat) : Marks :=
  positions.foldl (fun marks pos => marks.setIfInBounds pos true) marks

theorem size_addAll (marks : Marks) (positions : List Nat) :
    (marks.addAll positions).size = marks.size := by
  induction positions generalizing marks with
  | nil => rfl
  | cons pos rest ih => exact (ih _).trans Array.size_setIfInBounds

theorem has_addAll (marks : Marks) (positions : List Nat) (pos : Nat) :
    (marks.addAll positions).has pos = (marks.has pos || (pos < marks.size && pos ∈ positions)) := by
  induction positions generalizing marks with
  | nil => simp [addAll]
  | cons first rest ih =>
    have step : marks.addAll (first :: rest) = addAll (marks.setIfInBounds first true) rest := rfl
    rw [step, ih]
    by_cases same : first = pos
    · subst same
      by_cases bound : first < marks.size <;> simp [has, bound]
    · have apart : ¬ pos = first := fun h => same h.symm
      simp [has, same, apart]

end Marks

/-! ## Passes -/

/-- A finished pass: what it visited, the marks it made and where it left the run. -/
structure Pass (G σ : Type) where
  visits : List Visit
  marks : Marks
  progress : Progress G σ

namespace Pass

variable {G σ : Type}

/-- Whether some visit reported a change. -/
def changed (pass : Pass G σ) : Bool := pass.visits.any (·.changed)

end Pass

variable {G σ : Type} [FlowGraph G]

/-- Visit the marked slots of a schedule from position `pos` on, making marks for the next
pass. -/
def sweep (transfer : BlockTransfer G σ) (marked : Marks) :
    (pos : Nat) → List Slot → (next : Marks) → Progress G σ → Pass G σ
  | _, [], next, progress => ⟨[], next, progress⟩
  | pos, slot :: rest, next, progress =>
    if marked.has pos then
      let (visit, progress') := progress.visit transfer slot.block
      let next' := if visit.changed then next.addAll (pos :: slot.dependents) else next
      let pass := sweep transfer marked (pos + 1) rest next' progress'
      { pass with visits := visit :: pass.visits }
    else
      sweep transfer marked (pos + 1) rest next progress

/-- The passes of a run, and whether the last of them left nothing to do. -/
structure Passes (G σ : Type) where
  converged : Bool
  /-- The visits of each pass in turn. -/
  visits : List (List Visit)
  progress : Progress G σ

/-- Make passes over `slots` until one changes nothing, at most `limit` of them. -/
def solve (transfer : BlockTransfer G σ) (slots : List Slot) :
    (limit : Nat) → (marked : Marks) → Progress G σ → Passes G σ
  | 0, _, progress => ⟨false, [], progress⟩
  | limit + 1, marked, progress =>
    let pass := sweep transfer marked 0 slots (Marks.blank slots.length) progress.beginPass
    if pass.changed then
      let later := solve transfer slots limit pass.marks pass.progress
      { later with visits := pass.visits :: later.visits }
    else
      ⟨true, [pass.visits], pass.progress⟩

/-! ## Runs -/

/-- A transfer function with its memory, where it starts and what it follows. -/
structure Analysis (G σ : Type) where
  entry : BlockId
  mode : Mode
  transfer : BlockTransfer G σ
  memory : σ
  /-- The counters of the latest run. -/
  statistics : Statistics := {}

/-- How a run ended. -/
inductive Ending where
  /-- A pass changed nothing. -/
  | converged
  /-- The last pass that was allowed still changed something. -/
  | passLimit (limit : Nat)
  /-- The graph led to a block or a node that it does not have, and nothing was run. -/
  | stray (what : Stray)
deriving DecidableEq

/-- A run that was stopped says how many passes it was allowed. -/
def Ending.message : Ending → Option String
  | converged => none
  | passLimit limit => some ("dataflow did not converge within " ++ limit.repr ++ " passes")
  | stray what => some ("no such " ++ what.text)

/-- What a run left behind. -/
structure Run (G σ : Type) where
  ending : Ending
  /-- The analysis with its memory and statistics as they are now. -/
  analysis : Analysis G σ
  graph : G
  /-- The scopes entered through calls while the blocks were numbered. -/
  entrances : List Entrance
  /-- The block visits of each pass. -/
  visits : List (List Visit)

/-- The first `count` visits, pass by pass; a pass that they do not reach is left out. -/
def firstVisits : (count : Nat) → List (List Visit) → List (List Visit)
  | _, [] => []
  | 0, _ => []
  | count, pass :: later => pass.take count :: firstVisits (count - pass.length) later

/-- The counters right after visit number `count` of a run, the first being number 1.
The transfer function must have left the topology alone. -/
def Run.statisticsAt (run : Run G σ) (count : Nat) : Statistics :=
  let passes := firstVisits count run.visits
  let visits := passes.flatten
  { run.analysis.statistics with
    passes := passes.length
    blockVisits := visits.length
    nodeVisits := (visits.flatMap fun visit => (FlowGraph.topology run.graph).nodes visit.block).length
    changedBlocks := visits.countP (·.changed) }

namespace Analysis

/-- The size of what is to be run on, with nothing done yet. -/
def sizes (g : G) (walker : Walker) : Statistics :=
  { blocks := walker.numbered.length
    nodes := (walker.blocks.flatMap (FlowGraph.topology g).nodes).length
    subgraphsEntered := walker.subgraphsEntered }

/-- Number the blocks from the entry on and run to a fixed point, at most `limit` passes. -/
def runBounded (analysis : Analysis G σ) (limit : Nat) (g : G) : Run G σ :=
  let traversal := (Walker.fresh analysis.mode).run (FlowGraph.clearOrders g) analysis.entry
  let walker := traversal.walk.walker
  match traversal.walk.stray with
  | some what => ⟨.stray what, analysis, traversal.graph, walker.entrances, []⟩
  | none =>
    let slots := Schedule.ofWalker (FlowGraph.topology traversal.graph) walker
    let passes := solve analysis.transfer slots limit (Marks.full slots.length)
      ⟨traversal.graph, analysis.memory, sizes traversal.graph walker⟩
    { ending := if passes.converged then .converged else .passLimit limit
      analysis :=
        { analysis with
          memory := passes.progress.memory
          statistics := passes.progress.statistics }
      graph := passes.progress.graph
      entrances := walker.entrances
      visits := passes.visits }

/-- Run to a fixed point; `none` when `fuel` passes are not enough. -/
def run (analysis : Analysis G σ) (fuel : Nat) (g : G) : Option (Run G σ) :=
  let run := analysis.runBounded fuel g
  if run.ending = .passLimit fuel then none else some run

end Analysis

end BlockFlow
