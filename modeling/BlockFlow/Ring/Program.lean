/-
# BlockFlow.Ring.Program -- programs made of rings

A ring program is a ring of one-node blocks, entered at the block made last.  It may
give each node of the ring a procedure of its own, which is a ring again and is also
entered at its last block.  A node's state is the number of its visits.

`Program.build` makes such a program, unless one of its rings would be empty, and
`Program.run` runs an analysis over it and reports what came of it.  Visits are
counted on from one run to the next.
-/
import BlockFlow.Graph.Shape
import BlockFlow.Ring.Report

namespace BlockFlow.Ring

set_option autoImplicit false

structure Program where
  graph : VisitGraph
  entry : BlockId
  /-- The procedures called, in the order of their callers. -/
  procedures : List SubgraphId

namespace Program

/-- Add a ring of `len` nodes; also its entry, the block made last. -/
def addRing (g : VisitGraph) (len : Nat) : Option (List BlockId × BlockId × VisitGraph) := do
  let (blocks, g') ← (g.addRing len fun _ => 0).toOption
  return (blocks, ← blocks.getLast?, g')

/-- Give the first node of each of `callers` a ring of `len` nodes to call. -/
def addProcedures (len : Nat) (g : VisitGraph) :
    (callers : List BlockId) → Option (List SubgraphId × VisitGraph)
  | [] => some ([], g)
  | caller :: rest => do
    let owner ← (g.block? caller).map (·.first)
    let (_, entry, g') ← addRing g len
    let (sub, called) ← (g'.addCall owner entry none).toOption
    let (subs, g'') ← addProcedures len called rest
    return (sub :: subs, g'')

/-- A ring of `nodes` nodes, each with a procedure of `procedureNodes` nodes if that is
given; none if one of the rings would be empty. -/
def build (nodes : Nat) (procedureNodes : Option Nat) (tracksCallSites : Bool) :
    Option Program := do
  let (ring, entry, g) ← addRing (Graph.empty tracksCallSites) nodes
  let (procedures, g') ← match procedureNodes with
    | none => some ([], g)
    | some len => addProcedures len g ring
  let graph ← (g'.setEntry entry).toOption
  return { graph, entry, procedures }

/-- How these nodes came out; detached nodes are left out. -/
def nodeVisits (g : VisitGraph) (nodes : List NodeId) : List NodeVisits :=
  nodes.filterMap fun node => do
    let block ← g.blockOf node
    return { node, block, order := g.order block, visits := ← g.state? node }

/-- What happened in a procedure. -/
def procedureReport (g : VisitGraph) (sub : SubgraphId) : Option ProcedureReport := do
  let procedure ← g.subgraph? sub
  let nodes ← g.subgraphNodes? sub
  return { owner := procedure.owner, entry := procedure.entryBlock, nodes := nodeVisits g nodes }

/-- What happened in the whole program. -/
def report (program : Program) (config : Config) (counting : Counting)
    (statistics : Statistics) : Report where
  mode := config.mode
  counting := counting
  statistics := statistics
  topLevel :=
    nodeVisits program.graph
      ((program.graph.topology.reachable program.entry).flatMap program.graph.topology.nodes)
  procedures := program.procedures.filterMap (procedureReport program.graph)

/-- A run over a program. -/
structure Outcome where
  run : Run VisitGraph Unit
  /-- The program with the visits counted. -/
  program : Program
  /-- What came of it, if the run converged. -/
  report : Option Report

/-- Run `counting` over the program; none when the run has no limit and `fuel` passes are
not enough. -/
def run (program : Program) (config : Config) (counting : Counting) (fuel : Nat) :
    Option Outcome := do
  let analysis := config.analysis program.entry (BlockTransfer.ofNode counting.onNode) ()
  let run ← config.run analysis fuel program.graph
  let after := { program with graph := run.graph }
  return {
    run
    program := after
    report := if run.ending = .converged then
        some (after.report config counting run.analysis.statistics)
      else none }

end Program

end BlockFlow.Ring
