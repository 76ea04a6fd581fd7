/-
# BlockFlow.Statistics -- the counters of a run

Two kinds of numbers: the size of what a run was given (`blocks`, `nodes`,
`subgraphsEntered`), and the work it did (`passes`, `blockVisits`, `nodeVisits`,
`changedBlocks`).  `text` is the one-line summary of a run.
-/

namespace BlockFlow

set_option autoImplicit false

structure Statistics where
  /-- Blocks under analysis, those of procedures included. -/
  blocks : Nat := 0
  /-- Nodes in these blocks. -/
  nodes : Nat := 0
  /-- Passes begun. -/
  passes : Nat := 0
  /-- Block visits in all passes. -/
  blockVisits : Nat := 0
  /-- Nodes in the visited blocks, counted at each visit. -/
  nodeVisits : Nat := 0
  /-- Block visits that reported a change. -/
  changedBlocks : Nat := 0
  /-- Scopes entered through calls while the blocks were numbered. -/
  subgraphsEntered : Nat := 0
deriving DecidableEq, Inhabited

namespace Statistics

def text (s : Statistics) : String :=
  s.blocks.repr ++ " blocks (" ++ s.nodes.repr ++ " nodes, " ++ s.subgraphsEntered.repr ++
    " subgraphs) converged after " ++ s.passes.repr ++ " passes: " ++ s.blockVisits.repr ++
    " block visits, " ++ s.nodeVisits.repr ++ " node visits, " ++ s.changedBlocks.repr ++ " changed"

end Statistics

end BlockFlow
