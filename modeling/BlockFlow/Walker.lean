/-
# BlockFlow.Walker -- depth-first numbering of blocks

A walker numbers blocks in depth-first pre-order, counting from 1.  When it follows
calls, the procedures a block calls are numbered right after the block and before
its successors.  Every numbered block belongs to a *scope*, named by the block where
the walk began: the entry a run was started with, or the entry of the procedure it
went into (`Entrance`).  Procedures with a common entry share one scope.

A walker remembers what it has numbered, so later runs only add to it.  A block that
is already numbered is never entered again, which is what ends a recursive call.

The blocks still to be numbered form one list of `Pending` visits.  Numbering a block
puts its calls and then its successors in front of that list, each callee complete
with its own scope, so the list is the whole rest of the walk and no walk is ever
suspended inside another.  Pending visits of numbered blocks are dropped when they
come up, not when they are added.

A walk stops at a stray.  A block that is not in the graph gets no number, but it
counts as visited.  A block whose calls cannot be found, because a node that is not in
the graph is among its call sites, keeps the number it has just been given.  Whatever
was still pending is given up.

`walk` is the loop.  Its budget is never what ends it: each round numbers one more
block of the graph.
-/
import BlockFlow.FlowGraph

namespace BlockFlow

set_option autoImplicit false

/-- A numbered block and the scope it was numbered in. -/
structure Numbered where
  block : BlockId
  scope : BlockId
deriving DecidableEq

/-- A scope that was entered through a call. -/
structure Entrance where
  /-- The block with the call. -/
  caller : BlockId
  /-- The subgraph called. -/
  sub : SubgraphId
  /-- Its entry block, which names the scope. -/
  entry : BlockId
deriving DecidableEq

/-- A block waiting to be numbered. -/
structure Pending where
  block : BlockId
  /-- The scope it will belong to. -/
  scope : BlockId
  /-- How its scope is entered, when it begins one through a call. -/
  entrance : Option Entrance
deriving DecidableEq

/-- What has been numbered so far, and how calls are found. -/
structure Walker where
  /-- How calls are found; `none` stays within the graph. -/
  discovery : Option Discovery
  /-- The blocks numbered so far; the first has number 1. -/
  numbered : List Numbered
  /-- The scopes entered through calls so far. -/
  entrances : List Entrance
  /-- The blocks met that are not blocks of the graph. -/
  strays : List BlockId
deriving DecidableEq

namespace Walker

/-- A walker for `mode` that has numbered nothing. -/
def fresh (mode : Mode) : Walker := ⟨mode.discovery, [], [], []⟩

/-- The numbered blocks in numbering order. -/
def blocks (walker : Walker) : List BlockId := walker.numbered.map (·.block)

/-- Whether `block` has been met: numbered, or found not to be in the graph. -/
def isVisited (walker : Walker) (block : BlockId) : Bool :=
  walker.numbered.any (·.block = block) || walker.strays.contains block

/-- The scope in which `block` was numbered. -/
def scopeOf (walker : Walker) (block : BlockId) : Option BlockId :=
  (walker.numbered.find? (·.block = block)).map (·.scope)

/-- How many scopes were entered through calls. -/
def subgraphsEntered (walker : Walker) : Nat := walker.entrances.length

/-- The order the next numbered block gets. -/
def nextOrder (walker : Walker) : Nat := walker.numbered.length + 1

/-- What numbering `block` leads to: first the procedures it calls, then its successors. -/
def onward (walker : Walker) (shape : Topology) (block scope : BlockId) : List Pending :=
  (shape.calls walker.discovery block).map (fun sub =>
      ⟨shape.entryBlock sub, shape.entryBlock sub, some ⟨block, sub, shape.entryBlock sub⟩⟩) ++
    (shape.successors block).map (⟨·, scope, none⟩)

/-- Note the entrance by which a visit begins a scope. -/
def enter (walker : Walker) (visit : Pending) : Walker :=
  { walker with entrances := walker.entrances ++ visit.entrance.toList }

/-- Give the block of `visit` the next number. -/
def number (walker : Walker) (visit : Pending) : Walker :=
  { walker with numbered := walker.numbered ++ [⟨visit.block, visit.scope⟩] }

/-- Note that the block of `visit` is not in the graph. -/
def goAstray (walker : Walker) (visit : Pending) : Walker :=
  { walker with strays := walker.strays ++ [visit.block] }

end Walker

/-- Where a walk came to: the walker, and the stray that stopped it, if one did. -/
structure Walk where
  walker : Walker
  stray : Option Stray
deriving DecidableEq

namespace Walker

/-- Number the pending blocks and all they lead to, at most `budget` of them. -/
def walk (shape : Topology) : (budget : Nat) → List Pending → Walker → Walk
  | 0, _, walker => ⟨walker, none⟩
  | budget + 1, pending, walker =>
    match pending.dropWhile (fun visit => walker.isVisited visit.block) with
    | [] => ⟨walker, none⟩
    | visit :: rest =>
      let entered := walker.enter visit
      if shape.hasBlock visit.block then
        match shape.strayCaller? walker.discovery visit.block with
        | none =>
          walk shape budget (walker.onward shape visit.block visit.scope ++ rest)
            (entered.number visit)
        | some node => ⟨entered.number visit, some (.node node)⟩
      else
        ⟨entered.goAstray visit, some (.block visit.block)⟩

/-- Number every block reachable from `entry` that is not numbered yet. -/
def explore (walker : Walker) (shape : Topology) (entry : BlockId) : Walk :=
  walk shape (shape.blockCount + 1) [⟨entry, entry, none⟩] walker

end Walker

/-- The outcome of a walk on a graph: the walk, the stamped graph, and what the visitor kept. -/
structure Traversal (G σ : Type) where
  walk : Walk
  graph : G
  seen : σ

namespace Walker

variable {G σ : Type} [FlowGraph G]

/-- Number what `entry` leads to and stamp it on the graph, showing each block to `visit`
right after it is stamped. -/
def runWith (visit : G → BlockId → σ → σ) (walker : Walker) (g : G) (entry : BlockId) (seen : σ) :
    Traversal G σ :=
  let walk := walker.explore (FlowGraph.topology g) entry
  let news := walk.walker.blocks.drop walker.blocks.length
  let (g', seen') := FlowGraph.stampEach visit walker.nextOrder news g seen
  ⟨walk, g', seen'⟩

/-- Number what `entry` leads to and stamp it on the graph. -/
def run (walker : Walker) (g : G) (entry : BlockId) : Traversal G Unit :=
  walker.runWith (fun _ _ seen => seen) g entry ()

end Walker

end BlockFlow
