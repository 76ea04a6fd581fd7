/-
# BlockFlow.Ring.Counting -- counting visits

The transfer functions of ring programs do nothing but count: the state of a node is
the number of times it was run.  They differ in what they report.
-/
import BlockFlow.Graph.Basic
import BlockFlow.Transfer

namespace BlockFlow.Ring

set_option autoImplicit false

/-- What running a node amounts to: every run counts as a visit. -/
inductive Counting where
  /-- Never report a change. -/
  | noChange
  /-- Report a change on the first visit. -/
  | oneChange
deriving DecidableEq

def Counting.text : Counting → String
  | noChange => "no-change"
  | oneChange => "one-change"

/-- The way of counting that has this name. -/
def Counting.ofText? (name : String) : Option Counting :=
  if name = "no-change" then some .noChange
  else if name = "one-change" then some .oneChange
  else none

/-- A graph whose nodes count their visits. -/
abbrev VisitGraph := Graph Nat Nat

/-- Count the visit and report what this way of counting reports. -/
def Counting.onNode (counting : Counting) : NodeTransfer VisitGraph Unit := fun node g _ =>
  let counted := g.modifyState node (· + 1)
  let changed := match counting with
    | noChange => false
    | oneChange => counted.state? node = some 1
  ⟨changed, counted, ()⟩

end BlockFlow.Ring
