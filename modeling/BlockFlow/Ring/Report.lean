/-
# BlockFlow.Ring.Report -- what a run over a ring program found

A report lists, for the ring and for each procedure, how often every node was visited
and the order its block was given, together with the statistics of the run.

`Report.render` is the report as text, one line per node.  Its headings may be set
off with terminal escape codes (`Style`).  `Report.toJson` is the same as a value.
-/
import BlockFlow.Json.Forms
import BlockFlow.Ring.Counting
import BlockFlow.Statistics

namespace BlockFlow.Ring

set_option autoImplicit false

open Json (Value)

/-- How a node came out of a run. -/
structure NodeVisits where
  node : NodeId
  block : BlockId
  /-- The order of the block, 0 if the run did not reach it. -/
  order : Nat
  visits : Nat
deriving DecidableEq

structure ProcedureReport where
  /-- The node that calls the procedure. -/
  owner : NodeId
  entry : BlockId
  nodes : List NodeVisits
deriving DecidableEq

structure Report where
  mode : Mode
  counting : Counting
  statistics : Statistics
  /-- The nodes of the ring itself. -/
  topLevel : List NodeVisits
  procedures : List ProcedureReport
deriving DecidableEq

/-! ## Text -/

/-- How headings and asides are set off. -/
inductive Style where
  | plain
  /-- With terminal escape codes. -/
  | coloured
deriving DecidableEq

namespace Style

/-- `text` between the escape code with these parameters and the one that ends it. -/
def escape (style : Style) (parameters text : String) : String :=
  match style with
  | plain => text
  | coloured => "\x1b[" ++ parameters ++ "m" ++ text ++ "\x1b[0m"

def bold (style : Style) (text : String) : String := style.escape "1" text

/-- Bold and cyan. -/
def heading (style : Style) (text : String) : String := style.escape "1;36" text

def dimmed (style : Style) (text : String) : String := style.escape "2" text

end Style

def NodeVisits.render (style : Style) (n : NodeVisits) : String :=
  "  " ++ n.node.text ++ " in " ++ n.block.text ++ ": " ++ n.visits.repr ++ " visits, " ++
    (if n.order = 0 then style.dimmed "unvisited" else "dfs " ++ n.order.repr) ++ "\n"

/-- One line for each node. -/
def renderNodes (style : Style) (nodes : List NodeVisits) : String :=
  String.join (nodes.map (·.render style))

def ProcedureReport.render (style : Style) (p : ProcedureReport) : String :=
  style.heading "procedure" ++ " called from " ++ p.owner.text ++ " (entry " ++ p.entry.text ++
    ")\n" ++ renderNodes style p.nodes

def Report.render (style : Style) (report : Report) : String :=
  style.bold "mode:" ++ " " ++ report.mode.text ++ "\n" ++
    style.bold "result:" ++ " " ++ report.statistics.text ++ "\n" ++
    style.heading "top level" ++ "\n" ++ renderNodes style report.topLevel ++
    String.join (report.procedures.map (·.render style))

/-! ## JSON -/

def NodeVisits.toJson (n : NodeVisits) : Value :=
  .object [("node", n.node.toJson), ("block", n.block.toJson), ("dfs_order", .number n.order),
    ("visits", .number n.visits)]

def ProcedureReport.toJson (p : ProcedureReport) : Value :=
  .object [("owner", p.owner.toJson), ("entry", p.entry.toJson),
    ("nodes", .array (p.nodes.map (·.toJson)))]

def Report.toJson (report : Report) : Value :=
  .object [("flags", report.mode.toJson), ("transfer", .string report.counting.text),
    ("statistics", report.statistics.toJson),
    ("top_level", .array (report.topLevel.map (·.toJson))),
    ("procedures", .array (report.procedures.map (·.toJson)))]

end BlockFlow.Ring
