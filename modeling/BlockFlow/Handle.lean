/-
# BlockFlow.Handle -- the names of nodes, basic blocks and subgraphs

A flow graph hands out three kinds of handles.  Each is an index into its own
table, so two handles of one kind are equal exactly when their indices are; a
handle may also name nothing, when its index is past the end of the table.

`text` is the form a handle takes in messages, reports and logs: `n3`, `bb3`, `sg3`.
-/

namespace BlockFlow

set_option autoImplicit false

/-- The name of a node. -/
structure NodeId where
  index : Nat
deriving DecidableEq, Inhabited

/-- The name of a basic block. -/
structure BlockId where
  index : Nat
deriving DecidableEq, Inhabited

/-- The name of a subgraph, a procedure called from a node. -/
structure SubgraphId where
  index : Nat
deriving DecidableEq, Inhabited

/-- A node is shown as `n` and its index. -/
def NodeId.text (node : NodeId) : String := "n" ++ node.index.repr

/-- A block is shown as `bb` and its index. -/
def BlockId.text (block : BlockId) : String := "bb" ++ block.index.repr

/-- A subgraph is shown as `sg` and its index. -/
def SubgraphId.text (sub : SubgraphId) : String := "sg" ++ sub.index.repr

end BlockFlow
