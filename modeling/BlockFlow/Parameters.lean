/-
# BlockFlow.Parameters -- formal parameter lists

A procedure's formal parameters are declared one by one under a key.  Each is
represented in the flow graph by two pseudo-nodes, one holding its value on entry
to the procedure and one its value on return (`Ports`).

A list keeps its parameters in an ordered map (`OrderedMap`), whichever it is: declaring a
key is insertion, withdrawing it is removal, and two lists are equivalent (`Parameters.equiv`) when
their maps are the same.  Unless another map is named, a list is kept as an `EntryList`.
-/
import BlockFlow.EntryList
import BlockFlow.Handle

namespace BlockFlow

set_option autoImplicit false

/-- The two pseudo-nodes of one formal parameter. -/
structure Ports where
  /-- The value of the parameter on entry to the procedure. -/
  input : NodeId
  /-- The value of the parameter on return from the procedure. -/
  output : NodeId
deriving DecidableEq

/-- Formal parameters in the order of their declaration. -/
structure Parameters (K : Type) (M : Type := EntryList K Ports) where
  map : M
deriving DecidableEq

namespace Parameters

variable {K M : Type} [OrderedMap M K Ports]

/-- No parameters. -/
def empty : Parameters K M := ⟨OrderedMap.empty⟩

/-- The ports declared for `key`. -/
def get? (params : Parameters K M) (key : K) : Option Ports := OrderedMap.get? params.map key

/-- Whether `key` is declared. -/
def contains (params : Parameters K M) (key : K) : Bool := OrderedMap.contains params.map key

/-- Declare `key`.  The first component is what it was declared as before. -/
def add (params : Parameters K M) (key : K) (ports : Ports) : Option Ports × Parameters K M :=
  let (old, map) := OrderedMap.insert params.map key ports
  (old, ⟨map⟩)

/-- Withdraw `key`.  The first component is what it was declared as. -/
def remove (params : Parameters K M) (key : K) : Option Ports × Parameters K M :=
  let (old, map) := OrderedMap.remove params.map key
  (old, ⟨map⟩)

/-- How many parameters are declared. -/
def size (params : Parameters K M) : Nat := OrderedMap.size params.map

def isEmpty (params : Parameters K M) : Bool := OrderedMap.isEmpty params.map

/-- The parameters in the order of their declaration. -/
def entries (params : Parameters K M) : List (K × Ports) := OrderedMap.entries params.map

/-- Every pseudo-node of the list: the input and then the output of each parameter. -/
def pseudoNodes (params : Parameters K M) : List NodeId :=
  (OrderedMap.values params.map).flatMap fun ports => [ports.input, ports.output]

/-- Whether two lists compare equal. -/
def equiv (a b : Parameters K M) : Bool := OrderedMap.same a.map b.map

/-- The declared keys in order. -/
def keys (params : Parameters K M) : List K := OrderedMap.keys params.map

end Parameters

end BlockFlow
