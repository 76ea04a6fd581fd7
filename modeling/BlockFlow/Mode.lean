/-
# BlockFlow.Mode -- which calls a run follows and how it finds them

A run stays inside the graph it was started on, or it follows calls into
procedures (`Mode.interprocedural`).  A run that follows calls finds them either
in the call-site cache a block may keep or by scanning every node of the block
(`Mode.scansNodes`); `Mode.discovery` is that choice, absent when calls are not
followed at all.

A mode also has a bit mask form, `Mode.bits`, in which bit 0 asks for calls to be
followed and bit 1 for the scan.  `ofBits` reads it back and ignores all other bits.
-/

namespace BlockFlow

set_option autoImplicit false

/-- How the subgraphs called from a block are found. -/
inductive Discovery where
  /-- Read the block's call-site cache, and scan only where a block keeps none. -/
  | cache
  /-- Scan every node of the block. -/
  | scan
deriving DecidableEq

namespace Discovery

def text : Discovery → String
  | cache => "call-site cache"
  | scan => "node scan"

end Discovery

/-- What a run follows; the default stays inside the graph it starts on. -/
structure Mode where
  /-- Follow calls into subgraphs. -/
  interprocedural : Bool := false
  /-- Find calls by scanning every node, whatever the caches say. -/
  scansNodes : Bool := false
deriving DecidableEq, Inhabited

namespace Mode

/-- Stay inside the graph the run starts on. -/
def within : Mode := {}

/-- Follow calls, found through the call-site caches. -/
def across : Mode := { interprocedural := true }

/-- The same mode, finding calls by scanning. -/
def scanning (mode : Mode) : Mode := { mode with scansNodes := true }

/-- Bit 0 follows calls, bit 1 scans; every other bit is ignored. -/
def ofBits (bits : UInt32) : Mode :=
  { interprocedural := bits &&& 1 != 0, scansNodes := bits &&& 2 != 0 }

/-- The mask that `ofBits` reads as this mode. -/
def bits (mode : Mode) : UInt32 :=
  (if mode.interprocedural then 1 else 0) ||| (if mode.scansNodes then 2 else 0)

/-- Calls are looked for only when they are followed. -/
def discovery (mode : Mode) : Option Discovery :=
  if mode.interprocedural then some (if mode.scansNodes then .scan else .cache) else none

def text (mode : Mode) : String :=
  (if mode.interprocedural then "INTERPROCEDURAL" else "INTRAPROCEDURAL") ++
    (if mode.scansNodes then " | BB_NO_CALLSITES" else "")

/-- Both switches on that are on in either mode. -/
def union (a b : Mode) : Mode where
  interprocedural := a.interprocedural || b.interprocedural
  scansNodes := a.scansNodes || b.scansNodes

theorem ofBits_bits (mode : Mode) : ofBits mode.bits = mode := by
  rcases mode with ⟨_ | _, _ | _⟩ <;> rfl

end Mode

end BlockFlow
