/-
# BlockFlow.Json.Forms -- the JSON forms of modes, settings, counters and parameters

* A handle is a bare number.
* A mode and a configuration are records in which every field may be missing; a
  missing field has its default.
* Statistics and ports are records whose fields must all be there.
* A parameter list is a record of one field, `params`, a map with one entry for
  each parameter.  Its keys are strings, or integers of 64 bits (`Key`).

Each form is given in terms of any JSON library, as what is written (`form`) and what
reads it (`reader`).  `toJson` and `ofJson` are the two in the library that runs.
-/
import BlockFlow.Config
import BlockFlow.Json.Standard
import BlockFlow.Parameters

namespace BlockFlow

set_option autoImplicit false

open Json (Value Fault Library RecordField TextReader)

/-! ## Handles -/

namespace NodeId

def form (L : Library) (node : NodeId) : Value := L.wrapped (L.natural node.index)

def reader (L : Library) : L.Reader NodeId := L.readAs NodeId.mk L.readNatural

def toJson (node : NodeId) : Value := node.form Json.standard

def ofJson : TextReader NodeId := reader Json.standard

end NodeId

namespace BlockId

def form (L : Library) (block : BlockId) : Value := L.wrapped (L.natural block.index)

def reader (L : Library) : L.Reader BlockId := L.readAs BlockId.mk L.readNatural

def toJson (block : BlockId) : Value := block.form Json.standard

def ofJson : TextReader BlockId := reader Json.standard

end BlockId

namespace SubgraphId

def form (L : Library) (sub : SubgraphId) : Value := L.wrapped (L.natural sub.index)

def reader (L : Library) : L.Reader SubgraphId := L.readAs SubgraphId.mk L.readNatural

def toJson (sub : SubgraphId) : Value := sub.form Json.standard

def ofJson : TextReader SubgraphId := reader Json.standard

end SubgraphId

/-! ## Modes -/

namespace Mode

def form (L : Library) (mode : Mode) : Value :=
  L.record [("interprocedural", L.bool mode.interprocedural),
    ("assume_no_call_site_cache", L.bool mode.scansNodes)]

/-- The switches read so far. -/
structure Draft where
  interprocedural : Option Bool := none
  scansNodes : Option Bool := none

def fields (L : Library) : List (RecordField L.Reader Draft) :=
  [{ name := "interprocedural"
     isSet := (·.interprocedural.isSome)
     read := fun draft =>
       L.readAs (fun value => { draft with interprocedural := some value }) L.readBool },
   { name := "assume_no_call_site_cache"
     isSet := (·.scansNodes.isSome)
     read := fun draft =>
       L.readAs (fun value => { draft with scansNodes := some value }) L.readBool }]

/-- A switch that was not given is off. -/
def ofDraft (draft : Draft) : Mode where
  interprocedural := draft.interprocedural.getD false
  scansNodes := draft.scansNodes.getD false

def reader (L : Library) : L.Reader Mode :=
  L.readRecord (fields L) {} fun draft => some (ofDraft draft)

def toJson (mode : Mode) : Value := mode.form Json.standard

def ofJson : TextReader Mode := reader Json.standard

end Mode

/-! ## Configurations -/

namespace Config

def form (L : Library) (config : Config) : Value :=
  L.record [("flags", config.mode.form L),
    ("max_iterations", L.optional (config.maxPasses.map L.natural))]

/-- The settings read so far. -/
structure Draft where
  mode : Option Mode := none
  maxPasses : Option (Option Nat) := none

def fields (L : Library) : List (RecordField L.Reader Draft) :=
  [{ name := "flags"
     isSet := (·.mode.isSome)
     read := fun draft =>
       L.readAs (fun value => { draft with mode := some value }) (Mode.reader L) },
   { name := "max_iterations"
     isSet := (·.maxPasses.isSome)
     read := fun draft =>
       L.readAs (fun value => { draft with maxPasses := some value })
         (L.readOptional L.readNatural) }]

/-- A setting that was not given has its default. -/
def ofDraft (draft : Draft) : Config where
  mode := draft.mode.getD {}
  maxPasses := draft.maxPasses.getD none

def reader (L : Library) : L.Reader Config :=
  L.readRecord (fields L) {} fun draft => some (ofDraft draft)

def toJson (config : Config) : Value := config.form Json.standard

def ofJson : TextReader Config := reader Json.standard

/-- The configuration written in `text`. -/
def parse (text : String) : Except Fault Config := Json.parse ofJson text

end Config

/-! ## Statistics -/

namespace Statistics

def form (L : Library) (s : Statistics) : Value :=
  L.record [("blocks", L.natural s.blocks), ("nodes", L.natural s.nodes),
    ("passes", L.natural s.passes), ("processed_blocks", L.natural s.blockVisits),
    ("processed_nodes", L.natural s.nodeVisits), ("changed_blocks", L.natural s.changedBlocks),
    ("subgraphs_entered", L.natural s.subgraphsEntered)]

/-- The counters read so far. -/
structure Draft where
  blocks : Option Nat := none
  nodes : Option Nat := none
  passes : Option Nat := none
  blockVisits : Option Nat := none
  nodeVisits : Option Nat := none
  changedBlocks : Option Nat := none
  subgraphsEntered : Option Nat := none

/-- A counter, found in a draft by `get` and put there by `set`. -/
def counter (L : Library) (name : String) (get : Draft → Option Nat) (set : Draft → Nat → Draft) :
    RecordField L.Reader Draft where
  name := name
  isSet draft := (get draft).isSome
  read draft := L.readAs (set draft) L.readNatural

def fields (L : Library) : List (RecordField L.Reader Draft) :=
  [counter L "blocks" (·.blocks) fun draft n => { draft with blocks := some n },
   counter L "nodes" (·.nodes) fun draft n => { draft with nodes := some n },
   counter L "passes" (·.passes) fun draft n => { draft with passes := some n },
   counter L "processed_blocks" (·.blockVisits) fun draft n => { draft with blockVisits := some n },
   counter L "processed_nodes" (·.nodeVisits) fun draft n => { draft with nodeVisits := some n },
   counter L "changed_blocks" (·.changedBlocks) fun draft n =>
     { draft with changedBlocks := some n },
   counter L "subgraphs_entered" (·.subgraphsEntered) fun draft n =>
     { draft with subgraphsEntered := some n }]

def ofDraft (draft : Draft) : Option Statistics := do
  return {
    blocks := ← draft.blocks
    nodes := ← draft.nodes
    passes := ← draft.passes
    blockVisits := ← draft.blockVisits
    nodeVisits := ← draft.nodeVisits
    changedBlocks := ← draft.changedBlocks
    subgraphsEntered := ← draft.subgraphsEntered }

def reader (L : Library) : L.Reader Statistics := L.readRecord (fields L) {} ofDraft

def toJson (s : Statistics) : Value := s.form Json.standard

def ofJson : TextReader Statistics := reader Json.standard

end Statistics

/-! ## Parameter lists -/

namespace Ports

def form (L : Library) (ports : Ports) : Value :=
  L.record [("input", ports.input.form L), ("output", ports.output.form L)]

/-- The ports read so far. -/
structure Draft where
  input : Option NodeId := none
  output : Option NodeId := none

def fields (L : Library) : List (RecordField L.Reader Draft) :=
  [{ name := "input"
     isSet := (·.input.isSome)
     read := fun draft =>
       L.readAs (fun value => { draft with input := some value }) (NodeId.reader L) },
   { name := "output"
     isSet := (·.output.isSome)
     read := fun draft =>
       L.readAs (fun value => { draft with output := some value }) (NodeId.reader L) }]

def ofDraft (draft : Draft) : Option Ports := do
  return ⟨← draft.input, ← draft.output⟩

def reader (L : Library) : L.Reader Ports := L.readRecord (fields L) {} ofDraft

def toJson (ports : Ports) : Value := ports.form Json.standard

def ofJson : TextReader Ports := reader Json.standard

end Ports

/-- Keys under which parameter lists can be written. -/
class Key (K : Type) where
  /-- The name that a map has for a key. -/
  name (L : Library) : K → String
  /-- What reads a key from its name. -/
  reader (L : Library) : L.NameReader K

instance : Key String where
  name L := L.stringName
  reader L := L.readStringName

instance : Key Int where
  name L := L.integerName
  reader L := L.readIntegerName

namespace Parameters

variable {K M : Type} [Key K] [OrderedMap M K Ports]

/-- The form of a list with these entries. -/
def formOf (L : Library) (entries : List (K × Ports)) : Value :=
  L.record [("params", L.map (entries.map fun entry => (Key.name L entry.1, entry.2.form L)))]

def form (L : Library) (params : Parameters K M) : Value := formOf L params.entries

/-- The list read so far. -/
structure Draft (K M : Type) where
  params : Option (Parameters K M) := none

/-- The entries of the map are inserted as they come. -/
def fields (L : Library) : List (RecordField L.Reader (Draft K M)) :=
  [{ name := "params"
     isSet := (·.params.isSome)
     read := fun _ =>
       L.readAs (fun entries => { params := some ⟨OrderedMap.ofEntries entries⟩ })
         (L.readEntries (Key.reader L) (Ports.reader L)) }]

def reader (L : Library) : L.Reader (Parameters K M) :=
  L.readRecord (fields L) {} (·.params)

def toJson (params : Parameters K M) : Value := params.form Json.standard

def ofJson : TextReader (Parameters K M) := reader Json.standard

/-- The parameter list written in `text`. -/
def parse (text : String) : Except Fault (Parameters K M) := Json.parse ofJson text

end Parameters

end BlockFlow
