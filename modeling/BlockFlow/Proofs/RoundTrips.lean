/-
# BlockFlow.Proofs.RoundTrips -- JSON forms are read back

Whatever the library, as long as it is lawful, the reader of a type reads a form as the value it was
made from, if every number in it is one of 64 bits: a mode (`Mode.reads`), a configuration
(`Config.reads`), the ports of a parameter (`Ports.reads`).  All of them are records of two fields
(`Json.reads_two`).  Keys are strings, whatever they hold, or integers of 64 bits.

Reading a parameter list declares the entries it finds in turn (`Parameters.reads`).  A list that
edits made names no key twice, so it is read as it was, while of repeated entries the first
gives the place and the last gives the ports (`Parameters.RoundTrip`).
-/
import BlockFlow.Json.Forms
import BlockFlow.Proofs.Declarations
import BlockFlow.Proofs.Writing

namespace BlockFlow

set_option autoImplicit false

open Json (Value Library RecordField Writes)

variable {L : Library} (lawful : L.Lawful)

/-! ## Forms -/

include lawful

/-- A record of two fields is read from a member for each. -/
theorem Json.reads_two {δ α : Type} {first second : RecordField L.Reader δ} {draft next last : δ}
    {finish : δ → Option α} {x : α} {value value' : Value} (apart : first.name ≠ second.name)
    (free : first.isSet draft = false) (reads : L.Reads (first.read draft) next value)
    (free' : second.isSet next = false) (reads' : L.Reads (second.read next) last value')
    (finished : finish last = some x) :
    L.Reads (L.readRecord [first, second] draft finish) x
      (L.record [(first.name, value), (second.name, value')]) := by
  have here : [first, second].find? (·.name = first.name) = some first :=
    List.find?_cons_of_pos (decide_eq_true rfl)
  have there : [first, second].find? (·.name = second.name) = some second := by
    rw [List.find?_cons_of_neg (by simp [apart])]
    exact List.find?_cons_of_pos (decide_eq_true rfl)
  rw [lawful.record_eq]
  exact lawful.reads_record _ _ _ _ _ _
    (.field here free reads (.field there free' reads' (.done last))) finished

theorem NodeId.reads {node : NodeId} (fits : node.index < Nat.pow 2 64) :
    L.Reads (NodeId.reader L) node (node.form L) := by
  rw [NodeId.form, lawful.wrapped_eq, lawful.natural_eq]
  exact lawful.reads_as NodeId.mk _ _ _ (lawful.reads_natural _ fits)

/-- A switch is read into a draft. -/
theorem Json.reads_switch {δ : Type} (set : Bool → δ) (b : Bool) :
    L.Reads (L.readAs set L.readBool) (set b) (L.bool b) := by
  rw [lawful.bool_eq]
  exact lawful.reads_as set _ _ _ (lawful.reads_bool b)

theorem Mode.reads (mode : Mode) : L.Reads (Mode.reader L) mode (mode.form L) := by
  obtain ⟨interprocedural, scansNodes⟩ := mode
  exact Json.reads_two lawful (by decide : "interprocedural" ≠ "assume_no_call_site_cache")
    rfl (Json.reads_switch lawful (fun b => (⟨some b, none⟩ : Mode.Draft)) interprocedural)
    rfl (Json.reads_switch lawful (fun b => (⟨some interprocedural, some b⟩ : Mode.Draft)) scansNodes)
    rfl

/-- A number that may be missing. -/
theorem Json.reads_optional {n : Option Nat} (fits : ∀ m ∈ n, m < Nat.pow 2 64) :
    L.Reads (L.readOptional L.readNatural) n (L.optional (n.map L.natural)) := by
  cases n with
  | none =>
      rw [Option.map_none, lawful.optional_none]
      exact lawful.reads_null _
  | some m =>
      rw [Option.map_some, lawful.optional_some, lawful.natural_eq]
      exact lawful.reads_some _ _ _ (by simp) (lawful.reads_natural m (fits m rfl))

/-- A number of passes that fits in 64 bits. -/
def Config.Fits (config : Config) : Prop := ∀ n ∈ config.maxPasses, n < Nat.pow 2 64

theorem Config.reads {config : Config} (fits : config.Fits) :
    L.Reads (Config.reader L) config (config.form L) := by
  obtain ⟨mode, maxPasses⟩ := config
  exact Json.reads_two lawful (by decide : "flags" ≠ "max_iterations")
    rfl (lawful.reads_as (fun mode => (⟨some mode, none⟩ : Config.Draft)) _ _ _
      (mode.reads lawful))
    rfl (lawful.reads_as (fun n => (⟨some mode, some n⟩ : Config.Draft)) _ _ _
      (Json.reads_optional lawful fits))
    rfl

/-- Pseudo-nodes with indices of 64 bits. -/
def Ports.Fits (ports : Ports) : Prop :=
  ports.input.index < Nat.pow 2 64 ∧ ports.output.index < Nat.pow 2 64

theorem Ports.reads {ports : Ports} (fits : ports.Fits) :
    L.Reads (Ports.reader L) ports (ports.form L) := by
  obtain ⟨input, output⟩ := ports
  exact Json.reads_two lawful (by decide : "input" ≠ "output")
    rfl (lawful.reads_as (fun node => (⟨some node, none⟩ : Ports.Draft)) _ _ _
      (NodeId.reads lawful fits.1))
    rfl (lawful.reads_as (fun node => (⟨some input, some node⟩ : Ports.Draft)) _ _ _
      (NodeId.reads lawful fits.2))
    rfl

/-! ## Keys -/

theorem Key.reads_string (s : String) : L.ReadsName (Key.reader L) s (Key.name L s) := by
  show L.ReadsName L.readStringName s (L.stringName s)
  rw [lawful.stringName_eq]
  exact lawful.readsName_string s

/-- An integer of 64 bits. -/
def Key.Fits (key : Int) : Prop := -(Nat.pow 2 63 : Int) ≤ key ∧ key < Nat.pow 2 63

theorem Key.reads_integer {key : Int} (fits : Key.Fits key) :
    L.ReadsName (Key.reader L) key (Key.name L key) := by
  show L.ReadsName L.readIntegerName key (L.integerName key)
  rw [lawful.integerName_eq]
  exact lawful.readsName_integer key fits.1 fits.2

/-! ## Whole texts -/

/-- Every text of a form is read as what is meant, the two texts that the library writes among
them. -/
structure Json.ReadBack (L : Library) {α : Type} (reader : L.Reader α) (form : Value)
    (meant : α → Prop) : Prop where
  written : ∀ text : String, Writes form text.toList →
    ∃ x, L.parse reader text = .ok x ∧ meant x
  compact : ∃ x, L.parse reader (L.compact form) = .ok x ∧ meant x
  pretty : ∃ x, L.parse reader (L.pretty form) = .ok x ∧ meant x

theorem Json.readBack_of_reads {α : Type} {reader : L.Reader α} {form : Value} {x : α}
    {meant : α → Prop} (reads : L.Reads reader x form) (means : meant x) :
    ReadBack L reader form meant := by
  have written (text : String) (writes : Writes form text.toList) :
      ∃ x, L.parse reader text = .ok x ∧ meant x :=
    ⟨x, lawful.parse_written reader x form text reads writes, means⟩
  exact ⟨written, written _ (lawful.compact_writes form), written _ (lawful.pretty_writes form)⟩

/-! ## Parameter lists -/

namespace Parameters

variable {K M : Type} [DecidableEq K] [Key K] [OrderedMap M K Ports]

omit [DecidableEq K] in
/-- The entries of a list are inserted in the order in which they are written. -/
theorem reads {entries : List (K × Ports)}
    (fits : ∀ entry ∈ entries,
      L.ReadsName (Key.reader L) entry.1 (Key.name L entry.1) ∧ entry.2.Fits) :
    L.Reads (reader L) (⟨OrderedMap.ofEntries entries⟩ : Parameters K M) (formOf L entries) := by
  have inside := lawful.reads_entries (Key.reader L) (Ports.reader L) (Key.name L) (Ports.form L)
    entries (fun entry member => (fits entry member).1)
    fun entry member => Ports.reads lawful (fits entry member).2
  rw [formOf, lawful.record_eq, lawful.map_eq]
  exact lawful.reads_record _ _ _ _ _ _
    (.field (List.find?_cons_of_pos (decide_eq_true rfl)) rfl
      (lawful.reads_as
        (fun entries => (⟨some ⟨OrderedMap.ofEntries entries⟩⟩ : Draft K M)) _ _ _ inside)
      (.done _)) rfl

omit lawful

/-- An edit whose key and ports fit. -/
def Edit.Fits (fits : K → Prop) : Edit K → Prop
  | .add key ports => fits key ∧ ports.Fits
  | .remove key => fits key

/-- The list that is made by declaring these entries in turn. -/
def declared (entries : List (K × Ports)) : Parameters K M :=
  edited (entries.map fun entry => .add entry.1 entry.2)

/-- Lists whose keys fit are read back from what is written. -/
structure RoundTrip (L : Library) (M : Type) [OrderedMap M K Ports] (fits : K → Prop) :
    Prop where
  /-- The list that edits made is read with the entries that it has, in their order. -/
  list : ∀ edits : List (Edit K), (∀ edit ∈ edits, edit.Fits fits) →
    Json.ReadBack L (reader L) ((edited edits : Parameters K M).form L)
      fun read : Parameters K M => read.entries = (edited edits : Parameters K M).entries
  /-- Entries that may repeat keys are read as if each were declared in turn. -/
  repeated : ∀ entries : List (K × Ports), (∀ entry ∈ entries, fits entry.1 ∧ entry.2.Fits) →
    Json.ReadBack L (reader L) (formOf L entries)
      fun read : Parameters K M => read = declared entries
  /-- A repeated key stands where it comes first. -/
  place : ∀ entries : List (K × Ports),
    (declared entries : Parameters K M).keys = (entries.map (·.1)).eraseDups
  /-- A repeated key has the ports that come last. -/
  latest : ∀ (entries : List (K × Ports)) (key : K),
    (declared entries : Parameters K M).get? key = entries.reverse.lookup key

variable [LawfulOrderedMap M K Ports]

omit [DecidableEq K] [Key K] in
theorem declared_eq (entries : List (K × Ports)) :
    (declared entries : Parameters K M) = ⟨OrderedMap.ofEntries entries⟩ := by
  rw [declared, edited, List.foldl_map, LawfulOrderedMap.ofEntries_eq]
  exact List.foldl_hom Parameters.mk fun _ _ => rfl

include lawful

/-- Lists are read back if their keys are. -/
theorem roundTrip_of_names {fits : K → Prop}
    (names : ∀ key, fits key → L.ReadsName (Key.reader L) key (Key.name L key)) :
    RoundTrip L M fits where
  list edits fit := by
    have once := (edited_recounts (M := M) edits).once
    refine Json.readBack_of_reads lawful (reads lawful ?_) (OrderedMap.entries_ofEntries once)
    intro entry listed
    obtain ⟨key, ports⟩ := fit _ (add_mem_of_mem listed)
    exact ⟨names _ key, ports⟩
  repeated entries fit := by
    refine Json.readBack_of_reads lawful (reads lawful ?_) (declared_eq entries).symm
    exact fun entry listed => ⟨names _ (fit entry listed).1, (fit entry listed).2⟩
  place entries := by
    rw [declared_eq]
    exact OrderedMap.keys_ofEntries entries
  latest entries key := by
    rw [declared_eq]
    exact OrderedMap.get?_ofEntries entries key

end Parameters

omit lawful

/-- **What is written as JSON is read back**, by any lawful library and in any lawful maps:
every parameter list that edits can make, under keys that are strings or integers of 64 bits, and
every configuration.  A text with repeated keys is read as if its entries were declared in turn. -/
theorem forms_roundTrip {M N : Type} [OrderedMap M String Ports] [LawfulOrderedMap M String Ports]
    [OrderedMap N Int Ports] [LawfulOrderedMap N Int Ports] (lawful : L.Lawful) :
    Parameters.RoundTrip L M (fun _ : String => True) ∧ Parameters.RoundTrip L N Key.Fits ∧
      ∀ config : Config, config.Fits →
        Json.ReadBack L (Config.reader L) (config.form L) fun read => read = config :=
  ⟨Parameters.roundTrip_of_names lawful fun key _ => Key.reads_string lawful key,
    Parameters.roundTrip_of_names lawful fun _ fits => Key.reads_integer lawful fits,
    fun _ fits => Json.readBack_of_reads lawful (Config.reads lawful fits) rfl⟩

/-- Ports at both ends of the range. -/
def Ports.extreme : Ports := ⟨⟨Nat.pow 2 64 - 1⟩, ⟨0⟩⟩

/-- In the library that runs: a key that needs escapes, the least integer, a repeated key and the
largest number of passes. -/
theorem extremes_roundTrip :
    let edits : List (Parameters.Edit String) :=
      [.add "" ⟨⟨5⟩, ⟨6⟩⟩, .add "\"\\\n\x01é😀" Ports.extreme, .remove ""]
    let entries : List (Int × Ports) := [(-9223372036854775808, ⟨⟨1⟩, ⟨2⟩⟩), (7, ⟨⟨3⟩, ⟨4⟩⟩),
      (-9223372036854775808, Ports.extreme)]
    let config : Config := ⟨⟨true, false⟩, some (Nat.pow 2 64 - 1)⟩
    Json.standard.Lawful ∧ LawfulOrderedMap (EntryList String Ports) String Ports ∧
      LawfulOrderedMap (EntryList Int Ports) Int Ports ∧
      (∃ read : Parameters String,
        Parameters.parse (Parameters.edited edits : Parameters String).toJson.compactText = .ok read ∧
          read.entries = [("\"\\\n\x01é😀", Ports.extreme)]) ∧
      (∃ read : Parameters Int,
        Parameters.parse (Parameters.formOf Json.standard entries).prettyText = .ok read ∧
          read.entries = [(-9223372036854775808, Ports.extreme), (7, ⟨⟨3⟩, ⟨4⟩⟩)]) ∧
      Config.parse config.toJson.compactText = .ok config := by
  intro edits entries config
  obtain ⟨strings, integers, configs⟩ := forms_roundTrip (M := EntryList String Ports)
    (N := EntryList Int Ports) Json.standard_lawful
  refine ⟨Json.standard_lawful, inferInstance, inferInstance, ?_, ?_, ?_⟩
  · have fit : ∀ edit ∈ edits, edit.Fits fun _ => True := by
      simp [edits, Parameters.Edit.Fits, Ports.Fits, Ports.extreme]
    exact (strings.list edits fit).compact
  · have fit : ∀ entry ∈ entries, Key.Fits entry.1 ∧ entry.2.Fits := by
      simp [entries, Key.Fits, Ports.Fits, Ports.extreme]
    obtain ⟨read, taken, rfl⟩ := (integers.repeated entries fit).pretty
    exact ⟨_, taken, by decide⟩
  · have fit : config.Fits := by
      rintro n ⟨⟩
      decide
    obtain ⟨read, taken, rfl⟩ := (configs config fit).compact
    exact taken

end BlockFlow
