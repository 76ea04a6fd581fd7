/-
# BlockFlow.Json.Library -- what a JSON library offers

How values become text and text becomes values is not settled here: it is up to a library.
`Library` names its operations.  A value is first given a form (`Value`) and then written as text;
a text is read by the reader of a type.  Readers of records and maps are put together from the
readers of their fields and entries.

`Library.Lawful` says what is relied on, an operation at a time.  What a reader makes of a form is
said apart from any text (`Library.Reads`), so that the laws of the readers speak of forms and those
of the text of its grammar (`Writes`).
-/
import BlockFlow.Json.Grammar

namespace BlockFlow.Json

set_option autoImplicit false

/-- A field of a record, as it is read into a draft `δ`. -/
structure RecordField (Reader : Type → Type) (δ : Type) where
  name : String
  /-- Whether the draft has the field already. -/
  isSet : δ → Bool
  /-- Reads the field into the draft. -/
  read : δ → Reader δ

/-- The operations of a library that writes and reads JSON. -/
structure Library where
  /-- The form of a switch. -/
  bool : Bool → Value
  /-- The form of a natural number of 64 bits. -/
  natural : Nat → Value
  /-- The form of a value in a wrapper of its own. -/
  wrapped : Value → Value
  /-- The form of what may be missing. -/
  optional : Option Value → Value
  /-- The form of a record with these fields. -/
  record : List (String × Value) → Value
  /-- The form of a map with these entries, in their order. -/
  map : List (String × Value) → Value
  /-- The name under which a map has a string for a key. -/
  stringName : String → String
  /-- The name under which a map has an integer of 64 bits for a key. -/
  integerName : Int → String
  /-- A form as text without blanks. -/
  compact : Value → String
  /-- A form as text over several lines. -/
  pretty : Value → String
  /-- What reads a type. -/
  Reader : Type → Type
  /-- What reads a type of keys from the names of members. -/
  NameReader : Type → Type
  readBool : Reader Bool
  readNatural : Reader Nat
  readOptional {α : Type} : Reader α → Reader (Option α)
  /-- Reads a value and makes something of it. -/
  readAs {α β : Type} : (α → β) → Reader α → Reader β
  /-- Reads a record: its fields into a draft, and from the draft the value, unless a field is
  missing. -/
  readRecord {δ α : Type} : List (RecordField Reader δ) → δ → (δ → Option α) → Reader α
  /-- Reads the entries of a map in the order in which they are written. -/
  readEntries {κ α : Type} : NameReader κ → Reader α → Reader (List (κ × α))
  readStringName : NameReader String
  readIntegerName : NameReader Int
  /-- Reads a whole text. -/
  parse {α : Type} : Reader α → String → Except Fault α
  /-- What a reader makes of a form. -/
  Reads {α : Type} : Reader α → α → Value → Prop
  /-- What a reader of keys makes of a name. -/
  ReadsName {κ : Type} : NameReader κ → κ → String → Prop

/-- Members that a record takes in one by one, each into the draft the one before it left. -/
inductive Library.Fills (L : Library) {δ : Type} (fields : List (RecordField L.Reader δ)) :
    δ → List (String × Value) → δ → Prop
  | done (draft : δ) : Fills L fields draft [] draft
  | field {draft next last : δ} {name : String} {value : Value} {members : List (String × Value)}
    {field : RecordField L.Reader δ} (known : fields.find? (·.name = name) = some field)
    (free : field.isSet draft = false) (reads : L.Reads (field.read draft) next value)
    (others : Fills L fields next members last) :
    Fills L fields draft ((name, value) :: members) last

/-- What the operations of a library do. -/
structure Library.Lawful (L : Library) : Prop where
  bool_eq (b : Bool) : L.bool b = .bool b
  natural_eq (n : Nat) : L.natural n = .number n
  /-- A wrapper does not show. -/
  wrapped_eq (form : Value) : L.wrapped form = form
  /-- What is missing is null. -/
  optional_none : L.optional none = .null
  optional_some (form : Value) : L.optional (some form) = form
  /-- A record is an object with a member for each field, in the order of the fields. -/
  record_eq (fields : List (String × Value)) : L.record fields = .object fields
  /-- A map is an object with a member for each entry, in the order of the entries. -/
  map_eq (entries : List (String × Value)) : L.map entries = .object entries
  stringName_eq (s : String) : L.stringName s = s
  /-- An integer is named by its decimal form. -/
  integerName_eq (k : Int) : L.integerName k = toString k
  compact_writes (form : Value) : Writes form (L.compact form).toList
  pretty_writes (form : Value) : Writes form (L.pretty form).toList
  reads_bool (b : Bool) : L.Reads L.readBool b (.bool b)
  reads_natural (n : Nat) : n < Nat.pow 2 64 → L.Reads L.readNatural n (.number n)
  /-- Null is what is missing. -/
  reads_null {α : Type} (reader : L.Reader α) : L.Reads (L.readOptional reader) none .null
  /-- Anything else is not. -/
  reads_some {α : Type} (reader : L.Reader α) (x : α) (form : Value) :
    form ≠ .null → L.Reads reader x form → L.Reads (L.readOptional reader) (some x) form
  reads_as {α β : Type} (f : α → β) (reader : L.Reader α) (x : α) (form : Value) :
    L.Reads reader x form → L.Reads (L.readAs f reader) (f x) form
  /-- An object is read as a record member by member, each by the reader of the field of its
  name. -/
  reads_record {δ α : Type} (fields : List (RecordField L.Reader δ)) (draft last : δ)
    (finish : δ → Option α) (x : α) (members : List (String × Value)) :
    L.Fills fields draft members last → finish last = some x →
      L.Reads (L.readRecord fields draft finish) x (.object members)
  /-- An object is read as the entries of a map member by member, in the order of the members. -/
  reads_entries {κ α : Type} (key : L.NameReader κ) (value : L.Reader α) (name : κ → String)
    (form : α → Value) (entries : List (κ × α)) :
    (∀ entry ∈ entries, L.ReadsName key entry.1 (name entry.1)) →
      (∀ entry ∈ entries, L.Reads value entry.2 (form entry.2)) →
        L.Reads (L.readEntries key value) entries
          (.object (entries.map fun entry => (name entry.1, form entry.2)))
  readsName_string (s : String) : L.ReadsName L.readStringName s s
  readsName_integer (k : Int) : -(Nat.pow 2 63 : Int) ≤ k → k < Nat.pow 2 63 →
    L.ReadsName L.readIntegerName k (toString k)
  /-- A text is read as the form that it writes. -/
  parse_written {α : Type} (reader : L.Reader α) (x : α) (form : Value) (text : String) :
    L.Reads reader x form → Writes form text.toList → L.parse reader text = .ok x

end BlockFlow.Json
