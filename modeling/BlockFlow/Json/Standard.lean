/-
# BlockFlow.Json.Standard -- the JSON library that runs

The readers of `BlockFlow.Json.Record` and the writers of `BlockFlow.Json.Value` make a library.  Its
readers stand at the front of a text, so what they make of a form is said for all places in which
the form can stand: behind any blanks, and in front of anything that a number does not go on
with (`Ends`).
-/
import BlockFlow.Json.Record

namespace BlockFlow.Json

set_option autoImplicit false

/-- A number in front of this text ends where the text begins. -/
def Ends (rest : List Char) : Prop :=
  ∀ c ∈ rest.head?, c.isDigit = false ∧ c ≠ '.' ∧ c ≠ 'e' ∧ c ≠ 'E'

/-- A reader reads `value` as `x`, behind any blanks and up to where the value ends. -/
def Reads {α : Type} (read : TextReader α) (x : α) (value : Value) : Prop :=
  ∀ gap text rest : List Char, Blank gap → Writes value text → Ends rest →
    read (gap ++ (text ++ rest)) = .ok (x, rest)

/-- A reader reads the name of a member, from behind its opening quote, as `key`. -/
def ReadsName {κ : Type} (read : TextReader κ) (key : κ) (name : String) : Prop :=
  ∀ rest, read (name.toList.flatMap escape ++ '"' :: rest) = .ok (key, rest)

/-- Texts read from left to right, in one pass. -/
def standard : Library where
  bool := .bool
  natural := .number
  wrapped := id
  optional form := form.getD .null
  record := .object
  map := .object
  stringName := id
  integerName := toString
  compact := Value.compactText
  pretty := Value.prettyText
  Reader := TextReader
  NameReader := TextReader
  readBool := readBool
  readNatural := readNatural
  readOptional := readOptional
  readAs := readAs
  readRecord := readRecord
  readEntries := readEntries
  readStringName := readStringName
  readIntegerName := readIntegerName
  parse := parse
  Reads := Reads
  ReadsName := ReadsName

end BlockFlow.Json
