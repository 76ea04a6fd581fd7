/-
# BlockFlow.Json.Record -- reading values of an expected form

A reader for a form looks at the first character of a value to see whether the value
can be of that form.  A scalar of another kind is still read to its end, so a fault
inside it comes before the mismatch; an array or object that is not expected is a
mismatch at once (`unexpected`).

A record may be written as an object, with its fields under their names, or as an
array of its fields in order.  In an object unknown members are passed over, and a
field that comes twice is a mismatch as soon as its second name has been read.
`record` reads both into a *draft*, which `finish` turns into a value unless a field
is missing.
-/
import BlockFlow.Json.Library
import BlockFlow.Json.Skip

namespace BlockFlow.Json

set_option autoImplicit false

/-- A reader takes a value from the front of a text. -/
abbrev TextReader (α : Type) := List Char → Except Fault (α × List Char)

/-- The fault of a value that is not of the form expected. -/
def unexpected (text : List Char) : Fault :=
  let after {α : Type} : Except Fault α → Fault
    | .ok _ => .mismatch
    | .error fault => fault
  match text with
  | [] => .truncated
  | '[' :: _ => .mismatch
  | '{' :: _ => .mismatch
  | 'n' :: rest => after (expectWord ['u', 'l', 'l'] rest)
  | 't' :: rest => after (expectWord ['r', 'u', 'e'] rest)
  | 'f' :: rest => after (expectWord ['a', 'l', 's', 'e'] rest)
  | '"' :: rest => after (readString true rest)
  | c :: rest => if c = '-' || c.isDigit then after (readNumber (c :: rest)) else .malformed

/-! ## Scalars -/

/-- A natural number of 64 bits. -/
def readNatural : TextReader Nat := fun text =>
  match skipBlanks text with
  | [] => .error .truncated
  | c :: rest =>
    if c = '-' || c.isDigit then do
      match ← readNumber (c :: rest) with
      | (.natural n, rest) => return (n, rest)
      | _ => throw .mismatch
    else .error (unexpected (c :: rest))

def readBool : TextReader Bool := fun text =>
  match skipBlanks text with
  | 't' :: rest => do return (true, ← expectWord ['r', 'u', 'e'] rest)
  | 'f' :: rest => do return (false, ← expectWord ['a', 'l', 's', 'e'] rest)
  | other => .error (unexpected other)

/-- What `read` reads, or `null`. -/
def readOptional {α : Type} (read : TextReader α) : TextReader (Option α) := fun text =>
  match skipBlanks text with
  | 'n' :: rest => do return (none, ← expectWord ['u', 'l', 'l'] rest)
  | other => do
    let (value, rest) ← read other
    return (some value, rest)

/-- What `f` makes of the value that `read` reads. -/
def readAs {α β : Type} (f : α → β) (read : TextReader α) : TextReader β := fun text => do
  let (value, rest) ← read text
  return (f value, rest)

/-! ## Names -/

/-- A string that names a member, from behind its opening quote. -/
def readStringName : TextReader String := fun text => do
  let (name, rest) ← readString true text
  return (String.ofList name, rest)

/-- The integer that a number of 64 bits stands for. -/
def integerOf : Number → Option Int
  | .natural n => if n < Nat.pow 2 63 then some n else none
  | .negative n => some (-n)
  | .real => none

/-- An integer that names a member, and the closing quote right behind it. -/
def readIntegerName : TextReader Int
  | [] => .error .malformed
  | c :: rest =>
    if c = '-' || c.isDigit then do
      let (number, rest) ← readNumber (c :: rest)
      match integerOf number with
      | none => throw .mismatch
      | some key =>
        match rest with
        | '"' :: rest => return (key, rest)
        | _ => throw .malformed
    else .error .malformed

/-! ## Members and items -/

/-- The text behind the colon that follows a key. -/
def readColon (text : List Char) : Except Fault (List Char) :=
  match skipBlanks text with
  | [] => .error .truncated
  | ':' :: rest => .ok rest
  | _ => .error .malformed

/-- What comes next inside a bracket. -/
inductive Next where
  /-- A further member or item; for a member, the text begins behind the quote of its key. -/
  | more (text : List Char)
  /-- The closing bracket, and the text behind it. -/
  | close (text : List Char)

/-- The next member of an object. -/
def nextMember (first : Bool) (text : List Char) : Except Fault Next :=
  match skipBlanks text with
  | [] => .error .truncated
  | '}' :: rest => .ok (.close rest)
  | '"' :: rest => if first then .ok (.more rest) else .error .malformed
  | ',' :: rest =>
    if first then .error .malformed
    else
      match skipBlanks rest with
      | [] => .error .truncated
      | '"' :: rest => .ok (.more rest)
      | _ => .error .malformed
  | _ => .error .malformed

/-- The next item of an array. -/
def nextItem (first : Bool) (text : List Char) : Except Fault Next :=
  match skipBlanks text with
  | [] => .error .truncated
  | ']' :: rest => .ok (.close rest)
  | c :: rest =>
    if first then .ok (.more (c :: rest))
    else if c = ',' then
      match skipBlanks rest with
      | [] => .error .truncated
      | ']' :: _ => .error .malformed
      | other => .ok (.more other)
    else .error .malformed

/-! ## Records -/

variable {δ α : Type}

/-- The members of an object up to its closing bracket, at most `budget` of them. -/
def readMembers (fields : List (RecordField TextReader δ)) :
    (budget : Nat) → (first : Bool) → δ → TextReader δ
  | 0, _, _, _ => .error .truncated
  | budget + 1, first, draft, text => do
    match ← nextMember first text with
    | .close rest => return (draft, rest)
    | .more rest =>
      let (key, rest) ← readString true rest
      match fields.find? (·.name.toList = key) with
      | none =>
        let rest ← skipValue (← readColon rest)
        readMembers fields budget false draft rest
      | some field =>
        if field.isSet draft then throw .mismatch
        else
          let (draft, rest) ← field.read draft (← readColon rest)
          readMembers fields budget false draft rest

/-- The fields of an array in order.  The array may end early, and then what follows it is
returned; it may not go on. -/
def readItems : List (RecordField TextReader δ) → (first : Bool) → δ → TextReader δ
  | [], _, draft, text =>
    match skipBlanks text with
    | [] => .error .truncated
    | ']' :: rest => .ok (draft, rest)
    | _ => .error .malformed
  | field :: fields, first, draft, text => do
    match ← nextItem first text with
    | .close rest => return (draft, rest)
    | .more rest =>
      let (draft, rest) ← field.read draft rest
      readItems fields false draft rest

/-- A record with the given fields, written as an object or as an array. -/
def readRecord (fields : List (RecordField TextReader δ)) (draft : δ) (finish : δ → Option α) :
    TextReader α := fun text => do
  let (draft, rest) ←
    match skipBlanks text with
    | '{' :: rest => readMembers fields (rest.length + 1) true draft rest
    | '[' :: rest => readItems fields true draft rest
    | other => .error (unexpected other)
  match finish draft with
  | some value => return (value, rest)
  | none => throw .mismatch

/-! ## Maps -/

/-- The entries of an object up to its closing bracket, at most `budget` of them.  Keys are
read from behind their opening quote. -/
def readEntriesWithin {κ : Type} (key : TextReader κ) (value : TextReader α) :
    (budget : Nat) → (first : Bool) → TextReader (List (κ × α))
  | 0, _, _ => .error .truncated
  | budget + 1, first, text => do
    match ← nextMember first text with
    | .close rest => return ([], rest)
    | .more rest =>
      let (k, rest) ← key rest
      let (v, rest) ← value (← readColon rest)
      let (entries, rest) ← readEntriesWithin key value budget false rest
      return ((k, v) :: entries, rest)

/-- The entries of an object, in the order in which they are written. -/
def readEntries {κ : Type} (key : TextReader κ) (value : TextReader α) :
    TextReader (List (κ × α)) := fun text =>
  match skipBlanks text with
  | '{' :: rest => readEntriesWithin key value (rest.length + 1) true rest
  | other => .error (unexpected other)

/-- Read a whole text as one value: nothing but blanks may follow it. -/
def parse (read : TextReader α) (text : String) : Except Fault α := do
  let (value, rest) ← read text.toList
  if (skipBlanks rest).isEmpty then return value else throw .malformed

end BlockFlow.Json
