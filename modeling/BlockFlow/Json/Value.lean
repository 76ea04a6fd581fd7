/-
# BlockFlow.Json.Value -- JSON values and their written forms

Values hold whole numbers only, which is all that is ever written.  Members of an
object keep the order in which they are listed.

* `compact` writes a value without any blanks;
* `pretty` writes one member or item per line, two blanks deeper than the bracket
  around it; an empty object or array stays on its line.

In a string the quote, the backslash and the control characters below U+0020 are
escaped (`escape`), the five with letters of their own by letter and the rest by
number in lower-case hexadecimal; every other character stands for itself.
-/

namespace BlockFlow.Json

set_option autoImplicit false

inductive Value where
  | null
  | bool (b : Bool)
  | number (n : Nat)
  | string (s : String)
  | array (items : List Value)
  | object (members : List (String × Value))

/-- The lower-case hexadecimal digit of `n < 16`. -/
def hexDigit (n : Nat) : Char := Nat.digitChar n

/-- A character as it is written inside a string. -/
def escape (c : Char) : List Char :=
  if c = '"' then ['\\', '"']
  else if c = '\\' then ['\\', '\\']
  else if c = '\x08' then ['\\', 'b']
  else if c = '\x09' then ['\\', 't']
  else if c = '\x0a' then ['\\', 'n']
  else if c = '\x0c' then ['\\', 'f']
  else if c = '\x0d' then ['\\', 'r']
  else if c.toNat < 0x20 then
    ['\\', 'u', '0', '0', hexDigit (c.toNat / 16), hexDigit (c.toNat % 16)]
  else [c]

/-- A string in quotes. -/
def quote (s : String) : List Char := '"' :: s.toList.flatMap escape ++ ['"']

/-- The decimal digits of `n`, without leading zeros. -/
def digits (n : Nat) : List Char := Nat.toDigits 10 n

namespace Value

mutual

/-- The value without blanks. -/
def compact : Value → List Char
  | null => ['n', 'u', 'l', 'l']
  | bool true => ['t', 'r', 'u', 'e']
  | bool false => ['f', 'a', 'l', 's', 'e']
  | number n => digits n
  | string s => quote s
  | array [] => ['[', ']']
  | array (item :: rest) => '[' :: compact item ++ compactItems rest ++ [']']
  | object [] => ['{', '}']
  | object ((key, item) :: rest) =>
    '{' :: quote key ++ ':' :: compact item ++ compactMembers rest ++ ['}']

/-- Further items, each after a comma. -/
def compactItems : List Value → List Char
  | [] => []
  | item :: rest => ',' :: compact item ++ compactItems rest

/-- Further members, each after a comma. -/
def compactMembers : List (String × Value) → List Char
  | [] => []
  | (key, item) :: rest => ',' :: quote key ++ ':' :: compact item ++ compactMembers rest

end

/-- A new line, `depth` levels deep. -/
def newLine (depth : Nat) : List Char := '\n' :: List.replicate (2 * depth) ' '

mutual

/-- The value over several lines, as it stands `depth` levels deep. -/
def prettyAt (depth : Nat) : Value → List Char
  | null => ['n', 'u', 'l', 'l']
  | bool true => ['t', 'r', 'u', 'e']
  | bool false => ['f', 'a', 'l', 's', 'e']
  | number n => digits n
  | string s => quote s
  | array [] => ['[', ']']
  | array (item :: rest) =>
    '[' :: newLine (depth + 1) ++ prettyAt (depth + 1) item ++ prettyItems (depth + 1) rest ++
      newLine depth ++ [']']
  | object [] => ['{', '}']
  | object ((key, item) :: rest) =>
    '{' :: newLine (depth + 1) ++ quote key ++ ':' :: ' ' :: prettyAt (depth + 1) item ++
      prettyMembers (depth + 1) rest ++ newLine depth ++ ['}']

/-- Further items, each after a comma and on a line of its own. -/
def prettyItems (depth : Nat) : List Value → List Char
  | [] => []
  | item :: rest => ',' :: newLine depth ++ prettyAt depth item ++ prettyItems depth rest

/-- Further members, each after a comma and on a line of its own. -/
def prettyMembers (depth : Nat) : List (String × Value) → List Char
  | [] => []
  | (key, item) :: rest =>
    ',' :: newLine depth ++ quote key ++ ':' :: ' ' :: prettyAt depth item ++
      prettyMembers depth rest

end

/-- The value over several lines. -/
def pretty (value : Value) : List Char := prettyAt 0 value

/-- The compact form as a string. -/
def compactText (value : Value) : String := String.ofList value.compact

/-- The form over several lines as a string. -/
def prettyText (value : Value) : String := String.ofList value.pretty

end Value

end BlockFlow.Json
