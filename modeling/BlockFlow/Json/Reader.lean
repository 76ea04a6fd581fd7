/-
# BlockFlow.Json.Reader -- tokens of JSON text

Text is read from left to right; what a reader returns is what it read together with
the text behind it.  A reader that fails names one of three faults:

* `truncated`: the text ended inside a value;
* `malformed`: the text is no JSON;
* `mismatch`: it is JSON, but not of the form that was expected there.

This module reads words, strings and numbers.  A string is read strictly or
loosely: strict reading wants surrogates in pairs, loose reading is for strings whose
content does not matter and takes any four hexadecimal digits after `\u`.
-/

namespace BlockFlow.Json

set_option autoImplicit false

/-- What is wrong with a text. -/
inductive Fault where
  | malformed
  | mismatch
  | truncated
deriving DecidableEq

/-- The blanks of JSON: space, tab, line feed and carriage return. -/
def isBlank (c : Char) : Bool := c = ' ' || c = '\t' || c = '\n' || c = '\r'

def skipBlanks (text : List Char) : List Char := text.dropWhile isBlank

/-- The text behind `word`. -/
def expectWord : (word text : List Char) → Except Fault (List Char)
  | [], text => .ok text
  | _ :: _, [] => .error .truncated
  | w :: word, c :: text => if c = w then expectWord word text else .error .malformed

/-! ## Strings -/

/-- The value of a hexadecimal digit. -/
def hexValue (c : Char) : Option Nat :=
  if '0' ≤ c ∧ c ≤ '9' then some (c.toNat - '0'.toNat)
  else if 'a' ≤ c ∧ c ≤ 'f' then some (c.toNat - 'a'.toNat + 10)
  else if 'A' ≤ c ∧ c ≤ 'F' then some (c.toNat - 'A'.toNat + 10)
  else none

/-- How many bytes the characters take in UTF-8. -/
def byteLength (text : List Char) : Nat := text.foldl (fun bytes c => bytes + c.utf8Size) 0

/-- Four hexadecimal digits as a number.  The text is cut short when fewer than four bytes
are left, whatever they are. -/
def readHex (text : List Char) : Except Fault (Nat × List Char) :=
  if byteLength (text.take 4) < 4 then .error .truncated
  else
    match text with
    | a :: b :: c :: d :: rest =>
      match hexValue a, hexValue b, hexValue c, hexValue d with
      | some a, some b, some c, some d => .ok (((a * 16 + b) * 16 + c) * 16 + d, rest)
      | _, _, _, _ => .error .malformed
    | _ => .error .malformed

/-- The letter escapes: what a character after a backslash stands for. -/
def escaped (c : Char) : Option Char :=
  if c = '"' then some '"'
  else if c = '\\' then some '\\'
  else if c = '/' then some '/'
  else if c = 'b' then some '\x08'
  else if c = 'f' then some '\x0c'
  else if c = 'n' then some '\n'
  else if c = 'r' then some '\r'
  else if c = 't' then some '\t'
  else none

/-- Whether `n` is the first half of a surrogate pair. -/
def isHighSurrogate (n : Nat) : Bool := 0xD800 ≤ n && n ≤ 0xDBFF

/-- Whether `n` is the second half of a surrogate pair. -/
def isLowSurrogate (n : Nat) : Bool := 0xDC00 ≤ n && n ≤ 0xDFFF

/-- The second half of a surrogate pair, which has to be a `\u` escape of its own. -/
def readLowSurrogate : List Char → Except Fault (Nat × List Char)
  | [] => .error .truncated
  | '\\' :: [] => .error .truncated
  | '\\' :: 'u' :: text => do
    let (low, rest) ← readHex text
    if isLowSurrogate low then return (low, rest) else throw .malformed
  | _ => .error .malformed

/-- The character of a `\u` escape, from its digits on. -/
def readUnicode (strict : Bool) (text : List Char) : Except Fault (Char × List Char) := do
  let (code, rest) ← readHex text
  if !strict then
    return (Char.ofNat code, rest)
  else if isLowSurrogate code then
    throw .malformed
  else if isHighSurrogate code then
    let (low, rest) ← readLowSurrogate rest
    return (Char.ofNat (0x10000 + (code - 0xD800) * 0x400 + (low - 0xDC00)), rest)
  else
    return (Char.ofNat code, rest)

/-- The character of an escape, from behind its backslash on. -/
def readEscape (strict : Bool) : List Char → Except Fault (Char × List Char)
  | [] => .error .truncated
  | 'u' :: text => readUnicode strict text
  | c :: text =>
    match escaped c with
    | some meant => .ok (meant, text)
    | none => .error .malformed

/-- The characters of a string up to and including its closing quote, at most `budget` of
them. -/
def readCharacters (strict : Bool) :
    (budget : Nat) → List Char → Except Fault (List Char × List Char)
  | _, [] => .error .truncated
  | 0, _ => .error .truncated
  | budget + 1, c :: text =>
    if c = '"' then .ok ([], text)
    else if c = '\\' then do
      let (meant, rest) ← readEscape strict text
      let (others, rest) ← readCharacters strict budget rest
      return (meant :: others, rest)
    else if c.toNat < 0x20 then .error .malformed
    else do
      let (others, rest) ← readCharacters strict budget text
      return (c :: others, rest)

/-- The content of a string, from behind its opening quote on. -/
def readString (strict : Bool) (text : List Char) : Except Fault (List Char × List Char) :=
  readCharacters strict text.length text

/-! ## Numbers

A number is told apart only as far as it may be asked for: natural numbers and
negative integers of 64 bits.  Every other number is a `real` one, also `-0` and
integers out of range.  A real number is read as one of binary64, and a number too
large for that format is malformed. -/

inductive Number where
  /-- An integer written without a sign, below 2^64. -/
  | natural (n : Nat)
  /-- The integer `-n`, with `0 < n ≤ 2^63`. -/
  | negative (n : Nat)
  /-- Any other number. -/
  | real
deriving DecidableEq

def digitValue (c : Char) : Nat := c.toNat - '0'.toNat

/-- The digits `text` begins with and what follows them. -/
def spanDigits (text : List Char) : List Char × List Char := text.span Char.isDigit

/-- Append digits to `n` as long as it stays below 2^64; the second component counts the
digits that did not fit. -/
def appendDigits (n : Nat) : List Char → Nat × Nat
  | [] => (n, 0)
  | d :: rest =>
    let next := n * 10 + digitValue d
    if next < Nat.pow 2 64 then appendDigits next rest else (n, rest.length + 1)

/-- `n` to 53 significant bits, ties to even. -/
def roundBits53 (n : Nat) : Nat :=
  let unit := Nat.pow 2 (n.log2 - 52)
  let low := n / unit * unit
  let excess := 2 * (n - low)
  if excess < unit then low
  else if unit < excess then low + unit
  else if n / unit % 2 = 0 then low
  else low + unit

/-- Whether `significand · 10^exponent`, taken as the product of two numbers of binary64, is
too large for that format. -/
def overflows (significand : Nat) (exponent : Int) : Bool :=
  significand ≠ 0 && 0 ≤ exponent &&
    (308 < exponent ||
      Nat.pow 2 1024 - Nat.pow 2 970 ≤
        roundBits53 significand * roundBits53 (Nat.pow 10 exponent.toNat))

/-- A real number, unless it is too large. -/
def realNumber (significand : Nat) (exponent : Int) (rest : List Char) :
    Except Fault (Number × List Char) :=
  if overflows significand exponent then .error .malformed else .ok (.real, rest)

/-- At least one digit. -/
def readDigits (text : List Char) : Except Fault (List Char × List Char) :=
  match spanDigits text with
  | ([], []) => .error .truncated
  | ([], _ :: _) => .error .malformed
  | (digits, rest) => .ok (digits, rest)

/-- The text behind an optional sign, and whether there was a minus. -/
def readSign : List Char → Bool × List Char
  | '+' :: text => (false, text)
  | '-' :: text => (true, text)
  | text => (false, text)

/-- The exponent of a number, from behind its `e` on.  An exponent that does not fit in
31 bits is fatal only to a number that it would make large. -/
def readExponent (significand : Nat) (exponent : Int) (text : List Char) :
    Except Fault (Number × List Char) := do
  let (negative, unsigned) := readSign text
  let (digits, rest) ← readDigits unsigned
  let shift := (digits.foldl (fun n d => n * 10 + digitValue d) 0 : Nat)
  if Nat.pow 2 31 ≤ shift then
    if significand ≠ 0 ∧ !negative then throw .malformed else return (.real, rest)
  else
    realNumber significand (if negative then exponent - shift else exponent + shift) rest

/-- An exponent, if one follows. -/
def readOptionalExponent (significand : Nat) (exponent : Int) (text : List Char) :
    Except Fault (Number × List Char) :=
  match text with
  | 'e' :: rest => readExponent significand exponent rest
  | 'E' :: rest => readExponent significand exponent rest
  | _ => realNumber significand exponent text

/-- The fraction of a number, from behind its point on. -/
def readFraction (significand : Nat) (exponent : Int) (text : List Char) :
    Except Fault (Number × List Char) := do
  let (digits, rest) ← readDigits text
  let (significand', dropped) := appendDigits significand digits
  readOptionalExponent significand' (exponent - (digits.length - dropped : Nat)) rest

/-- The rest of a number whose integer digits have been read. -/
def readAfterInteger (negative : Bool) (digits text : List Char) :
    Except Fault (Number × List Char) :=
  let (significand, dropped) := appendDigits 0 digits
  match text with
  | '.' :: rest => readFraction significand dropped rest
  | 'e' :: rest => readExponent significand dropped rest
  | 'E' :: rest => readExponent significand dropped rest
  | _ =>
    if dropped ≠ 0 then realNumber significand dropped text
    else if !negative then .ok (.natural significand, text)
    else if 0 < significand ∧ significand ≤ Nat.pow 2 63 then .ok (.negative significand, text)
    else .ok (.real, text)

/-- A number without its sign.  Its integer part has no leading zeros. -/
def readUnsigned (negative : Bool) (text : List Char) : Except Fault (Number × List Char) := do
  match ← readDigits text with
  | ('0' :: _ :: _, _) => throw .malformed
  | (digits, rest) => readAfterInteger negative digits rest

/-- A number. -/
def readNumber : List Char → Except Fault (Number × List Char)
  | '-' :: text => readUnsigned true text
  | text => readUnsigned false text

end BlockFlow.Json
