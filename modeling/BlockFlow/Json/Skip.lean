/-
# BlockFlow.Json.Skip -- passing over values of no interest

A value whose content does not matter is passed over, however deep it is nested.  It
still has to be JSON, but its strings are read loosely, its numbers may be of any size,
and a number that ends too early is malformed even at the end of the text.

The brackets that are open around the reading position are kept in a list, innermost
first (`Bracket`).
-/
import BlockFlow.Json.Reader

namespace BlockFlow.Json

set_option autoImplicit false

/-- A bracket that is still open. -/
inductive Bracket where
  | array
  | object
deriving DecidableEq

/-- Pass over at least one digit. -/
def skipDigits (text : List Char) : Except Fault (List Char) :=
  match spanDigits text with
  | ([], _) => .error .malformed
  | (_, rest) => .ok rest

/-- Pass over the exponent of a number, if it has one. -/
def skipExponent (text : List Char) : Except Fault (List Char) :=
  match text with
  | 'e' :: rest => skipDigits (readSign rest).2
  | 'E' :: rest => skipDigits (readSign rest).2
  | _ => .ok text

/-- Pass over the fraction and the exponent of a number, so far as it has them. -/
def skipFraction (text : List Char) : Except Fault (List Char) :=
  match text with
  | '.' :: rest => do skipExponent (← skipDigits rest)
  | _ => skipExponent text

/-- Pass over a number. -/
def skipNumber (text : List Char) : Except Fault (List Char) :=
  let unsigned := match text with
    | '-' :: rest => rest
    | _ => text
  match spanDigits unsigned with
  | ([], _) => .error .malformed
  | ('0' :: _ :: _, _) => .error .malformed
  | (_, rest) => skipFraction rest

/-- Pass over the key of a member and its colon. -/
def skipKey (text : List Char) : Except Fault (List Char) :=
  match skipBlanks text with
  | [] => .error .truncated
  | '"' :: text => do
    let (_, rest) ← readString false text
    match skipBlanks rest with
    | [] => throw .truncated
    | ':' :: rest => return rest
    | _ => throw .malformed
  | _ => .error .malformed

/-- Where reading goes on behind a value: at a further value, inside these brackets, or
behind the outermost one. -/
inductive Onward where
  | value (enclosing : List Bracket) (text : List Char)
  | done (text : List Char)

/-- Behind a complete value: pass over closing brackets up to the next comma. -/
def leaveValue : (enclosing : List Bracket) → List Char → Except Fault Onward
  | [], text => .ok (.done text)
  | .array :: enclosing, text =>
    match skipBlanks text with
    | [] => .error .truncated
    | ',' :: rest => .ok (.value (.array :: enclosing) rest)
    | ']' :: rest => leaveValue enclosing rest
    | _ => .error .malformed
  | .object :: enclosing, text =>
    match skipBlanks text with
    | [] => .error .truncated
    | ',' :: rest => do return .value (.object :: enclosing) (← skipKey rest)
    | '}' :: rest => leaveValue enclosing rest
    | _ => .error .malformed

/-- Behind an opening bracket: the first value inside, or the end of an empty one. -/
def enterBracket (bracket : Bracket) (enclosing : List Bracket) (text : List Char) :
    Except Fault Onward :=
  match bracket, skipBlanks text with
  | _, [] => .error .truncated
  | .array, ']' :: rest => leaveValue enclosing rest
  | .array, rest => .ok (.value (.array :: enclosing) rest)
  | .object, '}' :: rest => leaveValue enclosing rest
  | .object, rest => do return .value (.object :: enclosing) (← skipKey rest)

/-- Pass over the beginning of a value: all of a scalar, or an opening bracket. -/
def skipStart (enclosing : List Bracket) (text : List Char) : Except Fault Onward :=
  match skipBlanks text with
  | [] => .error .truncated
  | '[' :: rest => enterBracket .array enclosing rest
  | '{' :: rest => enterBracket .object enclosing rest
  | 'n' :: rest => do leaveValue enclosing (← expectWord ['u', 'l', 'l'] rest)
  | 't' :: rest => do leaveValue enclosing (← expectWord ['r', 'u', 'e'] rest)
  | 'f' :: rest => do leaveValue enclosing (← expectWord ['a', 'l', 's', 'e'] rest)
  | '"' :: rest => do leaveValue enclosing (← readString false rest).2
  | c :: rest =>
    if c = '-' || c.isDigit then do leaveValue enclosing (← skipNumber (c :: rest))
    else .error .malformed

/-- Pass over values until all brackets are closed, at most `budget` of them. -/
def skipValues : (budget : Nat) → (enclosing : List Bracket) → List Char → Except Fault (List Char)
  | 0, _, _ => .error .truncated
  | budget + 1, enclosing, text => do
    match ← skipStart enclosing text with
    | .done rest => return rest
    | .value enclosing rest => skipValues budget enclosing rest

/-- The text behind a value. -/
def skipValue (text : List Char) : Except Fault (List Char) :=
  skipValues (text.length + 1) [] text

end BlockFlow.Json
