/-
# BlockFlow.Json.Grammar -- texts that write a value

A text writes a value if it has the tokens of the value in their order, with any blanks between
them (`Writes`).  Members of an object may repeat a name.
-/
import BlockFlow.Json.Reader
import BlockFlow.Json.Value

namespace BlockFlow.Json

set_option autoImplicit false

/-- Nothing but blanks. -/
def Blank (gap : List Char) : Prop := ∀ c ∈ gap, isBlank c = true

/-- What stands in front of an item or a member. -/
def separator (first : Bool) : List Char := if first then [] else [',']

mutual

/-- A text writes a value. -/
inductive Writes : Value → List Char → Prop
  | null : Writes .null ['n', 'u', 'l', 'l']
  | true : Writes (.bool true) ['t', 'r', 'u', 'e']
  | false : Writes (.bool false) ['f', 'a', 'l', 's', 'e']
  | number (n : Nat) : Writes (.number n) (digits n)
  | string (s : String) : Writes (.string s) (quote s)
  | array {items : List Value} {text : List Char} (inside : WritesItems true items text) :
    Writes (.array items) ('[' :: text)
  | object {members : List (String × Value)} {text : List Char}
    (inside : WritesMembers true members text) : Writes (.object members) ('{' :: text)

/-- A text writes the items of an array up to its closing bracket, from the first one on or behind
an earlier one. -/
inductive WritesItems : (first : Bool) → List Value → List Char → Prop
  | close {first : Bool} {gap : List Char} (blank : Blank gap) : WritesItems first [] (gap ++ [']'])
  | item {first : Bool} {gap gap' text rest : List Char} {item : Value} {items : List Value}
    (before : Blank gap) (after : Blank gap') (value : Writes item text)
    (others : WritesItems false items rest) :
    WritesItems first (item :: items) (gap ++ (separator first ++ (gap' ++ (text ++ rest))))

/-- A text writes the members of an object up to its closing bracket, from the first one on or
behind an earlier one. -/
inductive WritesMembers : (first : Bool) → List (String × Value) → List Char → Prop
  | close {first : Bool} {gap : List Char} (blank : Blank gap) :
    WritesMembers first [] (gap ++ ['}'])
  | member {first : Bool} {gap gap' gap₃ gap₄ text rest : List Char} {key : String} {item : Value}
    {members : List (String × Value)} (before : Blank gap) (after : Blank gap')
    (between : Blank gap₃) (behind : Blank gap₄) (value : Writes item text)
    (others : WritesMembers false members rest) :
    WritesMembers first ((key, item) :: members)
      (gap ++ (separator first ++ (gap' ++ (quote key ++ (gap₃ ++ (':' :: (gap₄ ++
        (text ++ rest))))))))

end

end BlockFlow.Json
