/-
# BlockFlow.OrderedMap -- maps that keep the order of insertion

Formal parameters are kept in a map that lists its entries in the order in which their keys were
inserted.  Such maps come from elsewhere: `OrderedMap` names the operations, and
`LawfulOrderedMap` says what is relied on, an operation at a time and in terms of the listed
entries.  Whatever is proved about parameters is proved for every lawful map.
-/

namespace BlockFlow

set_option autoImplicit false

/-- The operations of a map from `K` to `V` that keeps the order of insertion. -/
class OrderedMap (M : Type) (K V : outParam Type) where
  empty : M
  /-- Set the value of a key.  The first component is the value it had before. -/
  insert (map : M) (key : K) (value : V) : Option V × M
  /-- Take out a key.  The first component is the value it had. -/
  remove (map : M) (key : K) : Option V × M
  get? (map : M) (key : K) : Option V
  contains (map : M) (key : K) : Bool
  /-- The entries in their order. -/
  entries (map : M) : List (K × V)
  /-- The values in the order of the entries. -/
  values (map : M) : List V
  size (map : M) : Nat
  isEmpty (map : M) : Bool
  /-- Whether two maps compare equal. -/
  same (a b : M) : Bool
  /-- A map made of entries that may repeat keys. -/
  ofEntries (entries : List (K × V)) : M

namespace OrderedMap

variable {M K V : Type} [OrderedMap M K V]

/-- The keys in their order. -/
def keys (map : M) : List K := (entries map).map (·.1)

end OrderedMap

open OrderedMap in
/-- What the operations of a map do to its entries. -/
class LawfulOrderedMap (M : Type) (K V : outParam Type) [OrderedMap M K V] : Prop where
  entries_empty : entries (empty : M) = []
  /-- A key that is there stays where it is and has its value replaced; the old value is
  returned. -/
  insert_listed (map : M) (key : K) (value old : V) (before after : List (K × V)) :
    entries map = before ++ (key, old) :: after →
      (insert map key value).1 = some old ∧
        entries (insert map key value).2 = before ++ (key, value) :: after
  /-- Any other key is inserted last, and nothing is returned. -/
  insert_new (map : M) (key : K) (value : V) : key ∉ keys map →
    (insert map key value).1 = none ∧
      entries (insert map key value).2 = entries map ++ [(key, value)]
  /-- The entries behind the one taken out move up; its value is returned. -/
  remove_listed (map : M) (key : K) (old : V) (before after : List (K × V)) :
    entries map = before ++ (key, old) :: after →
      (remove map key).1 = some old ∧ entries (remove map key).2 = before ++ after
  /-- A key that is not there is not taken out, and nothing is returned. -/
  remove_absent (map : M) (key : K) : key ∉ keys map →
    (remove map key).1 = none ∧ entries (remove map key).2 = entries map
  /-- A key that is there has the value it is listed with. -/
  get?_listed (map : M) (key : K) (value : V) : (key, value) ∈ entries map →
    get? map key = some value
  get?_absent (map : M) (key : K) : key ∉ keys map → get? map key = none
  contains_iff (map : M) (key : K) : contains map key = true ↔ key ∈ keys map
  values_eq (map : M) : values map = (entries map).map (·.2)
  size_eq (map : M) : size map = (entries map).length
  isEmpty_iff (map : M) : isEmpty map = true ↔ entries map = []
  /-- Maps are the same if they have equally many entries and one has all entries of the other,
  wherever they stand. -/
  same_iff (a b : M) : same a b = true ↔
    size a = size b ∧ ∀ key value, (key, value) ∈ entries a → get? b key = some value
  /-- Entries are inserted in turn. -/
  ofEntries_eq (entries : List (K × V)) : (ofEntries entries : M) =
    entries.foldl (fun map entry => (insert map entry.1 entry.2).2) empty

end BlockFlow
