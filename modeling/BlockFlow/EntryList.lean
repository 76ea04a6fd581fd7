/-
# BlockFlow.EntryList -- maps as lists of their entries

The ordered map that runs is a list of entries that has no key twice.  Its two recursions are
`lookup` and `assign`; each is told by where the list is split at the key (`lookup_listed`,
`assign_listed`), and that makes the list a lawful map.
-/
import BlockFlow.Distinct
import BlockFlow.OrderedMap

namespace BlockFlow

set_option autoImplicit false

/-- Entries in the order in which their keys were inserted, no key twice. -/
structure EntryList (K V : Type) where
  entries : List (K × V)
  distinct : (entries.map (·.1)).Nodup
deriving DecidableEq

namespace EntryList

variable {K V : Type} [DecidableEq K]

/-- The value first listed under `key`. -/
def lookup (key : K) : List (K × V) → Option V
  | [] => none
  | (k, value) :: rest => if k = key then some value else lookup key rest

/-- Replace the value listed under `key`, or list it at the end. -/
def assign (key : K) (value : V) : List (K × V) → List (K × V)
  | [] => [(key, value)]
  | (k, old) :: rest => if k = key then (k, value) :: rest else (k, old) :: assign key value rest

/-- Assigning to a key lists it at the end unless it is listed already. -/
theorem keys_assign (key : K) (value : V) (entries : List (K × V)) :
    (assign key value entries).map (·.1) = Distinct.add (entries.map (·.1)) key := by
  unfold Distinct.add
  induction entries with
  | nil => simp [assign]
  | cons entry rest ih =>
    obtain ⟨k, old⟩ := entry
    by_cases found : k = key
    · simp [assign, found]
    · have apart : ¬ key = k := fun h => found h.symm
      simp only [assign, found, if_false, List.map_cons, ih, List.mem_cons, apart, false_or]
      split <;> rfl

def empty : EntryList K V := ⟨[], List.nodup_nil⟩

def get? (list : EntryList K V) (key : K) : Option V := lookup key list.entries

def insert (list : EntryList K V) (key : K) (value : V) : Option V × EntryList K V :=
  (list.get? key, ⟨assign key value list.entries,
    keys_assign key value list.entries ▸ Distinct.nodup_add key list.distinct⟩)

def remove (list : EntryList K V) (key : K) : Option V × EntryList K V :=
  (list.get? key, ⟨list.entries.eraseP (·.1 = key),
    list.distinct.sublist ((List.eraseP_sublist).map _)⟩)

instance [DecidableEq V] : OrderedMap (EntryList K V) K V where
  empty := empty
  insert := insert
  remove := remove
  get? := get?
  contains list key := (list.get? key).isSome
  entries := EntryList.entries
  values list := list.entries.map (·.2)
  size list := list.entries.length
  isEmpty list := list.entries.isEmpty
  same a b := a.entries.length = b.entries.length &&
    a.entries.all fun entry => b.get? entry.1 = some entry.2
  ofEntries entries := entries.foldl (fun list entry => (list.insert entry.1 entry.2).2) empty

/-! ## Splitting at a key -/

variable {key : K} {value old : V} {before after entries : List (K × V)}

theorem lookup_listed (first : key ∉ before.map (·.1)) :
    lookup key (before ++ (key, value) :: after) = some value := by
  induction before with
  | nil => simp [lookup]
  | cons entry before ih =>
    obtain ⟨apart, later⟩ := not_or.mp (mt List.mem_cons.mpr first)
    simp [lookup, Ne.symm apart, ih later]

theorem lookup_absent (absent : key ∉ entries.map (·.1)) : lookup key entries = none := by
  induction entries with
  | nil => rfl
  | cons entry rest ih =>
    obtain ⟨apart, later⟩ := not_or.mp (mt List.mem_cons.mpr absent)
    simp [lookup, Ne.symm apart, ih later]

theorem assign_listed (first : key ∉ before.map (·.1)) :
    assign key value (before ++ (key, old) :: after) = before ++ (key, value) :: after := by
  induction before with
  | nil => simp [assign]
  | cons entry before ih =>
    obtain ⟨apart, later⟩ := not_or.mp (mt List.mem_cons.mpr first)
    simp [assign, Ne.symm apart, ih later]

theorem assign_absent (absent : key ∉ entries.map (·.1)) :
    assign key value entries = entries ++ [(key, value)] := by
  induction entries with
  | nil => rfl
  | cons entry rest ih =>
    obtain ⟨apart, later⟩ := not_or.mp (mt List.mem_cons.mpr absent)
    simp [assign, Ne.symm apart, ih later]

theorem eraseP_listed (first : key ∉ before.map (·.1)) :
    (before ++ (key, old) :: after).eraseP (·.1 = key) = before ++ after := by
  have others : ∀ entry ∈ before, ¬ decide (entry.1 = key) = true := by
    intro entry member same
    exact first (of_decide_eq_true same ▸ List.mem_map_of_mem member)
  rw [List.eraseP_append_right _ others]
  simp

theorem eraseP_absent (absent : key ∉ entries.map (·.1)) :
    entries.eraseP (·.1 = key) = entries := by
  refine List.eraseP_of_forall_not fun entry member same => absent ?_
  exact of_decide_eq_true same ▸ List.mem_map_of_mem member

omit [DecidableEq K] in
/-- In front of the entry of a key there is no other one. -/
theorem first_of_split {list : EntryList K V} (split : list.entries = before ++ (key, old) :: after) :
    key ∉ before.map (·.1) := by
  have distinct := list.distinct
  rw [split, List.map_append, List.map_cons] at distinct
  exact fun early => (List.nodup_append.mp distinct).2.2 key early key List.mem_cons_self rfl

theorem get?_of_split {list : EntryList K V} (split : list.entries = before ++ (key, old) :: after) :
    list.get? key = some old := by
  rw [get?, split, lookup_listed (first_of_split split)]

theorem get?_of_mem {list : EntryList K V} (member : (key, value) ∈ list.entries) :
    list.get? key = some value := by
  obtain ⟨before, after, split⟩ := List.append_of_mem member
  exact get?_of_split split

theorem get?_isSome_iff {list : EntryList K V} :
    (list.get? key).isSome = true ↔ key ∈ list.entries.map (·.1) := by
  constructor
  · intro found
    refine Decidable.by_contra fun absent => ?_
    rw [get?, lookup_absent absent] at found
    cases found
  · intro member
    obtain ⟨⟨_, value⟩, listed, rfl⟩ := List.mem_map.mp member
    rw [get?_of_mem listed]
    rfl

instance [DecidableEq V] : LawfulOrderedMap (EntryList K V) K V where
  entries_empty := rfl
  insert_listed list key value old before after split := by
    refine ⟨get?_of_split split, ?_⟩
    show assign key value list.entries = _
    rw [show list.entries = _ from split, assign_listed (first_of_split split)]
  insert_new _ _ _ absent := ⟨lookup_absent absent, assign_absent absent⟩
  remove_listed list key old before after split := by
    refine ⟨get?_of_split split, ?_⟩
    show list.entries.eraseP (·.1 = key) = _
    rw [show list.entries = _ from split, eraseP_listed (first_of_split split)]
  remove_absent _ _ absent := ⟨lookup_absent absent, eraseP_absent absent⟩
  get?_listed _ _ _ member := get?_of_mem member
  get?_absent _ _ absent := lookup_absent absent
  contains_iff _ _ := get?_isSome_iff
  values_eq _ := rfl
  size_eq _ := rfl
  isEmpty_iff _ := List.isEmpty_iff
  same_iff a b := by
    show (decide (a.entries.length = b.entries.length) &&
      a.entries.all fun entry => b.get? entry.1 = some entry.2) = true ↔ _
    rw [Bool.and_eq_true, decide_eq_true_iff, List.all_eq_true]
    exact and_congr Iff.rfl
      ⟨fun all key value member => of_decide_eq_true (all (key, value) member),
        fun all entry member => decide_eq_true (all entry.1 entry.2 member)⟩
  ofEntries_eq _ := rfl

end EntryList

end BlockFlow
