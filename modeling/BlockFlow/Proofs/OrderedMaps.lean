/-
# BlockFlow.Proofs.OrderedMaps -- what follows from the laws of ordered maps

The laws of a map speak of one place in its entries (`LawfulOrderedMap`).  From them each operation
is told as a whole.  Insertion changes the keys as `Distinct.add` does (`keys_insert`), what an
operation returns is what a look-up would have answered (`insert_fst`, `remove_fst`), and a look-up
answers what is listed (`get?_eq_some_iff`).

A map that has no key twice is told by its look-ups up to order, and comparing two such maps
compares their look-ups (`same_iff_get?`): equally many entries, of which one map has all, are all
entries of the other.
-/
import BlockFlow.OrderedMap
import BlockFlow.Distinct
import Mathlib.Data.List.Induction
import Mathlib.Data.List.Nodup
import Mathlib.Data.List.Perm.Subperm

namespace BlockFlow.OrderedMap

set_option autoImplicit false

variable {M K V : Type} [OrderedMap M K V] [LawfulOrderedMap M K V]
variable {map : M} {key other : K} {value : V}

open LawfulOrderedMap

/-! ## Looking up -/

omit [LawfulOrderedMap M K V] in
/-- Where a key is listed the entries are split. -/
theorem exists_split (listed : key ∈ keys map) :
    ∃ before old after, entries map = before ++ (key, old) :: after := by
  obtain ⟨⟨_, old⟩, member, rfl⟩ := List.mem_map.mp listed
  obtain ⟨before, after, split⟩ := List.append_of_mem member
  exact ⟨before, old, after, split⟩

omit [LawfulOrderedMap M K V] in
theorem key_mem_of_mem (member : (key, value) ∈ entries map) : key ∈ keys map :=
  List.mem_map.mpr ⟨(key, value), member, rfl⟩

theorem get?_eq_some_iff : get? map key = some value ↔ (key, value) ∈ entries map := by
  constructor
  · intro found
    by_cases listed : key ∈ keys map
    · obtain ⟨before, old, after, split⟩ := exists_split listed
      have member : (key, old) ∈ entries map := by simp [split]
      rw [get?_listed _ _ _ member] at found
      obtain rfl := Option.some.inj found
      exact member
    · rw [get?_absent _ _ listed] at found
      cases found
  · exact get?_listed _ _ _

/-! ## Comparing -/

/-- **Maps are the same if they answer alike**, whatever the order of their entries. -/
theorem same_iff_get? {a b : M} (distinct : (keys a).Nodup) (distinct' : (keys b).Nodup) :
    same a b = true ↔ ∀ key, get? a key = get? b key := by
  have once : (entries a).Nodup := List.Nodup.of_map _ distinct
  have once' : (entries b).Nodup := List.Nodup.of_map _ distinct'
  rw [same_iff, size_eq, size_eq]
  constructor
  · rintro ⟨length, listed⟩ key
    have subset : entries a ⊆ entries b := fun entry member =>
      get?_eq_some_iff.mp (listed entry.1 entry.2 member)
    have perm := (List.subperm_of_subset once subset).perm_of_length_le (Nat.le_of_eq length.symm)
    refine Option.ext fun value => ?_
    rw [get?_eq_some_iff, get?_eq_some_iff, perm.mem_iff]
  · intro alike
    have perm : (entries a).Perm (entries b) :=
      (List.perm_ext_iff_of_nodup once once').mpr fun ⟨key, value⟩ => by
        rw [← get?_eq_some_iff, ← get?_eq_some_iff, alike]
    refine ⟨perm.length_eq, fun key value member => ?_⟩
    rw [← alike, get?_eq_some_iff]
    exact member

/-! ## Insertion and removal -/

theorem insert_fst : (insert map key value).1 = get? map key := by
  by_cases listed : key ∈ keys map
  · obtain ⟨before, old, after, split⟩ := exists_split listed
    rw [(insert_listed _ _ _ _ _ _ split).1, get?_listed map key old (by simp [split])]
  · rw [(insert_new _ _ _ listed).1, get?_absent _ _ listed]

theorem remove_fst : (remove map key).1 = get? map key := by
  by_cases listed : key ∈ keys map
  · obtain ⟨before, old, after, split⟩ := exists_split listed
    rw [(remove_listed _ _ _ _ _ split).1, get?_listed map key old (by simp [split])]
  · rw [(remove_absent _ _ listed).1, get?_absent _ _ listed]

theorem keys_empty : keys (empty : M) = [] := by
  rw [keys, entries_empty, List.map_nil]

variable [DecidableEq K]

/-- Insertion lists a key at the end unless it is listed already. -/
theorem keys_insert : keys (insert map key value).2 = Distinct.add (keys map) key := by
  unfold Distinct.add
  split
  · rename_i listed
    obtain ⟨before, old, after, split⟩ := exists_split listed
    rw [keys, (insert_listed _ _ _ _ _ _ split).2, keys, split]
    simp
  · rename_i absent
    rw [keys, (insert_new _ _ _ absent).2, List.map_append]
    rfl

theorem get?_insert :
    get? (insert map key value).2 other = if other = key then some value else get? map other := by
  by_cases same : other = key
  · rw [if_pos same, same]
    refine get?_listed _ _ _ ?_
    by_cases listed : key ∈ keys map
    · obtain ⟨before, old, after, split⟩ := exists_split listed
      simp [(insert_listed _ _ value _ _ _ split).2]
    · simp [(insert_new _ _ value listed).2]
  · rw [if_neg same]
    refine Option.ext fun found => ?_
    rw [get?_eq_some_iff, get?_eq_some_iff]
    by_cases listed : key ∈ keys map
    · obtain ⟨before, old, after, split⟩ := exists_split listed
      rw [(insert_listed _ _ value _ _ _ split).2, split]
      simp [same]
    · simp [(insert_new _ _ value listed).2, same]

/-! ## Maps that have no key twice -/

section Distinct

variable (distinct : (keys map).Nodup)

include distinct

omit [LawfulOrderedMap M K V] [DecidableEq K] in
/-- Around the entry of a key there is no other one. -/
theorem apart_of_split {before after : List (K × V)}
    (split : entries map = before ++ (key, value) :: after) :
    (∀ entry ∈ before, entry.1 ≠ key) ∧ ∀ entry ∈ after, entry.1 ≠ key := by
  rw [keys, split, List.map_append, List.map_cons] at distinct
  obtain ⟨-, behind, apart⟩ := List.nodup_append.mp distinct
  refine ⟨fun entry member => ?_, fun entry member same => ?_⟩
  · exact apart _ (List.mem_map_of_mem member) _ List.mem_cons_self
  · exact (List.nodup_cons.mp behind).1 (List.mem_map.mpr ⟨entry, member, same⟩)

/-- Inserting a key that is listed replaces its value where it stands. -/
theorem entries_insert_of_mem (listed : key ∈ keys map) :
    entries (insert map key value).2 =
      (entries map).map fun entry => if entry.1 = key then (key, value) else entry := by
  obtain ⟨before, old, after, split⟩ := exists_split listed
  obtain ⟨front, behind⟩ := apart_of_split distinct split
  rw [(insert_listed _ _ _ _ _ _ split).2, split, List.map_append, List.map_cons, if_pos rfl,
    List.map_congr_left fun entry member => if_neg (front entry member),
    List.map_congr_left fun entry member => if_neg (behind entry member), List.map_id',
    List.map_id']

/-- Removal keeps all entries but that of the key. -/
theorem entries_remove : entries (remove map key).2 = (entries map).filter (·.1 ≠ key) := by
  by_cases listed : key ∈ keys map
  · obtain ⟨before, old, after, split⟩ := exists_split listed
    obtain ⟨front, behind⟩ := apart_of_split distinct split
    rw [(remove_listed _ _ _ _ _ split).2, split, List.filter_append,
      List.filter_cons_of_neg (by simp),
      List.filter_eq_self.mpr fun entry member => decide_eq_true (front entry member),
      List.filter_eq_self.mpr fun entry member => decide_eq_true (behind entry member)]
  · rw [(remove_absent _ _ listed).2, List.filter_eq_self.mpr]
    rintro ⟨other, value⟩ member
    refine decide_eq_true fun same => listed ?_
    exact same ▸ key_mem_of_mem member

theorem keys_remove : keys (remove map key).2 = (keys map).filter (· ≠ key) := by
  rw [keys, entries_remove distinct, keys, List.filter_map]
  rfl

theorem get?_remove :
    get? (remove map key).2 other = if other = key then none else get? map other := by
  refine Option.ext fun value => ?_
  rw [get?_eq_some_iff, entries_remove distinct, List.mem_filter, decide_eq_true_iff]
  by_cases same : other = key
  · simp [same]
  · simp [same, get?_eq_some_iff]

end Distinct

/-! ## Maps made of entries -/

omit [DecidableEq K] in
theorem ofEntries_concat (listed : List (K × V)) (key : K) (value : V) :
    (ofEntries (listed ++ [(key, value)]) : M) = (insert (ofEntries listed : M) key value).2 := by
  rw [ofEntries_eq, ofEntries_eq, List.foldl_concat]

/-- Each key is listed where it comes first. -/
theorem keys_ofEntries (listed : List (K × V)) :
    keys (ofEntries listed : M) = (listed.map (·.1)).eraseDups := by
  rw [← Distinct.addAll_nil]
  induction listed using List.reverseRecOn with
  | nil => rw [ofEntries_eq, List.foldl_nil, keys_empty]; rfl
  | append_singleton listed entry ih =>
      rw [ofEntries_concat, keys_insert, ih, List.map_append, List.map_singleton, Distinct.addAll,
        Distinct.addAll, List.foldl_concat]

/-- Each key has the value it comes with last. -/
theorem get?_ofEntries (listed : List (K × V)) (key : K) :
    get? (ofEntries listed : M) key = listed.reverse.lookup key := by
  induction listed using List.reverseRecOn with
  | nil => exact get?_absent _ _ (by rw [ofEntries_eq, List.foldl_nil, keys_empty]; simp)
  | append_singleton listed entry ih =>
      obtain ⟨k, value⟩ := entry
      rw [ofEntries_concat, get?_insert, ih, List.reverse_concat, List.lookup_cons]
      by_cases same : key = k
      · simp [same]
      · rw [if_neg same, beq_false_of_ne same]

omit [DecidableEq K] in
/-- Entries without repeats are listed as they are. -/
theorem entries_ofEntries {listed : List (K × V)} (distinct : (listed.map (·.1)).Nodup) :
    entries (ofEntries listed : M) = listed := by
  induction listed using List.reverseRecOn with
  | nil => rw [ofEntries_eq, List.foldl_nil, entries_empty]
  | append_singleton listed entry ih =>
      obtain ⟨key, value⟩ := entry
      rw [List.map_append, List.map_singleton] at distinct
      obtain ⟨distinct, -, apart⟩ := List.nodup_append.mp distinct
      have listing := ih distinct
      have absent : key ∉ keys (ofEntries listed : M) := by
        rw [keys, listing]
        exact fun repeated => apart _ repeated _ (List.mem_singleton_self _) rfl
      rw [ofEntries_concat, (insert_new _ _ _ absent).2, listing]

end BlockFlow.OrderedMap
