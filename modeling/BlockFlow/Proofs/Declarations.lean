/-
# BlockFlow.Proofs.Declarations -- parameter lists told by their history

A parameter list is made by edits, each of which declares a key or withdraws one
(`Parameters.Edit`, `Parameters.edited`).  The edits alone say what the list holds.  For a key only
those behind its last withdrawal count (`sinceRemoval`): the key is declared if one of them declares
it, the latest of these gives its ports (`latestPorts?`), and the earliest gives its place among
the keys (`declaredAt?`).

Each edit changes these three answers and the list in the same way, so the list recounts its
history (`edited_recounts`), whichever lawful map it is kept in.  All ways of reading a list
agree (`agrees`).  No key is listed twice, and with that edits are replacement in place, addition
at the end and removal (`takes_of_nodup`), and lists are equivalent if they declare the same
(`OrderedMap.same_iff_get?`).
-/
import BlockFlow.Parameters
import BlockFlow.Proofs.OrderedMaps
import Mathlib.Data.List.DropRight

namespace BlockFlow

set_option autoImplicit false

namespace Parameters

variable {K : Type} [DecidableEq K]

/-! ## Histories -/

/-- A call that changes a parameter list. -/
inductive Edit (K : Type) where
  | add (key : K) (ports : Ports)
  | remove (key : K)

namespace Edit

/-- The key an edit is about. -/
def key : Edit K → K
  | add key _ => key
  | remove key => key

/-- What an edit answers, and the list it leaves. -/
def run {M : Type} [OrderedMap M K Ports] :
    Edit K → Parameters K M → Option Ports × Parameters K M
  | add key ports, params => params.add key ports
  | remove key, params => params.remove key

/-- Whether an edit withdraws `key`. -/
def removes (key : K) : Edit K → Bool
  | add _ _ => false
  | remove k => k = key

/-- The ports with which an edit declares `key`. -/
def declares? (key : K) : Edit K → Option Ports
  | add k ports => if k = key then some ports else none
  | remove _ => none

end Edit

/-- The edits behind the last one that withdraws `key`. -/
def sinceRemoval (key : K) (edits : List (Edit K)) : List (Edit K) :=
  edits.rtakeWhile fun edit => !edit.removes key

/-- The ports with which `key` was declared last, unless it was withdrawn after that. -/
def latestPorts? (key : K) (edits : List (Edit K)) : Option Ports :=
  ((sinceRemoval key edits).filterMap (·.declares? key)).getLast?

/-- How many edits came before the one by which `key` was first declared since it was last
withdrawn. -/
def declaredAt? (key : K) (edits : List (Edit K)) : Option Nat :=
  ((sinceRemoval key edits).findIdx? fun edit => (edit.declares? key).isSome).map
    (edits.length - (sinceRemoval key edits).length + ·)

/-! ## One more edit -/

theorem sinceRemoval_concat (key : K) (edits : List (Edit K)) (edit : Edit K) :
    sinceRemoval key (edits ++ [edit]) =
      if edit.removes key then [] else sinceRemoval key edits ++ [edit] := by
  rw [sinceRemoval, List.rtakeWhile_concat, sinceRemoval]
  cases edit.removes key <;> rfl

theorem length_sinceRemoval_le (key : K) (edits : List (Edit K)) :
    (sinceRemoval key edits).length ≤ edits.length :=
  (List.rtakeWhile_suffix _ edits).length_le

theorem latestPorts?_add (key other : K) (ports : Ports) (edits : List (Edit K)) :
    latestPorts? other (edits ++ [.add key ports]) =
      if key = other then some ports else latestPorts? other edits := by
  rw [latestPorts?, sinceRemoval_concat, if_neg (by simp [Edit.removes]), List.filterMap_append]
  by_cases same : key = other
  · simp [Edit.declares?, same]
  · simp [Edit.declares?, same, latestPorts?]

theorem latestPorts?_remove (key other : K) (edits : List (Edit K)) :
    latestPorts? other (edits ++ [.remove key]) =
      if key = other then none else latestPorts? other edits := by
  rw [latestPorts?, sinceRemoval_concat]
  by_cases same : key = other
  · simp [Edit.removes, same]
  · simp [Edit.removes, Edit.declares?, same, latestPorts?]

theorem declaredAt?_lt {key : K} {edits : List (Edit K)} {i : Nat}
    (declared : declaredAt? key edits = some i) : i < edits.length := by
  obtain ⟨k, found, rfl⟩ := Option.map_eq_some_iff.mp declared
  have inside := (List.findIdx?_eq_some_iff_findIdx_eq.mp found).1
  have := length_sinceRemoval_le key edits
  omega

/-- A key is placed by its first declaration, later ones do not count. -/
theorem declaredAt?_add (key other : K) (ports : Ports) (edits : List (Edit K)) :
    declaredAt? other (edits ++ [.add key ports]) =
      if key = other then (declaredAt? other edits).or (some edits.length)
      else declaredAt? other edits := by
  have shorter := length_sinceRemoval_le other edits
  have before : (edits ++ [Edit.add key ports]).length -
      (sinceRemoval other edits ++ [Edit.add key ports]).length =
        edits.length - (sinceRemoval other edits).length := by
    simp
  rw [declaredAt?, sinceRemoval_concat, if_neg (by simp [Edit.removes]), before,
    List.findIdx?_append, declaredAt?]
  by_cases same : key = other
  · rw [if_pos same]
    cases (sinceRemoval other edits).findIdx? fun edit => (edit.declares? other).isSome with
    | some k => rfl
    | none => simp [Edit.declares?, same, Nat.sub_add_cancel shorter]
  · rw [if_neg same]
    simp [Edit.declares?, same]

theorem declaredAt?_remove (key other : K) (edits : List (Edit K)) :
    declaredAt? other (edits ++ [.remove key]) =
      if key = other then none else declaredAt? other edits := by
  rw [declaredAt?, sinceRemoval_concat]
  by_cases same : key = other
  · simp [Edit.removes, same]
  · simp [Edit.removes, Edit.declares?, same, declaredAt?, List.findIdx?_append]

/-! ## Reading and editing a list -/

variable {M : Type} [OrderedMap M K Ports] [LawfulOrderedMap M K Ports]
variable {params other : Parameters K M}

/-- The list that these edits make out of nothing. -/
def edited (edits : List (Edit K)) : Parameters K M :=
  edits.foldl (fun params edit => (edit.run params).2) empty

omit [DecidableEq K] [LawfulOrderedMap M K Ports] in
theorem edited_concat (edits : List (Edit K)) (edit : Edit K) :
    (edited (edits ++ [edit]) : Parameters K M) = (edit.run (edited edits)).2 := by
  simp [edited]

/-- All ways of reading a list say the same as its entries do. -/
structure Agrees (params : Parameters K M) : Prop where
  get : ∀ key ports, params.get? key = some ports ↔ (key, ports) ∈ params.entries
  contains : ∀ key, params.contains key = true ↔ key ∈ params.keys
  size : params.size = params.keys.length
  isEmpty : params.isEmpty = true ↔ params.keys = []
  /-- The pseudo-nodes are the two of each entry, entry after entry. -/
  pseudoNodes : params.pseudoNodes =
    (params.entries.map fun entry => [entry.2.input, entry.2.output]).flatten

omit [DecidableEq K] in
theorem agrees (params : Parameters K M) : params.Agrees where
  get _ _ := OrderedMap.get?_eq_some_iff
  contains _ := LawfulOrderedMap.contains_iff _ _
  size := by
    rw [size, LawfulOrderedMap.size_eq, keys, OrderedMap.keys, List.length_map]
  isEmpty := by
    rw [isEmpty, LawfulOrderedMap.isEmpty_iff, keys, OrderedMap.keys, List.map_eq_nil_iff]
  pseudoNodes := by
    rw [pseudoNodes, LawfulOrderedMap.values_eq, List.flatMap_def, List.map_map]
    rfl

/-- What edits do to the entries of a list. -/
structure Takes (params : Parameters K M) : Prop where
  /-- An edit answers what was declared before. -/
  answer : ∀ edit : Edit K, (edit.run params).1 = params.get? edit.key
  /-- A declared key keeps its place, another one comes last. -/
  add : ∀ key ports, (params.add key ports).2.entries =
    if params.contains key then
      params.entries.map fun entry => if entry.1 = key then (key, ports) else entry
    else params.entries ++ [(key, ports)]
  /-- The others keep their order. -/
  remove : ∀ key, (params.remove key).2.entries = params.entries.filter (·.1 ≠ key)
  /-- A key that is withdrawn and declared again comes last. -/
  again : ∀ key ports, ((params.remove key).2.add key ports).2.entries =
    params.entries.filter (·.1 ≠ key) ++ [(key, ports)]

theorem takes_of_nodup (nodup : params.keys.Nodup) : params.Takes where
  answer edit := by
    cases edit with
    | add key ports => exact OrderedMap.insert_fst
    | remove key => exact OrderedMap.remove_fst
  add key ports := by
    by_cases declared : params.contains key = true
    · rw [if_pos declared]
      exact OrderedMap.entries_insert_of_mem nodup ((agrees params).contains key |>.mp declared)
    · rw [if_neg declared]
      exact (LawfulOrderedMap.insert_new _ _ _ (mt ((agrees params).contains key).mpr declared)).2
  remove _ := OrderedMap.entries_remove nodup
  again key ports := by
    have absent : key ∉ (params.remove key).2.keys := by
      show key ∉ OrderedMap.keys (OrderedMap.remove params.map key).2
      rw [OrderedMap.keys_remove nodup]
      simp
    exact (LawfulOrderedMap.insert_new _ _ _ absent).2.trans
      (congrArg (· ++ [(key, ports)]) (OrderedMap.entries_remove nodup))

/-! ## Histories told by lists -/

/-- A list recounts the edits that made it. -/
structure Recounts (edits : List (Edit K)) (params : Parameters K M) : Prop where
  /-- Each key is listed once. -/
  once : params.keys.Nodup
  /-- The keys listed are those that are declared, and each has the ports of its latest
  declaration. -/
  latest : ∀ key ports, (key, ports) ∈ params.entries ↔ latestPorts? key edits = some ports
  /-- Each key that is listed has a place in the history. -/
  placed : ∀ key, key ∈ params.keys ↔ (declaredAt? key edits).isSome = true
  /-- A key stands before those that were first declared after it. -/
  inOrder : params.keys.Pairwise fun a b => ∃ i j,
    declaredAt? a edits = some i ∧ declaredAt? b edits = some j ∧ i < j

theorem Recounts.get? {edits : List (Edit K)} (recounts : Recounts edits params) (key : K) :
    params.get? key = latestPorts? key edits :=
  Option.ext fun ports => (params.agrees.get key ports).trans (recounts.latest key ports)

/-- A list with the latest ports under its keys has the latest ports in its entries. -/
theorem latest_of_get? {edits : List (Edit K)}
    (latest : ∀ key, params.get? key = latestPorts? key edits) (key : K) (ports : Ports) :
    (key, ports) ∈ params.entries ↔ latestPorts? key edits = some ports := by
  rw [← latest, params.agrees.get]

/-- A declaration keeps the places that there are. -/
theorem declaredAt?_add_of_some {other : K} {edits : List (Edit K)} {i : Nat} (key : K)
    (ports : Ports) (declared : declaredAt? other edits = some i) :
    declaredAt? other (edits ++ [.add key ports]) = some i := by
  rw [declaredAt?_add, declared]
  split <;> rfl

theorem Recounts.add {edits : List (Edit K)} (recounts : Recounts edits params) (key : K)
    (ports : Ports) : Recounts (edits ++ [.add key ports]) (params.add key ports).2 := by
  have keys : (params.add key ports).2.keys = Distinct.add params.keys key :=
    OrderedMap.keys_insert
  have old : params.keys.Pairwise fun a b => ∃ i j,
      declaredAt? a (edits ++ [.add key ports]) = some i ∧
        declaredAt? b (edits ++ [.add key ports]) = some j ∧ i < j :=
    recounts.inOrder.imp fun ⟨i, j, first, second, before⟩ =>
      ⟨i, j, declaredAt?_add_of_some key ports first, declaredAt?_add_of_some key ports second,
        before⟩
  constructor
  case once => exact keys ▸ Distinct.nodup_add key recounts.once
  case latest =>
    refine latest_of_get? fun other => ?_
    rw [latestPorts?_add, ← recounts.get?]
    exact OrderedMap.get?_insert.trans (if_congr eq_comm rfl rfl)
  case placed =>
    intro other
    rw [keys, Distinct.mem_add, declaredAt?_add]
    by_cases same : key = other
    · subst same
      simp
    · rw [if_neg same, ← recounts.placed]
      simp [Ne.symm same]
  case inOrder =>
    rw [keys, Distinct.add]
    split
    · exact old
    · rename_i fresh
      refine List.pairwise_append.mpr ⟨old, List.pairwise_singleton _ _, ?_⟩
      intro a here b there
      obtain rfl := List.mem_singleton.mp there
      obtain ⟨i, declared⟩ := Option.isSome_iff_exists.mp ((recounts.placed a).mp here)
      have absent : declaredAt? b edits = none :=
        Option.not_isSome_iff_eq_none.mp (mt (recounts.placed b).mpr fresh)
      refine ⟨i, edits.length, declaredAt?_add_of_some b ports declared, ?_,
        declaredAt?_lt declared⟩
      rw [declaredAt?_add, if_pos rfl, absent, Option.none_or]

theorem Recounts.remove {edits : List (Edit K)} (recounts : Recounts edits params) (key : K) :
    Recounts (edits ++ [.remove key]) (params.remove key).2 := by
  have keys : (params.remove key).2.keys = params.keys.filter (· ≠ key) :=
    OrderedMap.keys_remove recounts.once
  constructor
  case once => exact keys ▸ recounts.once.filter _
  case latest =>
    refine latest_of_get? fun other => ?_
    rw [latestPorts?_remove, ← recounts.get?]
    exact (OrderedMap.get?_remove recounts.once).trans (if_congr eq_comm rfl rfl)
  case placed =>
    intro other
    rw [keys, List.mem_filter, declaredAt?_remove, recounts.placed]
    by_cases same : key = other
    · simp [same]
    · simp [same, Ne.symm same]
  case inOrder =>
    rw [keys]
    refine (recounts.inOrder.filter _).imp_of_mem fun {a b} here there ordered => ?_
    have apart {c : K} (kept : c ∈ params.keys.filter (· ≠ key)) : ¬ key = c :=
      fun same => of_decide_eq_true (List.mem_filter.mp kept).2 same.symm
    rwa [declaredAt?_remove, if_neg (apart here), declaredAt?_remove, if_neg (apart there)]

theorem edited_recounts (edits : List (Edit K)) :
    Recounts edits (edited edits : Parameters K M) := by
  induction edits using List.reverseRecOn with
  | nil =>
      have none : (edited [] : Parameters K M).entries = [] := LawfulOrderedMap.entries_empty
      have noKeys : (edited [] : Parameters K M).keys = [] := OrderedMap.keys_empty
      constructor
      case once => exact noKeys ▸ List.nodup_nil
      case inOrder => exact noKeys ▸ List.Pairwise.nil
      all_goals
        simp [none, noKeys, latestPorts?, declaredAt?, sinceRemoval]
  | append_singleton edits edit recounts =>
      rw [edited_concat]
      cases edit with
      | add key ports => exact recounts.add key ports
      | remove key => exact recounts.remove key

/-- Only what was declared is listed. -/
theorem add_mem_of_mem {edits : List (Edit K)} {key : K} {ports : Ports}
    (listed : (key, ports) ∈ (edited edits : Parameters K M).entries) :
    .add key ports ∈ edits := by
  have latest := List.mem_of_getLast? (((edited_recounts edits).latest key ports).mp listed)
  obtain ⟨edit, recent, declares⟩ := List.mem_filterMap.mp latest
  have member : edit ∈ edits := (List.rtakeWhile_suffix _ edits).subset recent
  cases edit with
  | remove k => cases declares
  | add k declared =>
      rw [Edit.declares?, Option.ite_none_right_eq_some] at declares
      obtain ⟨rfl, same⟩ := declares
      obtain rfl := Option.some.inj same
      exact member

/-- **A parameter list is a map that keeps the order of its declarations**, in whichever lawful map
it is kept.  Whatever edits made it, the list recounts them: each declared key is listed once, with
the ports of its latest declaration, and the keys stand in the order in which they were first
declared since they were last withdrawn.  All ways of reading the list say the same, an edit answers
what was declared before it and changes nothing but its own key, and two lists are equivalent
exactly when they declare the same keys with the same ports, whatever the order. -/
theorem edited_isMap (edits : List (Edit K)) :
    Recounts edits (edited edits : Parameters K M) ∧ (edited edits : Parameters K M).Agrees ∧
      (edited edits : Parameters K M).Takes ∧
      ∀ others : List (Edit K), (edited edits : Parameters K M).equiv (edited others) = true ↔
        ∀ key, (edited edits : Parameters K M).get? key =
          (edited others : Parameters K M).get? key := by
  have once := (edited_recounts (M := M) edits).once
  exact ⟨edited_recounts edits, agrees _, takes_of_nodup once,
    fun others => OrderedMap.same_iff_get? once (edited_recounts others).once⟩

/-- A key that is declared again stays where it is, unless it was withdrawn in between; the order
does not count when lists are compared. -/
theorem declaredAgain_isMap :
    let edits : List (Edit Nat) := [.add 1 ⟨⟨0⟩, ⟨1⟩⟩, .add 2 ⟨⟨2⟩, ⟨3⟩⟩, .add 3 ⟨⟨4⟩, ⟨5⟩⟩,
      .add 2 ⟨⟨6⟩, ⟨7⟩⟩, .remove 1, .add 1 ⟨⟨8⟩, ⟨9⟩⟩]
    let others : List (Edit Nat) := [.add 1 ⟨⟨8⟩, ⟨9⟩⟩, .add 3 ⟨⟨4⟩, ⟨5⟩⟩, .add 2 ⟨⟨6⟩, ⟨7⟩⟩]
    let list : Parameters Nat := edited edits
    LawfulOrderedMap (EntryList Nat Ports) Nat Ports ∧ Recounts edits list ∧
      list.entries = [(2, ⟨⟨6⟩, ⟨7⟩⟩), (3, ⟨⟨4⟩, ⟨5⟩⟩), (1, ⟨⟨8⟩, ⟨9⟩⟩)] ∧
      (list.remove 3).1 = some ⟨⟨4⟩, ⟨5⟩⟩ ∧
      ∀ key, list.get? key = (edited others : Parameters Nat).get? key := by
  intro edits others list
  obtain ⟨recounts, -, takes, compare⟩ := edited_isMap (M := EntryList Nat Ports) edits
  exact ⟨inferInstance, recounts, by decide, (takes.answer (.remove 3)).trans (by decide),
    (compare others).mp (by decide)⟩

end Parameters

end BlockFlow
