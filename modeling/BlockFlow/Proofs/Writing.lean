/-
# BlockFlow.Proofs.Writing -- values are read as they were written

The compact form of a value and the one over several lines are texts that write it
(`writes_compact`, `writes_prettyAt`).  The readers read what such texts write (`Reads`).  Records
and maps are put together from the readers of their fields and entries: a record takes in the
members it finds one by one (`readMembers_written`), a map lists them
(`readEntriesWithin_written`).

So the library that runs satisfies the laws of a library (`standard_lawful`).
-/
import BlockFlow.Proofs.Tokens

namespace BlockFlow.Json

set_option autoImplicit false

/-! ## Written forms -/

mutual

/-- **The compact form writes the value.** -/
theorem writes_compact : (value : Value) → Writes value value.compact
  | .null => .null
  | .bool true => .true
  | .bool false => .false
  | .number n => .number n
  | .string s => .string s
  | .array [] => .array (.close blank_nil)
  | .array (item :: items) => by
      have inside : WritesItems true (item :: items) _ :=
        .item blank_nil blank_nil (writes_compact item) (writes_compactItems items)
      simpa [Value.compact, separator] using Writes.array inside
  | .object [] => .object (.close blank_nil)
  | .object ((key, item) :: members) => by
      have inside : WritesMembers true ((key, item) :: members) _ :=
        .member blank_nil blank_nil blank_nil blank_nil (writes_compact item)
          (writes_compactMembers members)
      simpa [Value.compact, separator] using Writes.object inside

theorem writes_compactItems : (items : List Value) →
    WritesItems false items (Value.compactItems items ++ [']'])
  | [] => .close blank_nil
  | item :: items => by
      have here : WritesItems false (item :: items) _ :=
        .item blank_nil blank_nil (writes_compact item) (writes_compactItems items)
      simpa [Value.compactItems, separator] using here

theorem writes_compactMembers : (members : List (String × Value)) →
    WritesMembers false members (Value.compactMembers members ++ ['}'])
  | [] => .close blank_nil
  | (key, item) :: members => by
      have here : WritesMembers false ((key, item) :: members) _ :=
        .member blank_nil blank_nil blank_nil blank_nil (writes_compact item)
          (writes_compactMembers members)
      simpa [Value.compactMembers, separator] using here

end

theorem blank_newLine (depth : Nat) : Blank (Value.newLine depth) := by
  intro c member
  rcases List.mem_cons.mp member with rfl | member
  · rfl
  · rw [List.eq_of_mem_replicate member]
    rfl

theorem blank_space : Blank [' '] := by
  intro c member
  rw [List.mem_singleton.mp member]
  rfl

mutual

/-- **The form over several lines writes the value**, however deep it stands. -/
theorem writes_prettyAt (depth : Nat) : (value : Value) → Writes value (value.prettyAt depth)
  | .null => .null
  | .bool true => .true
  | .bool false => .false
  | .number n => .number n
  | .string s => .string s
  | .array [] => .array (.close blank_nil)
  | .array (item :: items) => by
      have inside : WritesItems true (item :: items) _ :=
        .item blank_nil (blank_newLine (depth + 1)) (writes_prettyAt (depth + 1) item)
          (writes_prettyItems (depth + 1) (blank_newLine depth) items)
      simpa [Value.prettyAt, separator] using Writes.array inside
  | .object [] => .object (.close blank_nil)
  | .object ((key, item) :: members) => by
      have inside : WritesMembers true ((key, item) :: members) _ :=
        .member blank_nil (blank_newLine (depth + 1)) blank_nil blank_space
          (writes_prettyAt (depth + 1) item)
          (writes_prettyMembers (depth + 1) (blank_newLine depth) members)
      simpa [Value.prettyAt, separator] using Writes.object inside

theorem writes_prettyItems (depth : Nat) {gap : List Char} (blank : Blank gap) :
    (items : List Value) → WritesItems false items (Value.prettyItems depth items ++ (gap ++ [']']))
  | [] => .close blank
  | item :: items => by
      have here : WritesItems false (item :: items) _ :=
        .item blank_nil (blank_newLine depth) (writes_prettyAt depth item)
          (writes_prettyItems depth blank items)
      simpa [Value.prettyItems, separator] using here

theorem writes_prettyMembers (depth : Nat) {gap : List Char} (blank : Blank gap) :
    (members : List (String × Value)) →
      WritesMembers false members (Value.prettyMembers depth members ++ (gap ++ ['}']))
  | [] => .close blank
  | (key, item) :: members => by
      have here : WritesMembers false ((key, item) :: members) _ :=
        .member blank_nil (blank_newLine depth) blank_nil blank_space (writes_prettyAt depth item)
          (writes_prettyMembers depth blank members)
      simpa [Value.prettyMembers, separator] using here

end

/-! ## Reading what is written -/

theorem reads_natural {n : Nat} (fits : n < Nat.pow 2 64) : Reads readNatural n (.number n) := by
  rintro gap _ rest blank ⟨⟩ ends
  exact readNatural_digits blank fits ends

theorem reads_bool (b : Bool) : Reads readBool b (.bool b) := by
  intro gap text rest blank writes _
  rw [readBool, skipBlanks_append blank]
  cases writes <;> rfl

theorem Reads.map {α β : Type} {read : TextReader α} {x : α} {value : Value}
    (reads : Reads read x value) (f : α → β) : Reads (readAs f read) (f x) value := by
  intro gap text rest blank writes ends
  simp only [readAs, reads gap text rest blank writes ends, bind, Except.bind]
  rfl

theorem reads_null {α : Type} (read : TextReader α) : Reads (readOptional read) none .null := by
  rintro gap _ rest blank ⟨⟩ -
  rw [readOptional, skipBlanks_append blank]
  rfl

/-- Only null begins as `null` does. -/
theorem exists_head {value : Value} {text : List Char} (writes : Writes value text)
    (present : value ≠ .null) : ∃ c more, text = c :: more ∧ isBlank c = false ∧ c ≠ 'n' := by
  cases writes with
  | null => exact absurd rfl present
  | number n =>
      obtain ⟨d, more, written, digit⟩ := digits_eq_cons n
      refine ⟨d, more, written, isBlank_of_isDigit digit, ?_⟩
      rintro rfl
      cases digit
  | true | false | string | array | object => exact ⟨_, _, rfl, by decide, by decide⟩

theorem Reads.optional {α : Type} {read : TextReader α} {x : α} {value : Value}
    (reads : Reads read x value) (present : value ≠ .null) :
    Reads (readOptional read) (some x) value := by
  intro gap text rest blank writes ends
  have taken := reads [] text rest blank_nil writes ends
  obtain ⟨c, more, rfl, token, other⟩ := exists_head writes present
  rw [List.nil_append, List.cons_append] at taken
  rw [readOptional, skipBlanks_append blank, List.cons_append, skipBlanks_cons token]
  split
  · rename_i same
    exact absurd (List.cons.inj same).1 other
  · simp only [taken, bind, Except.bind]
    rfl

/-! ## Members -/

theorem ends_cons {c : Char} (outside : c.isDigit = false ∧ c ≠ '.' ∧ c ≠ 'e' ∧ c ≠ 'E')
    (rest : List Char) : Ends (c :: rest) := by
  rintro _ ⟨⟩
  exact outside

/-- Blanks end a number. -/
theorem ends_append {gap : List Char} (blank : Blank gap) {rest : List Char} (ends : Ends rest) :
    Ends (gap ++ rest) := by
  cases gap with
  | nil => exact ends
  | cons c gap =>
      have here := blank c List.mem_cons_self
      simp only [isBlank, Bool.or_eq_true, decide_eq_true_eq] at here
      refine ends_cons ?_ _
      rcases here with ((rfl | rfl) | rfl) | rfl <;> decide

/-- What follows a member ends a number. -/
theorem ends_members {members : List (String × Value)} {text : List Char}
    (writes : WritesMembers false members text) (rest : List Char) : Ends (text ++ rest) := by
  cases writes with
  | close blank =>
      rw [List.append_assoc]
      exact ends_append blank (ends_cons (by decide) _)
  | member before =>
      rw [List.append_assoc]
      exact ends_append before (ends_cons (by decide) _)

theorem length_lt_members {first : Bool} {members : List (String × Value)} {text : List Char}
    (writes : WritesMembers first members text) : members.length < text.length := by
  induction members generalizing first text with
  | nil =>
      cases writes
      simp
  | cons member members ih =>
      cases writes with
      | member _ _ _ _ _ others =>
          have := ih others
          simp only [List.length_cons, List.length_append]
          omega

theorem nextMember_close (first : Bool) {gap : List Char} (blank : Blank gap) (rest : List Char) :
    nextMember first (gap ++ '}' :: rest) = .ok (.close rest) := by
  rw [nextMember, skipBlanks_append blank]
  rfl

theorem nextMember_more (first : Bool) {gap gap' : List Char} (before : Blank gap)
    (after : Blank gap') (rest : List Char) :
    nextMember first (gap ++ (separator first ++ (gap' ++ '"' :: rest))) = .ok (.more rest) := by
  rw [nextMember, skipBlanks_append before]
  cases first with
  | true =>
      rw [separator, if_pos rfl, List.nil_append, skipBlanks_append after]
      rfl
  | false =>
      rw [separator, if_neg Bool.false_ne_true, List.singleton_append, skipBlanks_cons (by decide)]
      simp only [skipBlanks_append after]
      rfl

theorem readColon_written {gap : List Char} (blank : Blank gap) (rest : List Char) :
    readColon (gap ++ ':' :: rest) = .ok rest := by
  rw [readColon, skipBlanks_append blank]
  rfl

/-! ## Records -/

/-- A field is found by the characters of its name. -/
theorem find?_toList {δ : Type} (fields : List (RecordField TextReader δ)) (name : String) :
    fields.find? (·.name.toList = name.toList) = fields.find? (·.name = name) :=
  congrArg (List.find? · fields) (funext fun _ => decide_eq_decide.mpr String.toList_inj)

/-- A member is read into the draft by the field of its name. -/
theorem readMembers_field {δ : Type} {fields : List (RecordField TextReader δ)}
    {field : RecordField TextReader δ} {draft next : δ} {name : String} {value : Value}
    {members : List (String × Value)} (known : fields.find? (·.name = name) = some field)
    (free : field.isSet draft = false) (reads : Reads (field.read draft) next value)
    (first : Bool) {gap gap' gap₃ gap₄ text others : List Char} (before : Blank gap)
    (after : Blank gap') (between : Blank gap₃) (behind : Blank gap₄) (writes : Writes value text)
    (later : WritesMembers false members others) (budget : Nat) (rest : List Char) :
    readMembers fields (budget + 1) first draft (gap ++ (separator first ++ (gap' ++
      (quote name ++ (gap₃ ++ (':' :: (gap₄ ++ (text ++ others))))))) ++ rest) =
        readMembers fields budget false next (others ++ rest) := by
  have taken := reads _ _ _ behind writes (ends_members later rest)
  simp only [quote, List.append_assoc, List.cons_append, List.nil_append]
  rw [readMembers, nextMember_more first before after]
  simp only [bind, Except.bind, readString_quoted, find?_toList, known, free, Bool.false_eq_true,
    if_false, readColon_written between, taken]

/-- The members that are written are taken in. -/
theorem readMembers_written {δ : Type} {fields : List (RecordField TextReader δ)} {draft last : δ}
    {members : List (String × Value)} (fills : standard.Fills fields draft members last)
    {first : Bool} {text : List Char} (writes : WritesMembers first members text) {budget : Nat}
    (enough : members.length < budget) (rest : List Char) :
    readMembers fields budget first draft (text ++ rest) = .ok (last, rest) := by
  induction fills generalizing first text budget with
  | done draft =>
      obtain ⟨budget, rfl⟩ := Nat.exists_eq_add_of_lt enough
      cases writes with
      | close blank =>
          rw [List.append_assoc, List.singleton_append, readMembers, nextMember_close first blank]
          rfl
  | field known free reads _ ih =>
      obtain ⟨budget, rfl⟩ := Nat.exists_eq_add_of_lt enough
      cases writes with
      | member before after between behind written later =>
          rw [readMembers_field known free reads first before after between behind written later]
          exact ih later (by simp only [List.length_cons]; omega)

/-- **A record is read from the members that fill it.** -/
theorem reads_record {δ α : Type} {fields : List (RecordField TextReader δ)} {draft last : δ}
    {finish : δ → Option α} {x : α} {members : List (String × Value)}
    (fills : standard.Fills fields draft members last) (finished : finish last = some x) :
    Reads (readRecord fields draft finish) x (.object members) := by
  rintro gap _ rest blank ⟨⟩ -
  rename_i text inside
  have enough : members.length < (text ++ rest).length + 1 := by
    have := length_lt_members inside
    rw [List.length_append]
    omega
  rw [readRecord, skipBlanks_append blank, List.cons_append, skipBlanks_cons (by decide)]
  simp only [bind, Except.bind, readMembers_written fills inside enough rest, finished]
  rfl

/-! ## Maps -/

theorem readEntriesWithin_written {κ α : Type} {key : TextReader κ} {value : TextReader α}
    {name : κ → String} {form : α → Value} {entries : List (κ × α)}
    (names : ∀ entry ∈ entries, ReadsName key entry.1 (name entry.1))
    (values : ∀ entry ∈ entries, Reads value entry.2 (form entry.2)) {first : Bool}
    {text : List Char}
    (writes : WritesMembers first (entries.map fun entry => (name entry.1, form entry.2)) text)
    {budget : Nat} (enough : entries.length < budget) (rest : List Char) :
    readEntriesWithin key value budget first (text ++ rest) = .ok (entries, rest) := by
  induction entries generalizing first text budget with
  | nil =>
      obtain ⟨budget, rfl⟩ := Nat.exists_eq_add_of_lt enough
      cases writes with
      | close blank =>
          rw [List.append_assoc, List.singleton_append, readEntriesWithin, nextMember_close first blank]
          rfl
  | cons entry entries ih =>
      obtain ⟨budget, rfl⟩ := Nat.exists_eq_add_of_lt enough
      obtain ⟨named, names⟩ := List.forall_mem_cons.mp names
      obtain ⟨read, values⟩ := List.forall_mem_cons.mp values
      cases writes with
      | member before after between behind written later =>
          have taken := read _ _ _ behind written (ends_members later rest)
          have onward := ih names values later
            (show entries.length < (entry :: entries).length + budget by
              rw [List.length_cons]; omega)
          simp only [quote, List.append_assoc, List.cons_append, List.nil_append]
          rw [readEntriesWithin, nextMember_more first before after]
          simp only [bind, Except.bind, named _, readColon_written between, taken, onward]
          rfl

/-- **A map is read as the list of its entries**, in the order in which they are written. -/
theorem reads_entries {κ α : Type} {key : TextReader κ} {value : TextReader α}
    {name : κ → String} {form : α → Value} {entries : List (κ × α)}
    (names : ∀ entry ∈ entries, ReadsName key entry.1 (name entry.1))
    (values : ∀ entry ∈ entries, Reads value entry.2 (form entry.2)) :
    Reads (readEntries key value) entries
      (.object (entries.map fun entry => (name entry.1, form entry.2))) := by
  rintro gap _ rest blank ⟨⟩ -
  rename_i text inside
  have enough : entries.length < (text ++ rest).length + 1 := by
    have := length_lt_members inside
    rw [List.length_map] at this
    rw [List.length_append]
    omega
  rw [readEntries, skipBlanks_append blank, List.cons_append, skipBlanks_cons (by decide)]
  exact readEntriesWithin_written names values inside enough rest

/-! ## Names -/

theorem readsName_string (s : String) : ReadsName readStringName s s := by
  intro rest
  simp only [readStringName, readString_quoted true s rest, bind, Except.bind, String.ofList_toList]
  rfl

/-- An integer is named by its digits, behind a minus if it is negative. -/
theorem toList_toString (k : Int) : (toString k).toList =
    if k < 0 then '-' :: digits k.natAbs else digits k.natAbs := by
  cases k with
  | ofNat n => simp [toString, Int.repr, Nat.repr, digits]
  | negSucc n => simp [toString, Int.repr, Nat.repr, digits]

theorem readsName_integer {k : Int} (low : -(Nat.pow 2 63 : Int) ≤ k) (high : k < Nat.pow 2 63) :
    ReadsName readIntegerName k (toString k) := by
  intro rest
  rw [toList_toString]
  split
  · have value : -(k.natAbs : Int) = k := by omega
    have escaped : ('-' :: digits k.natAbs).flatMap escape = '-' :: digits k.natAbs := by
      rw [List.flatMap_cons, flatMap_escape_digits]
      rfl
    rw [escaped, List.cons_append, readIntegerName_minus (by omega) (by omega), value]
  · have value : (k.natAbs : Int) = k := by omega
    rw [flatMap_escape_digits, readIntegerName_digits (by omega), value]

/-! ## Whole texts -/

/-- **A whole text that writes a value is read as the value.** -/
theorem parse_written {α : Type} {read : TextReader α} {x : α} {value : Value}
    (reads : Reads read x value) {text : String} (writes : Writes value text.toList) :
    parse read text = .ok x := by
  have whole := reads [] text.toList [] blank_nil writes fun _ none => nomatch none
  rw [List.nil_append, List.append_nil] at whole
  simp only [parse, whole, bind, Except.bind]
  rfl

/-- **The library that runs does what a library is to do.** -/
theorem standard_lawful : standard.Lawful where
  bool_eq _ := rfl
  natural_eq _ := rfl
  wrapped_eq _ := rfl
  optional_none := rfl
  optional_some _ := rfl
  record_eq _ := rfl
  map_eq _ := rfl
  stringName_eq _ := rfl
  integerName_eq _ := rfl
  compact_writes form := by
    show Writes form (String.ofList form.compact).toList
    rw [String.toList_ofList]
    exact writes_compact form
  pretty_writes form := by
    show Writes form (String.ofList (form.prettyAt 0)).toList
    rw [String.toList_ofList]
    exact writes_prettyAt 0 form
  reads_bool := reads_bool
  reads_natural _ := reads_natural
  reads_null := reads_null
  reads_some _ _ _ present reads := Reads.optional reads present
  reads_as f _ _ _ reads := Reads.map reads f
  reads_record _ _ _ _ _ _ := reads_record
  reads_entries _ _ _ _ _ := reads_entries
  readsName_string := readsName_string
  readsName_integer _ := readsName_integer
  parse_written _ _ _ _ reads writes := parse_written reads writes

end BlockFlow.Json
