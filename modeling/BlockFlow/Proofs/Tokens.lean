/-
# BlockFlow.Proofs.Tokens -- strings and numbers are read as they were written

A string is written with an escape for some of its characters.  Each character, escaped or not, is
read as itself (`readCharacters_escape`), so the string is, whatever it holds
(`readString_quoted`).

A number is written by its decimal digits.  Where a number ends shows only in the text behind it,
which must not go on with what belongs to numbers (`Ends`).  Then the number is read as
itself if it is one of 64 bits (`readNumber_digits`, `readNumber_minus`).
-/
import BlockFlow.Json.Standard
import Mathlib.Data.List.Basic
import Mathlib.Data.List.TakeDrop
import Mathlib.Tactic.SplitIfs

namespace BlockFlow.Json

set_option autoImplicit false

/-! ## Blanks -/

theorem blank_nil : Blank [] := fun _ member => nomatch member

theorem skipBlanks_append {gap : List Char} (blank : Blank gap) (text : List Char) :
    skipBlanks (gap ++ text) = skipBlanks text :=
  List.dropWhile_append_of_pos blank

theorem skipBlanks_cons {c : Char} (token : isBlank c = false) (text : List Char) :
    skipBlanks (c :: text) = c :: text :=
  List.dropWhile_cons_of_neg (Bool.not_eq_true _ ▸ token)

/-! ## Strings -/

theorem hexValue_hexDigit : ∀ d < 16, hexValue (hexDigit d) = some d := by
  decide

theorem utf8Size_hexDigit : ∀ d < 16, (hexDigit d).utf8Size = 1 := by
  decide

/-- The four digits of a control character are its number. -/
theorem readHex_control {n : Nat} (control : n < 0x20) (rest : List Char) :
    readHex ('0' :: '0' :: hexDigit (n / 16) :: hexDigit (n % 16) :: rest) = .ok (n, rest) := by
  have high : n / 16 < 16 := by omega
  have low : n % 16 < 16 := by omega
  have zero : hexValue '0' = some 0 := by decide
  have size : '0'.utf8Size = 1 := by decide
  have bytes : byteLength ['0', '0', hexDigit (n / 16), hexDigit (n % 16)] = 4 := by
    simp [byteLength, size, utf8Size_hexDigit _ high, utf8Size_hexDigit _ low]
  have value : ((0 * 16 + 0) * 16 + n / 16) * 16 + n % 16 = n := by omega
  simp only [readHex, List.take, bytes, zero, hexValue_hexDigit _ high, hexValue_hexDigit _ low,
    value]
  rfl

/-- A control character is read from its number. -/
theorem readUnicode_control (strict : Bool) {c : Char} (control : c.toNat < 0x20)
    (rest : List Char) :
    readUnicode strict ('0' :: '0' :: hexDigit (c.toNat / 16) :: hexDigit (c.toNat % 16) :: rest) =
      .ok (c, rest) := by
  have low : isLowSurrogate c.toNat = false := by
    rw [isLowSurrogate, Bool.and_eq_false_iff]
    exact .inl (decide_eq_false (by omega))
  have high : isHighSurrogate c.toNat = false := by
    rw [isHighSurrogate, Bool.and_eq_false_iff]
    exact .inl (decide_eq_false (by omega))
  rw [readUnicode, readHex_control control]
  simp only [bind, Except.bind, low, high, Char.ofNat_toNat]
  cases strict <;> rfl

/-- Neither quote, backslash nor control character: nothing to escape. -/
theorem escape_eq_self {c : Char} (quote : c ≠ '"') (backslash : c ≠ '\\')
    (control : ¬ c.toNat < 0x20) : escape c = [c] := by
  have apart {d : Char} (escaped : d.toNat < 0x20) : c ≠ d := fun same => control (same ▸ escaped)
  simp only [escape, if_neg quote, if_neg backslash, if_neg control]
  rw [if_neg (apart (by decide)), if_neg (apart (by decide)), if_neg (apart (by decide)),
    if_neg (apart (by decide)), if_neg (apart (by decide))]

/-- A character that is escaped is read from its escape, and every other one may stand in a string
as it is. -/
theorem escape_cases (c : Char) :
    (∃ code, escape c = '\\' :: code ∧
        ∀ strict rest, readEscape strict (code ++ rest) = .ok (c, rest)) ∨
      escape c = [c] ∧ c ≠ '"' ∧ c ≠ '\\' ∧ ¬ c.toNat < 0x20 := by
  by_cases control : c.toNat < 0x20
  · left
    unfold escape
    split_ifs
    case neg => exact ⟨_, rfl, fun strict rest => readUnicode_control strict control rest⟩
    all_goals
      subst c
      exact ⟨_, rfl, fun _ _ => rfl⟩
  · by_cases quote : c = '"'
    · subst c
      exact .inl ⟨_, rfl, fun _ _ => rfl⟩
    · by_cases backslash : c = '\\'
      · subst c
        exact .inl ⟨_, rfl, fun _ _ => rfl⟩
      · exact .inr ⟨escape_eq_self quote backslash control, quote, backslash, control⟩

/-- One more character in a string. -/
theorem readCharacters_escape (strict : Bool) (budget : Nat) (c : Char) {text others : List Char}
    {rest : List Char} (read : readCharacters strict budget text = .ok (others, rest)) :
    readCharacters strict (budget + 1) (escape c ++ text) = .ok (c :: others, rest) := by
  rcases escape_cases c with ⟨code, written, meant⟩ | ⟨written, quote, backslash, control⟩
  · rw [written, List.cons_append, readCharacters, if_neg (by decide), if_pos rfl, meant]
    simp only [bind, Except.bind, read]
    rfl
  · rw [written, List.singleton_append, readCharacters, if_neg quote, if_neg backslash,
      if_neg control]
    simp only [bind, Except.bind, read]
    rfl

theorem readCharacters_quoted (strict : Bool) (s : List Char) (rest : List Char) {budget : Nat}
    (enough : s.length < budget) :
    readCharacters strict budget (s.flatMap escape ++ '"' :: rest) = .ok (s, rest) := by
  induction s generalizing budget with
  | nil =>
      obtain ⟨budget, rfl⟩ : ∃ b, budget = b + 1 := ⟨budget - 1, by simp at enough; omega⟩
      rfl
  | cons c s ih =>
      obtain ⟨budget, rfl⟩ : ∃ b, budget = b + 1 := ⟨budget - 1, by simp at enough; omega⟩
      rw [List.flatMap_cons, List.append_assoc]
      exact readCharacters_escape strict budget c (ih (Nat.lt_of_succ_lt_succ enough))

/-- A string is written with at least one character for each of its own. -/
theorem length_le_flatMap_escape (s : List Char) : s.length ≤ (s.flatMap escape).length := by
  induction s with
  | nil => exact Nat.le_refl 0
  | cons c s ih =>
      have some : 1 ≤ (escape c).length := by
        rcases escape_cases c with ⟨code, written, -⟩ | ⟨written, -⟩ <;> simp [written]
      rw [List.flatMap_cons, List.length_append, List.length_cons]
      omega

/-- **A string is read as it was written**, from behind its opening quote. -/
theorem readString_quoted (strict : Bool) (s : String) (rest : List Char) :
    readString strict (s.toList.flatMap escape ++ '"' :: rest) = .ok (s.toList, rest) := by
  refine readCharacters_quoted strict s.toList rest ?_
  have := length_le_flatMap_escape s.toList
  rw [List.length_append, List.length_cons]
  omega

/-! ## Numbers -/

theorem isDigit_of_mem_digits {n : Nat} {c : Char} (member : c ∈ digits n) : c.isDigit = true :=
  Nat.isDigit_of_mem_toDigits (by decide) (by decide) member

/-- Digits are written in a string as they are. -/
theorem flatMap_escape_digits (n : Nat) : (digits n).flatMap escape = digits n := by
  have each : ∀ c ∈ digits n, escape c = [c] := by
    intro c member
    have digit := isDigit_of_mem_digits member
    have bounds := digit
    rw [Char.isDigit, Bool.and_eq_true, decide_eq_true_iff] at bounds
    have above : 48 ≤ c.toNat := UInt32.le_iff_toNat_le.mp bounds.1
    refine escape_eq_self ?_ ?_ (by omega)
    all_goals
      rintro rfl
      cases digit
  rw [List.flatMap_congr each]
  exact List.flatMap_singleton' _

/-- A number begins with a digit. -/
theorem digits_eq_cons (n : Nat) : ∃ d more, digits n = d :: more ∧ d.isDigit = true := by
  cases written : digits n with
  | nil => exact absurd written Nat.toDigits_ne_nil
  | cons d more => exact ⟨d, more, rfl, isDigit_of_mem_digits (written ▸ List.mem_cons_self)⟩

/-- Only zero begins with a zero. -/
theorem head?_digits {n : Nat} (positive : 0 < n) : (digits n).head? ≠ some '0' := by
  induction n using Nat.strongRecOn with
  | ind n ih =>
      by_cases small : n < 10
      · rw [digits, Nat.toDigits_of_lt_base small]
        simp only [List.head?_cons, ne_eq, Option.some.injEq, Nat.digitChar_eq_zero]
        omega
      · have split : digits n = digits (n / 10) ++ [(n % 10).digitChar] :=
          Nat.toDigits_of_base_le (by decide) (by omega)
        obtain ⟨d, more, written, -⟩ := digits_eq_cons (n / 10)
        have first := ih (n / 10) (by omega) (by omega)
        rw [written] at first
        rwa [split, written]

theorem digits_no_leading_zero (n : Nat) (d : Char) (more : List Char) :
    digits n ≠ '0' :: d :: more := by
  intro written
  rcases Nat.eq_zero_or_pos n with rfl | positive
  · simp [digits] at written
  · exact head?_digits positive (by rw [written]; rfl)

theorem spanDigits_digits (n : Nat) {rest : List Char} (ends : Ends rest) :
    spanDigits (digits n ++ rest) = (digits n, rest) := by
  have all : ∀ c ∈ digits n, c.isDigit = true := fun _ => isDigit_of_mem_digits
  have none : rest.takeWhile Char.isDigit = [] ∧ rest.dropWhile Char.isDigit = rest := by
    cases rest with
    | nil => exact ⟨rfl, rfl⟩
    | cons c rest =>
        have stop : ¬ c.isDigit = true := by simp [(ends c rfl).1]
        exact ⟨List.takeWhile_cons_of_neg stop, List.dropWhile_cons_of_neg stop⟩
  rw [spanDigits, List.span_eq_takeWhile_dropWhile, List.takeWhile_append_of_pos all,
    List.dropWhile_append_of_pos all, none.1, none.2, List.append_nil]

theorem readDigits_digits (n : Nat) {rest : List Char} (ends : Ends rest) :
    readDigits (digits n ++ rest) = .ok (digits n, rest) := by
  obtain ⟨d, more, written, -⟩ := digits_eq_cons n
  rw [readDigits, spanDigits_digits n ends, written]

/-- Digits do not make a number smaller. -/
theorem le_ofDigitChars (text : List Char) (n : Nat) : n ≤ Nat.ofDigitChars 10 text n := by
  induction text generalizing n with
  | nil => exact Nat.le_refl n
  | cons d text ih =>
      rw [Nat.ofDigitChars_cons]
      exact Nat.le_trans (by omega) (ih _)

/-- Digits are taken in as long as their number is one of 64 bits. -/
theorem appendDigits_eq (text : List Char) (n : Nat)
    (fits : Nat.ofDigitChars 10 text n < Nat.pow 2 64) :
    appendDigits n text = (Nat.ofDigitChars 10 text n, 0) := by
  induction text generalizing n with
  | nil => rfl
  | cons d text ih =>
      have next : Nat.ofDigitChars 10 (d :: text) n =
          Nat.ofDigitChars 10 text (n * 10 + digitValue d) := by
        rw [Nat.ofDigitChars_cons, Nat.mul_comm]
        rfl
      rw [next] at fits ⊢
      have small := Nat.lt_of_le_of_lt (le_ofDigitChars text (n * 10 + digitValue d)) fits
      rw [appendDigits]
      simp only [if_pos small, ih _ fits]

theorem appendDigits_digits {n : Nat} (fits : n < Nat.pow 2 64) :
    appendDigits 0 (digits n) = (n, 0) := by
  have value : Nat.ofDigitChars 10 (digits n) 0 = n := Nat.ofDigitChars_ten_toDigits
  rw [appendDigits_eq (digits n) 0 (by rwa [value]), value]

/-- Behind the digits nothing more belongs to the number. -/
theorem readAfterInteger_digits (negative : Bool) {n : Nat} (fits : n < Nat.pow 2 64)
    {rest : List Char} (ends : Ends rest) :
    readAfterInteger negative (digits n) rest =
      .ok (if !negative then .natural n
        else if 0 < n ∧ n ≤ Nat.pow 2 63 then .negative n else .real, rest) := by
  simp only [readAfterInteger, appendDigits_digits fits]
  split
  case h_4 =>
    cases negative with
    | false => rfl
    | true =>
        simp only [ne_eq, not_true_eq_false, if_false, Bool.not_true, Bool.false_eq_true]
        split <;> rfl
  case h_1 => exact absurd rfl (ends '.' rfl).2.1
  case h_2 => exact absurd rfl (ends 'e' rfl).2.2.1
  case h_3 => exact absurd rfl (ends 'E' rfl).2.2.2

/-- A whole number of 64 bits is read up to where it ends. -/
theorem readUnsigned_digits (negative : Bool) {n : Nat} (fits : n < Nat.pow 2 64) {rest : List Char}
    (ends : Ends rest) :
    readUnsigned negative (digits n ++ rest) =
      .ok (if !negative then .natural n
        else if 0 < n ∧ n ≤ Nat.pow 2 63 then .negative n else .real, rest) := by
  rw [← readAfterInteger_digits negative fits ends, readUnsigned, readDigits_digits n ends]
  simp only [bind, Except.bind]
  split
  · rename_i same
    exact absurd (Prod.mk.inj same).1 (digits_no_leading_zero n _ _)
  · rename_i same
    obtain ⟨rfl, rfl⟩ := Prod.mk.inj same
    rfl

/-- **A natural number of 64 bits is read as it was written.** -/
theorem readNumber_digits {n : Nat} (fits : n < Nat.pow 2 64) {rest : List Char}
    (ends : Ends rest) : readNumber (digits n ++ rest) = .ok (.natural n, rest) := by
  obtain ⟨d, more, written, digit⟩ := digits_eq_cons n
  rw [readNumber, readUnsigned_digits false fits ends]
  · rfl
  · intro text same
    obtain ⟨rfl, -⟩ := List.cons.inj ((congrArg (· ++ rest) written).symm.trans same)
    cases digit

/-- **So is a negative one.** -/
theorem readNumber_minus {n : Nat} (positive : 0 < n) (fits : n ≤ Nat.pow 2 63) {rest : List Char}
    (ends : Ends rest) : readNumber ('-' :: (digits n ++ rest)) = .ok (.negative n, rest) := by
  have read := readUnsigned_digits true (Nat.lt_of_le_of_lt fits (by decide)) ends
  rwa [Bool.not_true, if_neg Bool.false_ne_true, if_pos ⟨positive, fits⟩] at read

/-! ## Scalars -/

theorem isBlank_of_isDigit {c : Char} (digit : c.isDigit = true) : isBlank c = false := by
  rw [← Bool.not_eq_true]
  intro blank
  simp only [isBlank, Bool.or_eq_true, decide_eq_true_eq] at blank
  rcases blank with ((rfl | rfl) | rfl) | rfl <;> cases digit

theorem readNatural_digits {gap rest : List Char} {n : Nat} (blank : Blank gap)
    (fits : n < Nat.pow 2 64) (ends : Ends rest) :
    readNatural (gap ++ (digits n ++ rest)) = .ok (n, rest) := by
  have read := readNumber_digits fits ends
  obtain ⟨d, more, written, digit⟩ := digits_eq_cons n
  rw [written] at read ⊢
  rw [List.cons_append] at read ⊢
  rw [readNatural, skipBlanks_append blank, skipBlanks_cons (isBlank_of_isDigit digit)]
  simp only [digit, Bool.or_true, if_true, read]
  rfl

/-! ## Names -/

/-- The closing quote ends a number. -/
theorem ends_quote (rest : List Char) : Ends ('"' :: rest) := by
  rintro _ ⟨⟩
  decide

theorem readIntegerName_digits {n : Nat} (fits : n < Nat.pow 2 63) (rest : List Char) :
    readIntegerName (digits n ++ '"' :: rest) = .ok ((n : Int), rest) := by
  have read := readNumber_digits (Nat.lt_trans fits (by decide)) (ends_quote rest)
  obtain ⟨d, more, written, digit⟩ := digits_eq_cons n
  rw [written, List.cons_append] at read
  rw [written, List.cons_append, readIntegerName]
  simp only [digit, Bool.or_true, if_true, read, bind, Except.bind, integerOf, if_pos fits]
  rfl

theorem readIntegerName_minus {n : Nat} (positive : 0 < n) (fits : n ≤ Nat.pow 2 63)
    (rest : List Char) :
    readIntegerName ('-' :: (digits n ++ '"' :: rest)) = .ok (-(n : Int), rest) := by
  simp only [readIntegerName, decide_true, Bool.true_or, if_true, bind, Except.bind,
    readNumber_minus positive fits (ends_quote rest), integerOf]
  rfl

end BlockFlow.Json
