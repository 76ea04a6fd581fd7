/-
# BlockFlow.Distinct -- lists that grow at the end and hold nothing twice

Edge lists and search results list each item once, in the order of its first
arrival.  `add` is the step, `addAll` the step repeated; `mem_add` and `nodup_add` say
what the step does to membership and that it keeps a list free of repeats, and
`addAll_eq_append_filter` says which items all the steps together add.
-/

namespace BlockFlow.Distinct

set_option autoImplicit false

variable {α : Type} [DecidableEq α]

/-- `x` at the end of `xs`, unless `xs` has it already. -/
def add (xs : List α) (x : α) : List α := if x ∈ xs then xs else xs ++ [x]

/-- The items of `ys` added to `xs` in turn. -/
def addAll (xs ys : List α) : List α := ys.foldl add xs

theorem mem_add {xs : List α} {x y : α} : y ∈ add xs x ↔ y ∈ xs ∨ y = x := by
  unfold add
  split
  · constructor
    · exact .inl
    · rintro (h | rfl) <;> assumption
  · simp

theorem nodup_add {xs : List α} (x : α) (h : xs.Nodup) : (add xs x).Nodup := by
  unfold add
  split
  · exact h
  · rename_i absent
    refine List.nodup_append.2 ⟨h, by simp, ?_⟩
    rintro y hy _ hx rfl
    exact absent (List.mem_singleton.1 hx ▸ hy)

theorem mem_addAll {xs ys : List α} {y : α} : y ∈ addAll xs ys ↔ y ∈ xs ∨ y ∈ ys := by
  unfold addAll
  induction ys generalizing xs with
  | nil => simp
  | cons z zs ih => simp [ih, mem_add, or_assoc]

theorem nodup_addAll {xs : List α} (ys : List α) (h : xs.Nodup) : (addAll xs ys).Nodup := by
  unfold addAll
  induction ys generalizing xs with
  | nil => exact h
  | cons z zs ih => exact ih (nodup_add z h)

/-- What a list adds are its items in the order of their first occurrence, less those there. -/
theorem addAll_eq_append_filter (xs ys : List α) :
    addAll xs ys = xs ++ ys.eraseDups.filter (· ∉ xs) := by
  rw [← ys.reverse_reverse]
  induction ys.reverse with
  | nil => simp [addAll]
  | cons y ys ih =>
      have step : addAll xs (ys.reverse ++ [y]) = add (addAll xs ys.reverse) y :=
        List.foldl_append ..
      have known : y ∈ addAll xs ys.reverse ↔ y ∈ xs ∨ y ∈ ys := by
        rw [mem_addAll, List.mem_reverse]
      rw [List.reverse_cons, step, List.eraseDups_append, add]
      simp only [known]
      by_cases old : y ∈ xs <;> by_cases repeated : y ∈ ys <;>
        simp [old, repeated, List.removeAll, List.eraseDups_cons, ih]

/-- Growing a list from nothing keeps the first occurrence of every item. -/
theorem addAll_nil (xs : List α) : addAll [] xs = xs.eraseDups := by
  rw [addAll_eq_append_filter, List.nil_append, List.filter_eq_self.mpr (by simp)]

end BlockFlow.Distinct
