import Mathlib.Data.List.Basic

/-!
Tables of a fixed number of slots, scanned from the first slot on.
-/
namespace ColorXv6.Lib.Slots

/-- The first of `n` slots that passes a test. -/
def firstSlot (n : Nat) (test : Nat → Bool) : Option Nat := (List.range n).find? test

variable {n i : Nat} {test : Nat → Bool}

theorem firstSlot_some (found : firstSlot n test = some i) : i < n ∧ test i = true := by
  exact ⟨List.mem_range.mp (List.mem_of_find?_eq_some found), List.find?_some found⟩

theorem firstSlot_none : firstSlot n test = none ↔ ∀ i < n, test i = false := by
  unfold firstSlot
  simp

/-- A slot that alone passes the test is the one found. -/
theorem firstSlot_unique (inside : i < n) (passes : test i = true)
    (alone : ∀ j < n, test j = true → j = i) : firstSlot n test = some i := by
  cases found : firstSlot n test with
  | none =>
    rw [firstSlot_none.mp found i inside] at passes
    cases passes
  | some j =>
    obtain ⟨below, other⟩ := firstSlot_some found
    rw [alone j below other]

end ColorXv6.Lib.Slots
