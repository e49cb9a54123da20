import Mathlib.Tactic.Linarith
import Mathlib.Tactic.Ring

/-!
The multiples of a fraction rounded to the nearest integer, halves up, and how to go from one to
the next by the sign of an error term.
-/
namespace ColorXv6.Lib.Rounding

/-- `k * rise / run`, rounded. -/
def rounded (run rise k : Int) : Int := (2 * rise * k + run) / (2 * run)

/-- Twice the distance from the next multiple to the half after the current integer. -/
def excess (run rise k : Int) : Int := 2 * rise * (k + 1) - run * (2 * rounded run rise k + 1)

section
variable {run rise k : Int} (positive : 0 < run)
include positive

/-- The rounded value is at most a half away. -/
theorem rounded_near : run * (2 * rounded run rise k) ≤ 2 * rise * k + run ∧
    2 * rise * k < run * (2 * rounded run rise k + 1) := by
  obtain ⟨low, high⟩ : rounded run rise k * (2 * run) ≤ 2 * rise * k + run ∧
      2 * rise * k + run < rounded run rise k * (2 * run) + 2 * run :=
    (Int.ediv_eq_iff_of_pos (by omega : 0 < 2 * run)).mp rfl
  constructor <;> nlinarith

theorem rounded_eq_iff {r : Int} : rounded run rise k = r ↔
    run * (2 * r) ≤ 2 * rise * k + run ∧ 2 * rise * k < run * (2 * r + 1) := by
  constructor
  · rintro rfl
    exact rounded_near positive
  · rintro ⟨low, high⟩
    exact (Int.ediv_eq_iff_of_pos (by omega : 0 < 2 * run)).mpr ⟨by nlinarith, by nlinarith⟩

theorem rounded_zero : rounded run rise 0 = 0 :=
  (rounded_eq_iff positive).mpr ⟨by omega, by omega⟩

theorem excess_zero : excess run rise 0 = 2 * rise - run := by
  unfold excess
  rw [rounded_zero positive]
  ring

/-- All the way along. -/
theorem rounded_run : rounded run rise run = rise :=
  (rounded_eq_iff positive).mpr ⟨by nlinarith, by nlinarith⟩

/-- The error term stays between its two increments. -/
theorem excess_bounds : 2 * rise - 2 * run ≤ excess run rise k ∧ excess run rise k < 2 * rise := by
  obtain ⟨under, upper⟩ := @rounded_near run rise k positive
  unfold excess
  constructor <;> nlinarith

theorem rounded_nonneg (low : 0 ≤ rise) (start : 0 ≤ k) : 0 ≤ rounded run rise k :=
  Int.ediv_nonneg (by nlinarith [mul_nonneg low start]) (by omega)

theorem rounded_le (low : 0 ≤ rise) (inside : k ≤ run) : rounded run rise k ≤ rise := by
  obtain ⟨under, -⟩ := @rounded_near run rise k positive
  by_contra above
  nlinarith

variable (low : 0 ≤ rise) (flat : rise ≤ run)
include low flat

/-- The sign of the error term tells whether the next value is one more. -/
theorem rounded_succ : rounded run rise (k + 1) =
    if 0 ≤ excess run rise k then rounded run rise k + 1 else rounded run rise k := by
  obtain ⟨under, upper⟩ := @rounded_near run rise k positive
  rw [rounded_eq_iff positive]
  unfold excess
  split
  · rename_i reached
    constructor <;> nlinarith
  · rename_i short
    constructor <;> nlinarith

theorem excess_succ : excess run rise (k + 1) =
    if 0 ≤ excess run rise k then excess run rise k + (2 * rise - 2 * run)
    else excess run rise k + 2 * rise := by
  have next := rounded_succ (k := k) positive low flat
  unfold excess at next ⊢
  rw [next]
  split <;> ring

end

end ColorXv6.Lib.Rounding
