import Mathlib.Algebra.BigOperators.Group.Finset.Piecewise
import Mathlib.Algebra.BigOperators.Group.Finset.Sigma
import Mathlib.Algebra.Order.BigOperators.Group.Finset
import Mathlib.Tactic.SplitIfs

/-!
Accounts of one resource over numbered places: a sum of natural numbers in which
one term changes, and what a sum of at most one says about the places.
-/
namespace ColorXv6.Lib.Holdings
open Finset

/-- Changing term `i` replaces `f i` by `g i` in the sum. -/
theorem sum_range_update {n i : Nat} (member : i < n) (f g : Nat → Nat)
    (others : ∀ k, k ≠ i → g k = f k) :
    ∑ k ∈ range n, g k + f i = ∑ k ∈ range n, f k + g i := by
  have rest : ∑ k ∈ (range n).erase i, g k = ∑ k ∈ (range n).erase i, f k :=
    sum_congr rfl fun k inside => others k (ne_of_mem_erase inside)
  rw [← sum_erase_add _ g (mem_range.mpr member), ← sum_erase_add _ f (mem_range.mpr member),
    rest, add_right_comm]

/-- The places that have a property, when only place `i` changes. -/
theorem count_range_update {n i : Nat} (member : i < n) (P Q : Nat → Prop) [DecidablePred P]
    [DecidablePred Q] (others : ∀ k, k ≠ i → (Q k ↔ P k)) :
    ((∑ k ∈ range n, if Q k then 1 else 0 : Nat) : Int) + (if P i then 1 else 0) =
      (∑ k ∈ range n, if P k then 1 else 0 : Nat) + if Q i then 1 else 0 := by
  have total := sum_range_update member (fun k => if P k then 1 else 0)
    (fun k => if Q k then 1 else 0) fun k other => by simp only [others k other]
  split_ifs at total ⊢
  all_goals omega

theorem sum_range_same {n : Nat} (f g : Nat → Nat) (same : ∀ k < n, g k = f k) :
    ∑ k ∈ range n, g k = ∑ k ∈ range n, f k :=
  sum_congr rfl fun k inside => same k (mem_range.mp inside)

/-- Occurrences in a list, position by position. -/
theorem count_eq_sum_range {α : Type} [DecidableEq α] (a : α) (l : List α) :
    l.count a = ∑ i ∈ range l.length, if l[i]? = some a then 1 else 0 := by
  induction l with
  | nil => rfl
  | cons x rest ih =>
    rw [List.length_cons, sum_range_succ', List.count_cons, ih]
    simp

/-- In a sum of zeros and ones that is one, exactly one index counts. -/
theorem existsUnique_of_sum_one {ι : Type} [DecidableEq ι] {s : Finset ι} {P : ι → Prop}
    [DecidablePred P] (one : ∑ i ∈ s, (if P i then 1 else 0) = 1) (inside : ∀ i, P i → i ∈ s) :
    ∃! i, P i := by
  rw [← card_filter, card_eq_one] at one
  obtain ⟨i, only⟩ := one
  have member : ∀ j, P j ↔ j = i := by
    intro j
    constructor
    · intro holds
      have found : j ∈ s.filter P := mem_filter.mpr ⟨inside j holds, holds⟩
      rw [only] at found
      exact mem_singleton.mp found
    · rintro rfl
      have found : j ∈ s.filter P := by
        rw [only]
        exact mem_singleton_self j
      exact (mem_filter.mp found).2
  exact ⟨i, (member i).mpr rfl, fun j holds => (member j).mp holds⟩

/-! References to numbered objects that a running operation has in its local variables. -/

def nobody : Nat → Int := fun _ => 0

def add (held : Nat → Int) (i : Nat) : Nat → Int := fun j => held j + if j = i then 1 else 0

def drop (held : Nat → Int) (i : Nat) : Nat → Int := fun j => held j - if j = i then 1 else 0

@[simp] theorem drop_add (held : Nat → Int) (i : Nat) : drop (add held i) i = held := by
  funext j
  simp [drop, add]

@[simp] theorem add_drop (held : Nat → Int) (i : Nat) : add (drop held i) i = held := by
  funext j
  simp [drop, add]

theorem add_swap (held : Nat → Int) (i j : Nat) : add (add held i) j = add (add held j) i := by
  funext k
  simp only [add]
  omega

theorem drop_add_swap (held : Nat → Int) (i j : Nat) :
    drop (add held i) j = add (drop held j) i := by
  funext k
  simp only [add, drop]
  omega

end ColorXv6.Lib.Holdings
