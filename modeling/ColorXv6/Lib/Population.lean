import Mathlib.Algebra.Order.BigOperators.Group.List
import Mathlib.Algebra.Order.Ring.Nat

/-!
A population of processes, given as the list of their local states, and the
total of a weight over it. One process moves at a time (`List.set`); a wakeup
maps every process. A count of processes is a total of 0/1 weights.
-/
namespace ColorXv6.Lib.Population

variable {π : Type}

def total (weight : π → Nat) (procs : List π) : Nat := (procs.map weight).sum

theorem total_set (weight : π → Nat) (procs : List π) (i : Nat) (old new : π)
    (here : procs[i]? = some old) :
    total weight (procs.set i new) + weight old = total weight procs + weight new := by
  induction procs generalizing i with
  | nil => simp at here
  | cons p rest ih =>
    cases i with
    | zero =>
      simp only [List.getElem?_cons_zero, Option.some.injEq] at here
      subst here
      simp only [total, List.set_cons_zero, List.map_cons, List.sum_cons]
      omega
    | succ i =>
      have moved := ih i (by simpa using here)
      simp only [total, List.set_cons_succ, List.map_cons, List.sum_cons] at moved ⊢
      omega

theorem total_map (weight : π → Nat) (procs : List π) (f : π → π)
    (same : ∀ p, weight (f p) = weight p) : total weight (procs.map f) = total weight procs := by
  simp only [total, List.map_map]
  congr 1
  exact List.map_congr_left (fun p _ => same p)

theorem total_le (light heavy : π → Nat) (procs : List π) (le : ∀ p, light p ≤ heavy p) :
    total light procs ≤ total heavy procs :=
  List.sum_le_sum (fun p _ => le p)

theorem weight_le_total (weight : π → Nat) (procs : List π) (i : Nat) (p : π)
    (here : procs[i]? = some p) : weight p ≤ total weight procs := by
  have member : p ∈ procs := List.mem_of_getElem? here
  exact List.single_le_sum (fun _ _ => Nat.zero_le _) _ (List.mem_map_of_mem member)

theorem weight_eq_zero (weight : π → Nat) (procs : List π) (none : total weight procs = 0)
    (p : π) (member : p ∈ procs) : weight p = 0 := by
  obtain ⟨i, bound, here⟩ := List.mem_iff_getElem.mp member
  have le := weight_le_total weight procs i p (by rw [List.getElem?_eq_getElem bound, here])
  omega

end ColorXv6.Lib.Population
