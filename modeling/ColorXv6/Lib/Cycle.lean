import Mathlib.Data.List.Basic

/-!
Singly linked lists that come back to their first node. The links are a function;
a list of nodes says in which order it goes through them.
-/
namespace ColorXv6.Lib.Cycle

variable {α : Type} {next after : α → α} {home : α}

/-- `next` goes through the nodes in order, and from the last to `home`. -/
def Linked (next : α → α) (home : α) : List α → Prop
  | [] => True
  | a :: rest => next a = rest.headD home ∧ Linked next home rest

variable {l : List α} {a : α}

theorem linked_append {r : List α} :
    Linked next home (l ++ r) ↔ Linked next (r.headD home) l ∧ Linked next home r := by
  induction l with
  | nil => simp [Linked]
  | cons a l ih =>
    cases l with
    | nil => simp [Linked]
    | cons b l =>
      simp only [List.cons_append, Linked, List.headD_cons] at ih ⊢
      simp only [ih, and_assoc]

theorem Linked.congr (linked : Linked next home l) (same : ∀ a ∈ l, after a = next a) :
    Linked after home l := by
  induction l with
  | nil => trivial
  | cons a l ih =>
    refine ⟨(same a (by simp)).trans linked.1, ih linked.2 ?_⟩
    exact fun b member => same b (by simp [member])

/-- A node leads to the one after it, or home. -/
theorem Linked.next_eq {r : List α} (linked : Linked next home (l ++ a :: r)) :
    next a = r.headD home :=
  (linked_append.mp linked).2.1

/-- From a node to the next, which is home or right after it. -/
theorem Linked.next_cases (linked : Linked next home l) (member : a ∈ l) :
    next a = home ∨ ∃ before rest, l = before ++ a :: next a :: rest := by
  obtain ⟨before, rest, rfl⟩ := List.append_of_mem member
  have follows := linked.next_eq
  cases rest with
  | nil => exact Or.inl follows
  | cons b rest =>
    right
    refine ⟨before, rest, ?_⟩
    rw [follows, List.headD_cons]

/-- The links lead from `a` through these nodes. -/
def Trail (next : α → α) : α → List α → Prop
  | _, [] => True
  | a, b :: rest => next a = b ∧ Trail next b rest

theorem Trail.append {r : List α} {b : α} (first : Trail next a (l ++ [b]))
    (second : Trail next b r) : Trail next a (l ++ b :: r) := by
  induction l generalizing a with
  | nil => exact ⟨first.1, second⟩
  | cons c l ih => exact ⟨first.1, ih first.2⟩

theorem Linked.trail (linked : Linked next home (a :: l)) :
    Trail next a (l ++ [home]) := by
  induction l generalizing a with
  | nil => exact ⟨linked.1, trivial⟩
  | cons b l ih => exact ⟨linked.1, ih linked.2⟩

/-- Around the cycle, from any node back to it. -/
theorem Linked.around {nodes before rest : List α} (linked : Linked next home (home :: nodes))
    (split : home :: nodes = before ++ a :: rest) : Trail next a (rest ++ before ++ [a]) := by
  rw [split] at linked
  obtain ⟨front, back⟩ := linked_append.mp linked
  cases before with
  | nil =>
    cases split
    simpa using back.trail
  | cons b before =>
    cases split
    simpa using back.trail.append front.trail

end ColorXv6.Lib.Cycle
