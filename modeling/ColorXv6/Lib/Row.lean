import Mathlib.Algebra.Order.BigOperators.Group.List
import Mathlib.Data.List.Pairwise
import Mathlib.Tactic.Ring

/-!
Things of various lengths laid out one after another. A row says nothing about
where it stands; `place` gives every element its position.
-/
namespace ColorXv6.Lib.Row

variable {β : Type} (len : β → Nat)

def width (row : List β) : Nat := (row.map len).sum

/-- The elements with their positions, from `a` on. -/
def place (a : Nat) : List β → List (Nat × β)
  | [] => []
  | b :: rest => (a, b) :: place (a + len b) rest

variable {len} {a : Nat} {row l r : List β} {x : Nat × β}

@[simp] theorem width_nil : width len ([] : List β) = 0 := rfl

@[simp] theorem width_cons (b : β) : width len (b :: row) = len b + width len row := by
  simp [width]

@[simp] theorem width_append : width len (l ++ r) = width len l + width len r := by
  simp [width]

@[simp] theorem place_nil : place len a ([] : List β) = [] := rfl

@[simp] theorem place_cons (b : β) : place len a (b :: row) = (a, b) :: place len (a + len b) row := rfl

theorem place_append : place len a (l ++ r) = place len a l ++ place len (a + width len l) r := by
  induction l generalizing a with
  | nil => simp
  | cons b l ih =>
    rw [List.cons_append, place_cons, ih, place_cons, width_cons, List.cons_append, Nat.add_assoc]

/-- Every element lies within the row. -/
theorem mem_place (member : x ∈ place len a row) :
    x.2 ∈ row ∧ a ≤ x.1 ∧ x.1 + len x.2 ≤ a + width len row := by
  induction row generalizing a with
  | nil => cases member
  | cons b row ih =>
    rw [width_cons]
    rcases List.mem_cons.mp member with rfl | later
    · exact ⟨by simp, by simp⟩
    · obtain ⟨inside, low, high⟩ := ih later
      exact ⟨by simp [inside], by omega, by omega⟩

/-- A placed element divides the row. -/
theorem place_split (member : x ∈ place len a row) :
    ∃ l r, row = l ++ x.2 :: r ∧ x.1 = a + width len l := by
  induction row generalizing a with
  | nil => cases member
  | cons b row ih =>
    rcases List.mem_cons.mp member with rfl | later
    · exact ⟨[], row, rfl, by simp⟩
    · obtain ⟨l, r, split, position⟩ := ih later
      refine ⟨b :: l, r, by rw [split, List.cons_append], ?_⟩
      rw [position, width_cons, Nat.add_assoc]

/-- Every element begins where those before it end, or later. -/
theorem place_pairwise : (place len a row).Pairwise fun x y => x.1 + len x.2 ≤ y.1 := by
  induction row generalizing a with
  | nil => exact List.Pairwise.nil
  | cons b row ih =>
    refine List.Pairwise.cons ?_ ih
    exact fun y member => (mem_place member).2.1

end ColorXv6.Lib.Row
