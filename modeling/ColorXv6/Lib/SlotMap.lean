import ColorXv6.Lib.Slots
import Mathlib.Logic.Function.Basic

/-!
Maps kept in a row of slots. A key is looked for from the first slot on; a new binding takes the
first empty slot or one past the end, and a removed binding leaves its slot empty. As long as no
key is in two slots, the row stands for a finite map.
-/
namespace ColorXv6.Lib.SlotMap
open Function Slots

structure Table (κ ν : Type) where
  len : Nat
  slot : Nat → Option (κ × ν)

variable {κ ν : Type} [DecidableEq κ]

/-- The slot of a key. -/
def Table.find (t : Table κ ν) (k : κ) : Option Nat :=
  firstSlot t.len fun i => (t.slot i).map Prod.fst = some k

/-- The value bound to a key. -/
def Table.get (t : Table κ ν) (k : κ) : Option ν :=
  (t.find k).bind fun i => (t.slot i).map Prod.snd

/-- The slot for a new binding. -/
def Table.vacant (t : Table κ ν) : Nat := (firstSlot t.len fun i => (t.slot i).isNone).getD t.len

/-- The row with slot `i` set. -/
def Table.set (t : Table κ ν) (i : Nat) (e : Option (κ × ν)) : Table κ ν where
  len := max t.len (i + 1)
  slot := update t.slot i e

/-- No key is in two slots. -/
def Distinct (t : Table κ ν) : Prop :=
  ∀ i j k v w, i < t.len → j < t.len → t.slot i = some (k, v) → t.slot j = some (k, w) → i = j

section Find
variable {t : Table κ ν} {i : Nat} {k : κ} {v : ν}

theorem find_some (found : t.find k = some i) : i < t.len ∧ ∃ v, t.slot i = some (k, v) := by
  obtain ⟨inside, here⟩ := firstSlot_some found
  refine ⟨inside, ?_⟩
  cases slot : t.slot i with
  | none => simp [slot] at here
  | some e =>
    obtain ⟨key, v⟩ := e
    simp only [slot, Option.map_some, Option.some.injEq, decide_eq_true_eq] at here
    exact ⟨v, by rw [here]⟩

theorem find_none (none : t.find k = none) (inside : i < t.len) (v : ν) : t.slot i ≠ some (k, v) := by
  intro here
  have other := firstSlot_none.mp none i inside
  simp [here] at other

theorem get_of_slot (found : t.find k = some i) (slot : t.slot i = some (k, v)) :
    t.get k = some v := by
  unfold Table.get
  rw [found, Option.bind_some, slot]
  rfl

theorem get_of_find (found : t.find k = some i) : t.slot i = (t.get k).map fun v => (k, v) := by
  obtain ⟨-, v, here⟩ := find_some found
  rw [get_of_slot found here, here]
  rfl

theorem get_eq_none : t.get k = none ↔ t.find k = none := by
  constructor
  · intro absent
    cases found : t.find k with
    | none => rfl
    | some i =>
      obtain ⟨-, v, here⟩ := find_some found
      rw [get_of_slot found here] at absent
      cases absent
  · intro none
    unfold Table.get
    rw [none]
    rfl

/-- A binding is in some slot, and with distinct keys only there. -/
theorem get_eq_some (distinct : Distinct t) :
    t.get k = some v ↔ ∃ i < t.len, t.slot i = some (k, v) := by
  constructor
  · intro bound
    cases found : t.find k with
    | none =>
      rw [get_eq_none.mpr found] at bound
      cases bound
    | some i => exact ⟨i, (find_some found).1, by rw [get_of_find found, bound]; rfl⟩
  · rintro ⟨i, inside, here⟩
    cases found : t.find k with
    | none => exact absurd here (find_none found inside v)
    | some j =>
      obtain ⟨below, w, there⟩ := find_some found
      obtain rfl := distinct i j k v w inside below here there
      exact get_of_slot found here

end Find

section Vacant
variable (t : Table κ ν)

omit [DecidableEq κ] in
theorem vacant_le : t.vacant ≤ t.len := by
  unfold Table.vacant
  cases found : firstSlot t.len fun i => (t.slot i).isNone with
  | none => exact Nat.le_refl _
  | some i => exact Nat.le_of_lt (firstSlot_some found).1

omit [DecidableEq κ] in
theorem vacant_empty (inside : t.vacant < t.len) : t.slot t.vacant = none := by
  unfold Table.vacant at inside ⊢
  cases found : firstSlot t.len fun i => (t.slot i).isNone with
  | none =>
    rw [found] at inside
    exact absurd inside (Nat.lt_irrefl _)
  | some i => simpa using (firstSlot_some found).2

end Vacant

section Set
variable {t : Table κ ν} {i : Nat} {k : κ} {v : ν}

section Distinct
variable (distinct : Distinct t)
include distinct

/-- A slot is emptied, or gets a key that is new. -/
theorem distinct_set {e : Option (κ × ν)} (le : i ≤ t.len)
    (absent : ∀ key x, e = some (key, x) → t.find key = none) : Distinct (t.set i e) := by
  have inside : ∀ a, a ≠ i → a < max t.len (i + 1) → a < t.len := by omega
  intro a b key x y first second left right
  unfold Table.set at first second left right
  dsimp only at first second left right
  by_cases here : a = i <;> by_cases there : b = i
  · rw [here, there]
  · rw [here, update_self] at left
    rw [update_of_ne there] at right
    exact absurd right (find_none (absent key x left) (inside b there second) y)
  · rw [there, update_self] at right
    rw [update_of_ne here] at left
    exact absurd left (find_none (absent key y right) (inside a here first) x)
  · rw [update_of_ne here] at left
    rw [update_of_ne there] at right
    exact distinct a b key x y (inside a here first) (inside b there second) left right

theorem distinct_set_some (absent : t.get k = none) (le : i ≤ t.len) :
    Distinct (t.set i (some (k, v))) :=
  distinct_set distinct le fun key x same => by cases same; exact get_eq_none.mp absent

theorem distinct_set_none (le : i ≤ t.len) : Distinct (t.set i none) :=
  distinct_set distinct le fun _ _ none => by cases none

/-- A slot in which only `k` may be is set, and `k` is in no other one. -/
theorem get_set {v : Option ν} (after : Distinct (t.set i (v.map (k, ·)))) (le : i ≤ t.len)
    (own : i < t.len → ∀ key x, t.slot i = some (key, x) → key = k)
    (elsewhere : ∀ a < t.len, a ≠ i → ∀ x, t.slot a ≠ some (k, x)) :
    (t.set i (v.map (k, ·))).get = update t.get k v := by
  funext key
  apply Option.ext
  intro w
  rw [get_eq_some after]
  unfold Table.set
  dsimp only
  by_cases same : key = k
  · rw [same, update_self]
    constructor
    · rintro ⟨a, inside, here⟩
      by_cases at_ : a = i
      · rw [at_, update_self] at here
        obtain ⟨_, rfl, pair⟩ := Option.map_eq_some_iff.mp here
        rw [(Prod.mk.inj pair).2]
      · rw [update_of_ne at_] at here
        exact absurd here (elsewhere a (by omega) at_ w)
    · rintro rfl
      exact ⟨i, by omega, by rw [update_self]; rfl⟩
  · rw [update_of_ne same, get_eq_some distinct]
    constructor
    · rintro ⟨a, inside, here⟩
      by_cases at_ : a = i
      · rw [at_, update_self] at here
        obtain ⟨_, -, pair⟩ := Option.map_eq_some_iff.mp here
        exact absurd (Prod.mk.inj pair).1.symm same
      · rw [update_of_ne at_] at here
        exact ⟨a, by omega, here⟩
    · rintro ⟨a, inside, here⟩
      have at_ : a ≠ i := by
        rintro rfl
        exact same (own inside key w here)
      exact ⟨a, by omega, by rw [update_of_ne at_]; exact here⟩

/-- A new binding in a slot that is not in use changes the map at its key only. -/
theorem get_set_some (absent : t.get k = none) (le : i ≤ t.len)
    (empty : i < t.len → t.slot i = none) :
    (t.set i (some (k, v))).get = update t.get k (some v) := by
  refine get_set (v := some v) distinct (distinct_set_some distinct absent le) le ?_ fun a inside _ =>
    find_none (get_eq_none.mp absent) inside
  intro inside key x here
  rw [empty inside] at here
  cases here

/-- Emptying the slot of a key removes its binding and no other. -/
theorem get_set_none (found : t.find k = some i) :
    (t.set i none).get = update t.get k none := by
  obtain ⟨inside, v, slot⟩ := find_some found
  have le := Nat.le_of_lt inside
  refine get_set (v := none) distinct (distinct_set_none distinct le) le ?_ fun a below at_ x here =>
    at_ (distinct a i k x v below inside here slot)
  intro _ key x here
  rw [slot] at here
  cases here
  rfl

end Distinct

end Set

end ColorXv6.Lib.SlotMap
