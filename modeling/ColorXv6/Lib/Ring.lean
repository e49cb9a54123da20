import Mathlib.Tactic.Ring

/-!
A ring buffer whose read and write positions are counters that wrap around. The
counters live modulo `m`, the slots modulo the capacity `c`; when `c` divides `m`
the wrap of the counters is invisible in the slots.
-/
namespace ColorXv6.Lib.Ring

/-- Counters modulo `m` that can address `c` slots: the capacity divides the modulus and is
smaller, so that full and empty are different. -/
structure Geometry where
  m : Nat
  c : Nat
  divides : c ∣ m
  smaller : c < m
  positive : 0 < c

variable {α : Type} (g : Geometry)

structure Buffer (α : Type) where
  data : Nat → α
  nread : Nat
  nwrite : Nat

/-- The number of elements between the counters. -/
def Buffer.count (r : Buffer α) : Nat := (r.nwrite + (g.m - r.nread)) % g.m

/-- The counters are in range and at most a ring apart. -/
structure Buffer.Ok (r : Buffer α) : Prop where
  read : r.nread < g.m
  write : r.nwrite < g.m
  room : r.count g ≤ g.c

/-- The stored elements, oldest first. -/
def Buffer.contents (r : Buffer α) : List α :=
  (List.range (r.count g)).map fun k => r.data ((r.nread + k) % g.c)

/-- Store at the write counter. -/
def Buffer.push (r : Buffer α) (a : α) : Buffer α where
  data := fun k => if k = r.nwrite % g.c then a else r.data k
  nread := r.nread
  nwrite := (r.nwrite + 1) % g.m

/-- Take from the read counter. -/
def Buffer.pop (r : Buffer α) : α × Buffer α :=
  (r.data (r.nread % g.c), { r with nread := (r.nread + 1) % g.m })

/-- Take back what was stored last. -/
def Buffer.retract (r : Buffer α) : Buffer α := { r with nwrite := (r.nwrite + (g.m - 1)) % g.m }

variable {g} {r : Buffer α}

/-- Advancing a counter. -/
theorem next_eq {x : Nat} (small : x < g.m) : (x + 1) % g.m = if x + 1 = g.m then 0 else x + 1 := by
  split
  · rename_i last
    rw [last, Nat.mod_self]
  · exact Nat.mod_eq_of_lt (by omega)

theorem count_eq (ok : r.nread < g.m ∧ r.nwrite < g.m) :
    r.count g = if r.nread ≤ r.nwrite then r.nwrite - r.nread else r.nwrite + g.m - r.nread := by
  unfold Buffer.count
  split
  · rename_i ahead
    rw [show r.nwrite + (g.m - r.nread) = r.nwrite - r.nread + g.m by omega, Nat.add_mod_right]
    exact Nat.mod_eq_of_lt (by omega)
  · rename_i behind
    rw [Nat.mod_eq_of_lt (by omega)]
    omega

/-- The wrap of a counter does not show in the slot it addresses. -/
theorem slot_wrap (x : Nat) : (x + g.m) % g.c = x % g.c := by
  obtain ⟨q, whole⟩ := g.divides
  rw [whole, Nat.add_mul_mod_self_left]

theorem slot_next (x k : Nat) (small : x < g.m) : ((x + 1) % g.m + k) % g.c = (x + (k + 1)) % g.c := by
  rw [next_eq small]
  split
  · rename_i last
    rw [show x + (k + 1) = 0 + k + g.m by omega, slot_wrap]
  · congr 1
    omega

/-- Two slots less than a ring apart are different. -/
theorem slot_ne {x k n : Nat} (before : k < n) (close : n < k + g.c) : (x + k) % g.c ≠ (x + n) % g.c := by
  intro same
  have multiple : (x + n - (x + k)) % g.c = 0 := Nat.sub_mod_eq_zero_of_mod_eq same.symm
  have apart : x + n - (x + k) = n - k := by omega
  rw [apart, Nat.mod_eq_of_lt (by omega)] at multiple
  omega

theorem write_slot (ok : r.nread < g.m ∧ r.nwrite < g.m) :
    r.nwrite % g.c = (r.nread + r.count g) % g.c := by
  rw [count_eq ok]
  split
  · congr 1
    omega
  · rw [← slot_wrap]
    congr 1
    omega

theorem push_count (ok : r.Ok g) (room : r.count g < g.c) (a : α) :
    (r.push g a).count g = r.count g + 1 := by
  have smaller := g.smaller
  have before := count_eq (g := g) (r := r) ⟨ok.read, ok.write⟩
  have next := next_eq ok.write
  have small : (r.nwrite + 1) % g.m < g.m := Nat.mod_lt _ (by omega)
  rw [count_eq (r := r.push g a) ⟨ok.read, small⟩]
  simp only [Buffer.push, next]
  have readSmall := ok.read
  split at before <;> split <;> split at next <;> split <;> omega

theorem push_ok (ok : r.Ok g) (room : r.count g < g.c) (a : α) : (r.push g a).Ok g where
  read := ok.read
  write := Nat.mod_lt _ (Nat.lt_trans g.positive g.smaller)
  room := by
    rw [push_count ok room]
    exact room

/-- A stored element comes last. -/
theorem push_contents (ok : r.Ok g) (room : r.count g < g.c) (a : α) :
    (r.push g a).contents g = r.contents g ++ [a] := by
  have slot := write_slot (g := g) (r := r) ⟨ok.read, ok.write⟩
  unfold Buffer.contents
  rw [push_count ok room, List.range_succ, List.map_append]
  congr 1
  · apply List.map_congr_left
    intro k member
    have below := List.mem_range.mp member
    simp only [Buffer.push]
    rw [if_neg]
    rw [slot]
    exact slot_ne below (by omega)
  · simp [Buffer.push, slot]

theorem pop_count (ok : r.Ok g) (some : 0 < r.count g) : (r.pop g).2.count g + 1 = r.count g := by
  have before := count_eq (g := g) (r := r) ⟨ok.read, ok.write⟩
  have next := next_eq ok.read
  have small : (r.nread + 1) % g.m < g.m := Nat.mod_lt _ (Nat.lt_trans g.positive g.smaller)
  rw [count_eq (r := (r.pop g).2) ⟨small, ok.write⟩]
  simp only [Buffer.pop, next]
  have writeSmall := ok.write
  split at before <;> split <;> split at next <;> split <;> omega

theorem pop_ok (ok : r.Ok g) (some : 0 < r.count g) : (r.pop g).2.Ok g where
  read := Nat.mod_lt _ (Nat.lt_trans g.positive g.smaller)
  write := ok.write
  room := by
    have fewer := pop_count ok some
    have room := ok.room
    omega

/-- The element taken is the first. -/
theorem pop_contents (ok : r.Ok g) (some : 0 < r.count g) :
    r.contents g = (r.pop g).1 :: (r.pop g).2.contents g := by
  have fewer := pop_count ok some
  unfold Buffer.contents
  rw [← fewer, List.range_succ_eq_map, List.map_cons, List.map_map]
  congr 1
  apply List.map_congr_left
  intro k _
  simp only [Buffer.pop, Function.comp]
  rw [slot_next _ _ ok.read]

/-- Moving a counter back. -/
theorem previous_eq {x : Nat} (small : x < g.m) :
    (x + (g.m - 1)) % g.m = if x = 0 then g.m - 1 else x - 1 := by
  split
  · rename_i first
    rw [first, Nat.zero_add]
    exact Nat.mod_eq_of_lt (by omega)
  · rw [show x + (g.m - 1) = x - 1 + g.m by omega, Nat.add_mod_right]
    exact Nat.mod_eq_of_lt (by omega)

theorem retract_count (ok : r.Ok g) (some : 0 < r.count g) :
    (r.retract g).count g + 1 = r.count g := by
  have before := count_eq (g := g) (r := r) ⟨ok.read, ok.write⟩
  have previous := previous_eq ok.write
  have small : (r.nwrite + (g.m - 1)) % g.m < g.m := Nat.mod_lt _ (Nat.lt_trans g.positive g.smaller)
  rw [count_eq (r := r.retract g) ⟨ok.read, small⟩]
  simp only [Buffer.retract, previous]
  split at before <;> split <;> split at previous <;> split <;> omega

theorem retract_ok (ok : r.Ok g) (some : 0 < r.count g) : (r.retract g).Ok g where
  read := ok.read
  write := Nat.mod_lt _ (Nat.lt_trans g.positive g.smaller)
  room := by
    have fewer := retract_count ok some
    have room := ok.room
    omega

/-- The element taken back is the last, and it is in the slot before the write counter. -/
theorem retract_contents (ok : r.Ok g) (some : 0 < r.count g) :
    r.contents g = (r.retract g).contents g ++ [r.data ((r.retract g).nwrite % g.c)] := by
  have fewer := retract_count ok some
  have still := retract_ok ok some
  have slot := write_slot (g := g) (r := r.retract g) ⟨still.read, still.write⟩
  unfold Buffer.contents
  rw [← fewer, List.range_succ, List.map_append, slot]
  rfl

/-- Empty and full, as comparisons of the counters. -/
theorem empty_iff (ok : r.Ok g) : r.nread = r.nwrite ↔ r.count g = 0 := by
  have readSmall := ok.read
  rw [count_eq ⟨ok.read, ok.write⟩]
  split <;> omega

theorem full_iff (ok : r.Ok g) : r.nwrite = (r.nread + g.c) % g.m ↔ r.count g = g.c := by
  have readSmall := ok.read
  have writeSmall := ok.write
  have smaller := g.smaller
  have wrapped : (r.nread + g.c) % g.m =
      if r.nread + g.c < g.m then r.nread + g.c else r.nread + g.c - g.m := by
    split
    · rename_i below
      exact Nat.mod_eq_of_lt below
    · rename_i above
      rw [Nat.mod_eq_sub_mod (by omega), Nat.mod_eq_of_lt (by omega)]
  rw [count_eq ⟨ok.read, ok.write⟩, wrapped]
  split <;> split <;> omega

theorem contents_eq_nil : r.contents g = [] ↔ r.count g = 0 := by
  simp [Buffer.contents]

end ColorXv6.Lib.Ring
