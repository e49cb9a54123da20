import Mathlib.Tactic.Ring

/-!
Little-endian fields of a byte-addressed region. A region is a total function
on addresses; a store changes the bytes of its own range and no other, so two
fields at disjoint ranges never disturb each other.
-/
namespace ColorXv6.Lib.LittleEndian

abbrev Bytes := Nat → UInt8

/-- Unsigned value of the `width` bytes at `off`, least significant byte first. -/
def getLE (b : Bytes) (off : Nat) : Nat → Nat
  | 0 => 0
  | width + 1 => (b off).toNat + 256 * getLE b (off + 1) width

/-- Store the low `8 * width` bits of `value` at `off`. -/
def putLE (b : Bytes) (off width value : Nat) : Bytes := fun k =>
  if off ≤ k ∧ k < off + width then UInt8.ofNat (value / 256 ^ (k - off)) else b k

/-- A run of `n` consecutive 32-bit stores, in increasing address order. -/
def putWords (b : Bytes) (off : Nat) (value : Nat → Nat) : Nat → Bytes
  | 0 => b
  | n + 1 => putLE (putWords b off value n) (off + 4 * n) 4 (value n)

/-- Copy `n` bytes of `src`, read from address 0, to `off`. -/
def putBytes (b : Bytes) (off n : Nat) (src : Bytes) : Bytes := fun k =>
  if off ≤ k ∧ k < off + n then src (k - off) else b k

theorem getLE_congr (b c : Bytes) (off width : Nat)
    (same : ∀ k, off ≤ k → k < off + width → b k = c k) :
    getLE b off width = getLE c off width := by
  induction width generalizing off with
  | zero => rfl
  | succ width ih =>
    simp only [getLE]
    rw [same off (Nat.le_refl off) (by omega), ih (off + 1) (fun k lo hi => same k (by omega) (by omega))]

/-- The same bytes at two places are the same field. -/
theorem getLE_moved (b c : Bytes) (off other width : Nat)
    (same : ∀ k < width, b (off + k) = c (other + k)) :
    getLE b off width = getLE c other width := by
  induction width generalizing off other with
  | zero => rfl
  | succ width ih =>
    have tail : getLE b (off + 1) width = getLE c (other + 1) width := by
      apply ih
      intro k inside
      have next := same (k + 1) (by omega)
      rwa [Nat.add_comm k, ← Nat.add_assoc, ← Nat.add_assoc] at next
    simp only [getLE]
    rw [tail, show b off = c other from same 0 (Nat.succ_pos width)]

section Reads
variable (b : Bytes)

theorem getLE_lt (off width : Nat) : getLE b off width < 256 ^ width := by
  induction width generalizing off with
  | zero => simp [getLE]
  | succ width ih =>
    have low := (b off).toNat_lt
    have high := ih (off + 1)
    simp only [getLE, Nat.pow_succ]
    omega

/-- The bytes of a field are the digits of its value. -/
theorem getLE_digit (off : Nat) {width k : Nat} (inside : k < width) :
    getLE b off width / 256 ^ k % 2 ^ 8 = (b (off + k)).toNat := by
  induction width generalizing off k with
  | zero => omega
  | succ width ih =>
    have byte := (b off).toNat_lt
    cases k with
    | zero =>
      simp only [getLE, Nat.pow_zero, Nat.div_one, Nat.add_zero]
      omega
    | succ k =>
      rw [Nat.pow_succ', ← Nat.div_div_eq_div_mul]
      have tail : getLE b off (width + 1) / 256 = getLE b (off + 1) width := by
        simp only [getLE]
        omega
      rw [tail, ih (off + 1) (by omega)]
      congr 2
      omega

theorem putLE_outside (off width value k : Nat)
    (outside : k < off ∨ off + width ≤ k) : putLE b off width value k = b k := by
  simp only [putLE]
  rw [if_neg (by omega)]

theorem putBytes_outside (off n k : Nat) (src : Bytes)
    (outside : k < off ∨ off + n ≤ k) : putBytes b off n src k = b k := by
  simp only [putBytes]
  rw [if_neg (by omega)]

theorem putBytes_inside (off n k : Nat) (src : Bytes) (inside : k < n) :
    putBytes b off n src (off + k) = src k := by
  simp only [putBytes]
  rw [if_pos (by omega), Nat.add_sub_cancel_left]

/-- A stored field reads back as the low bits of the stored value. -/
theorem getLE_putLE (off width value : Nat) :
    getLE (putLE b off width value) off width = value % 256 ^ width := by
  -- Generalise over a store that begins earlier, so that the tail of the field
  -- is again a field of the same store.
  have tail : ∀ (n start : Nat), start + n = width →
      getLE (putLE b off width value) (off + start) n = value / 256 ^ start % 256 ^ n := by
    intro n
    induction n with
    | zero => intro start _; simp [getLE, Nat.mod_one]
    | succ n ih =>
      intro start fits
      have rest := ih (start + 1) (by omega)
      have head : (putLE b off width value (off + start)).toNat = value / 256 ^ start % 256 := by
        simp only [putLE]
        rw [if_pos (by omega), Nat.add_sub_cancel_left]
        simp
      simp only [getLE, head]
      rw [show off + start + 1 = off + (start + 1) by omega, rest, Nat.pow_succ, Nat.pow_succ,
        ← Nat.div_div_eq_div_mul, Nat.mul_comm (256 ^ n), Nat.mod_mul]
  simpa using tail width 0 (by omega)

theorem getLE_putLE_of_lt (off width value : Nat) (bound : value < 256 ^ width) :
    getLE (putLE b off width value) off width = value := by
  rw [getLE_putLE, Nat.mod_eq_of_lt bound]

/-- A field outside the stored range is unchanged. -/
theorem getLE_putLE_disjoint (off width value other size : Nat)
    (disjoint : other + size ≤ off ∨ off + width ≤ other) :
    getLE (putLE b off width value) other size = getLE b other size :=
  getLE_congr _ _ _ _ (fun k lo hi => putLE_outside b off width value k (by omega))

theorem putWords_outside (off : Nat) (value : Nat → Nat) (n k : Nat)
    (outside : k < off ∨ off + 4 * n ≤ k) : putWords b off value n k = b k := by
  induction n with
  | zero => rfl
  | succ n ih =>
    rw [putWords, putLE_outside _ _ _ _ _ (by omega), ih (by omega)]

theorem getLE_putWords_disjoint (off : Nat) (value : Nat → Nat) (n other size : Nat)
    (disjoint : other + size ≤ off ∨ off + 4 * n ≤ other) :
    getLE (putWords b off value n) other size = getLE b other size :=
  getLE_congr _ _ _ _ (fun k lo hi => putWords_outside b off value n k (by omega))

/-- Word `i` of a run of stores reads back, later stores being disjoint from it. -/
theorem getLE_putWords (off : Nat) (value : Nat → Nat) (n i : Nat) (inside : i < n) :
    getLE (putWords b off value n) (off + 4 * i) 4 = value i % 2 ^ 32 := by
  induction n with
  | zero => omega
  | succ n ih =>
    rw [putWords]
    by_cases last : i = n
    · subst last
      rw [getLE_putLE, show (256 : Nat) ^ 4 = 2 ^ 32 by norm_num]
    · rw [getLE_putLE_disjoint _ _ _ _ _ _ (by omega), ih (by omega)]

end Reads

end ColorXv6.Lib.LittleEndian
