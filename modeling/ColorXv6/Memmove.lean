import ColorXv6.Vm.Mmu
import Mathlib.Logic.Function.Basic

/-!
`memmove` of string.c and of user/ulib.c. The kernel's copies downwards when the end of
the source overlaps the destination; that of the user library always copies upwards.
-/
namespace ColorXv6.Memmove
open Function Vm.Mmu

/-- `while(n-- > 0) *d++ = *s++;` -/
def copyUp (mem : Nat → UInt8) (d s : Nat) : Nat → Nat → UInt8
  | 0 => mem
  | n + 1 => copyUp (update mem d (mem s)) (word (d + 1)) (word (s + 1)) n

/-- `while(n-- > 0) *--d = *--s;` -/
def copyDown (mem : Nat → UInt8) (d s : Nat) : Nat → Nat → UInt8
  | 0 => mem
  | n + 1 =>
    let d := word (d + (2 ^ 32 - 1))
    let s := word (s + (2 ^ 32 - 1))
    copyDown (update mem d (mem s)) d s n

/-- string.c -/
def memmove (mem : Nat → UInt8) (dst src n : Nat) : Nat → UInt8 :=
  if src < dst ∧ word (src + n) > dst then copyDown mem (word (dst + n)) (word (src + n)) n
  else copyUp mem dst src n

/-- user/ulib.c, where the count is an `int`. -/
def User.memmove (mem : Nat → UInt8) (vdst vsrc : Nat) (n : Int) : Nat → UInt8 :=
  copyUp mem vdst vsrc n.toNat

/-- The bytes at `dst` are those that were at `src`, and nothing else has changed. -/
structure Moved (mem : Nat → UInt8) (dst src n : Nat) (after : Nat → UInt8) : Prop where
  copied : ∀ i < n, after (dst + i) = mem (src + i)
  frame : ∀ a, a < dst ∨ dst + n ≤ a → after a = mem a

variable {mem after : Nat → UInt8} {d s n i a : Nat}

theorem Moved.unique {after' : Nat → UInt8} (first : Moved mem d s n after)
    (second : Moved mem d s n after') : after = after' := by
  funext a
  by_cases outside : a < d ∨ d + n ≤ a
  · rw [first.frame a outside, second.frame a outside]
  · have here : a = d + (a - d) := by omega
    rw [here, first.copied _ (by omega), second.copied _ (by omega)]

theorem copyUp_succ (fitsD : d + (n + 1) ≤ 2 ^ 32) (fitsS : s + (n + 1) ≤ 2 ^ 32) :
    copyUp mem d s (n + 1) = copyUp (update mem d (mem s)) (d + 1) (s + 1) n := by
  rw [copyUp]
  cases n with
  | zero => rfl
  | succ n => rw [word, word, Nat.mod_eq_of_lt (by omega), Nat.mod_eq_of_lt (by omega)]

theorem copyUp_frame (fitsD : d + n ≤ 2 ^ 32) (fitsS : s + n ≤ 2 ^ 32)
    (outside : a < d ∨ d + n ≤ a) : copyUp mem d s n a = mem a := by
  induction n generalizing mem d s with
  | zero => rfl
  | succ n ih =>
    rw [copyUp_succ fitsD fitsS, ih (by omega) (by omega) (by omega)]
    exact update_of_ne (by omega) ..

/-- Upwards from a destination below the source, every byte is read before it is overwritten. -/
theorem copyUp_below (fitsD : d + n ≤ 2 ^ 32) (fitsS : s + n ≤ 2 ^ 32) (below : d ≤ s)
    (inside : i < n) : copyUp mem d s n (d + i) = mem (s + i) := by
  induction n generalizing mem d s i with
  | zero => omega
  | succ n ih =>
    rw [copyUp_succ fitsD fitsS]
    cases i with
    | zero =>
      rw [copyUp_frame (by omega) (by omega) (by omega)]
      exact update_self ..
    | succ i =>
      rw [show d + (i + 1) = d + 1 + i by omega, ih (by omega) (by omega) (by omega) (by omega),
        update_of_ne (by omega), show s + 1 + i = s + (i + 1) by omega]

/-- Upwards from a destination above the source, the first `d - s` bytes are repeated. -/
theorem copyUp_above (fitsD : d + n ≤ 2 ^ 32) (fitsS : s + n ≤ 2 ^ 32) (above : s < d)
    (inside : i < n) : copyUp mem d s n (d + i) = mem (s + i % (d - s)) := by
  induction n generalizing mem d s i with
  | zero => omega
  | succ n ih =>
    rw [copyUp_succ fitsD fitsS]
    cases i with
    | zero =>
      rw [copyUp_frame (by omega) (by omega) (by omega), Nat.zero_mod]
      exact update_self ..
    | succ i =>
      rw [show d + (i + 1) = d + 1 + i by omega, ih (by omega) (by omega) (by omega) (by omega),
        show d + 1 - (s + 1) = d - s by omega]
      have small : i % (d - s) < d - s := Nat.mod_lt _ (by omega)
      rw [← Nat.mod_add_mod]
      -- After the last byte of a period comes `d`, which has the first one by now.
      by_cases last : i % (d - s) + 1 = d - s
      · rw [show s + 1 + i % (d - s) = d by omega, update_self, last, Nat.mod_self]
        rfl
      · rw [update_of_ne (by omega), Nat.mod_eq_of_lt (show i % (d - s) + 1 < d - s by omega)]
        congr 1
        omega

theorem copyDown_succ (fitsD : d + (n + 1) ≤ 2 ^ 32) (fitsS : s + (n + 1) ≤ 2 ^ 32) :
    copyDown mem (word (d + (n + 1))) (word (s + (n + 1))) (n + 1) =
      copyDown (update mem (d + n) (mem (s + n))) (word (d + n)) (word (s + n)) n := by
  have down : ∀ p, p + (n + 1) ≤ 2 ^ 32 →
      word (word (p + (n + 1)) + (2 ^ 32 - 1)) = p + n ∧ word (p + n) = p + n := by
    intro p fits
    unfold word
    omega
  rw [copyDown, (down d fitsD).1, (down s fitsS).1, (down d fitsD).2, (down s fitsS).2]

theorem copyDown_frame (fitsD : d + n ≤ 2 ^ 32) (fitsS : s + n ≤ 2 ^ 32)
    (outside : a < d ∨ d + n ≤ a) : copyDown mem (word (d + n)) (word (s + n)) n a = mem a := by
  induction n generalizing mem with
  | zero => rfl
  | succ n ih =>
    rw [copyDown_succ fitsD fitsS, ih (by omega) (by omega) (by omega)]
    exact update_of_ne (by omega) ..

/-- Downwards from a destination above the source. -/
theorem copyDown_above (fitsD : d + n ≤ 2 ^ 32) (fitsS : s + n ≤ 2 ^ 32) (above : s < d)
    (inside : i < n) : copyDown mem (word (d + n)) (word (s + n)) n (d + i) = mem (s + i) := by
  induction n generalizing mem with
  | zero => omega
  | succ n ih =>
    rw [copyDown_succ fitsD fitsS]
    by_cases last : i = n
    · subst last
      rw [copyDown_frame (by omega) (by omega) (by omega)]
      exact update_self ..
    · rw [ih (by omega) (by omega) (by omega)]
      exact update_of_ne (by omega) ..

/-- Where the destination overlaps the end of the source, each byte there is equal to the one
that is copied to it. -/
def Periodic (mem : Nat → UInt8) (dst src n : Nat) : Prop :=
  src < dst → ∀ i, i + (dst - src) < n → mem (dst + i) = mem (src + i)

theorem Periodic.mod (periodic : Periodic mem d s n) (above : s < d) (inside : i < n) :
    mem (s + i % (d - s)) = mem (s + i) := by
  induction i using Nat.strong_induction_on with
  | h i ih =>
    by_cases first : i < d - s
    · rw [Nat.mod_eq_of_lt first]
    · have earlier := ih (i - (d - s)) (by omega) (by omega)
      have equal := periodic above (i - (d - s)) (by omega)
      rw [Nat.mod_eq_sub_mod (by omega), earlier, ← equal]
      congr 1
      omega

section Both
variable (inDst : d + n ≤ 2 ^ 32) (inSrc : s + n ≤ 2 ^ 32)
include inDst inSrc

theorem memmove_moved : Moved mem d s n (memmove mem d s n) := by
  unfold memmove
  split
  · rename_i overlap
    exact ⟨fun i inside => copyDown_above inDst inSrc overlap.1 inside,
      fun a outside => copyDown_frame inDst inSrc outside⟩
  · rename_i apart
    refine ⟨?_, fun a outside => copyUp_frame inDst inSrc outside⟩
    intro i inside
    by_cases below : d ≤ s
    · exact copyUp_below inDst inSrc below inside
    · have whole : word (s + n) = s + n := Nat.mod_eq_of_lt (by omega)
      rw [copyUp_above inDst inSrc (by omega) inside, Nat.mod_eq_of_lt (by omega)]

theorem copyUp_moved_iff : Moved mem d s n (copyUp mem d s n) ↔ Periodic mem d s n := by
  constructor
  · intro moved above i inside
    have there := moved.copied (i + (d - s)) inside
    have here := moved.copied i (by omega)
    rw [copyUp_above inDst inSrc above (by omega)] at there here
    rw [Nat.add_mod_right] at there
    rw [← here, there]
    congr 1
    omega
  · intro periodic
    refine ⟨?_, fun a outside => copyUp_frame inDst inSrc outside⟩
    intro i inside
    by_cases below : d ≤ s
    · exact copyUp_below inDst inSrc below inside
    · rw [copyUp_above inDst inSrc (by omega) inside, periodic.mod (by omega) inside]

end Both

/-- The kernel's `memmove` moves the bytes wherever the ranges are. That of the user library does
so, and agrees with it, exactly when the destination does not overlap the end of the source or the
bytes repeat with the distance of the two. -/
theorem memmove_overlap_iff (mem : Nat → UInt8) {dst src n : Nat} (inDst : dst + n ≤ 2 ^ 32)
    (inSrc : src + n ≤ 2 ^ 32) :
    Moved mem dst src n (memmove mem dst src n) ∧
    (n < 2 ^ 31 →
      (Moved mem dst src n (User.memmove mem dst src n) ↔ Periodic mem dst src n) ∧
      (User.memmove mem dst src n = memmove mem dst src n ↔ Periodic mem dst src n)) := by
  have kernel : Moved mem dst src n (memmove mem dst src n) := memmove_moved inDst inSrc
  have user : Moved mem dst src n (User.memmove mem dst src n) ↔ Periodic mem dst src n :=
    copyUp_moved_iff inDst inSrc
  refine ⟨kernel, fun _ => ⟨user, ?_⟩⟩
  rw [← user]
  constructor
  · intro same
    rw [same]
    exact kernel
  · intro moved
    exact moved.unique kernel

/-- Two bytes moved down by one, over the first of them. -/
theorem memmove_overlap_iff_down :
    Moved UInt8.ofNat 0 1 2 (User.memmove UInt8.ofNat 0 1 2) ∧
      User.memmove UInt8.ofNat 0 1 2 = memmove UInt8.ofNat 0 1 2 := by
  have both := (@memmove_overlap_iff UInt8.ofNat 0 1 2 (by decide) (by decide)).2 (by decide)
  have down : Periodic UInt8.ofNat 0 1 2 := fun above => absurd above (by decide)
  exact ⟨both.1.mpr down, both.2.mpr down⟩

/-- Two bytes moved up by one: the second of them is lost in the user library. -/
theorem user_memmove_overwrites :
    ¬Moved UInt8.ofNat 1 0 2 (User.memmove UInt8.ofNat 1 0 2) ∧
      User.memmove UInt8.ofNat 1 0 2 ≠ memmove UInt8.ofNat 1 0 2 := by
  have byte : User.memmove UInt8.ofNat 1 0 2 2 = 0 := by decide
  constructor
  · intro moved
    have second := moved.copied 1 (by decide)
    exact absurd (byte.symm.trans second) (by decide)
  · intro same
    exact absurd (byte.symm.trans (congrFun same 2)) (by decide)

end ColorXv6.Memmove
