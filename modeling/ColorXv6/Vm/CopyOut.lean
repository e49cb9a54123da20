import ColorXv6.Vm.ExecLoad
import ColorXv6.Vm.Shrink

/-!
`copyout` of vm.c, page by page. `uva2ka` reads the entry that `walkpgdir` found without asking
whether it found one, so the copy depends on the page tables of the pages it comes to, and it
comes to a page only after all pages before it were accessible.
-/
namespace ColorXv6.Vm.CopyOut
open Lib.LittleEndian Lib.Wp Mmu Kalloc PageDir Footprint Mapping Space
open ExecLoad (byteAt Filled Exclusive putBytes_append)
open Boot (smallLink smallPages smallPages_nodup)
open ForkCopy (pairDir pteOf_pairDir table_pairDir backed_pairDir once_pairDir)

variable {ld : Link}

/-- The page is present and the user's. -/
def Accessible (d : PgDir ld) (x : Nat) : Prop :=
  present (d.pteOf x) = true ∧ userBit (d.pteOf x) = true

/-- Page `x` holds a byte of the `len` bytes at `va`. -/
def Meets (va len x : Nat) : Prop := ∃ u, va ≤ u ∧ u < va + len ∧ x = pgRoundDown u

/-- A directory of the kind the kernel builds: its user pages are frames of the machine, no
frame is in two places, and the kernel's half is not the user's. -/
structure UserSpace (d : PgDir ld) : Prop where
  backed : Backed d
  once : ∀ a, pagesOf a d ≤ 1
  kernel : ∀ x, IsPage x → kernBase ≤ x → userBit (d.pteOf x) = false

/-- Address `u` of the user half has memory behind it. -/
def Seen (d : PgDir ld) (u : Nat) : Prop :=
  u < kernBase ∧ present (d.pteOf (pgRoundDown u)) = true

/-- What `copyout` is to do with result `r`, from memory `k` to memory `k'`. -/
structure Copied (d : PgDir ld) (va : Nat) (p : Bytes) (len : Nat) (r : Bool) (k k' : Kmem ld) :
    Prop where
  all : r = true ↔ ∀ x, Meets va len x → Accessible d x
  stored : r = true → ∀ u, Seen d u → byteAt d k' u = putBytes (byteAt d k) va len p u
  outside : ∀ u, Seen d u → (u < va ∨ va + len ≤ u) → byteAt d k' u = byteAt d k u
  frames : ∀ pa, (∀ x, Meets va len x → Accessible d x → pteAddr (d.pteOf x) ≠ pa) →
    k'.mem pa = k.mem pa
  list : k'.freelist = k.freelist

/-- Every page of the range that comes after accessible ones only has a page table. -/
def Reached (d : PgDir ld) (va len : Nat) : Prop :=
  ∀ x, Meets va len x → (∀ y, Meets va len y → y < x → Accessible d y) →
    present (d.pde (pdx x)) = true

theorem not_meets_nothing (va x : Nat) : ¬ Meets va 0 x := by
  rintro ⟨u, low, high, -⟩
  omega

variable {va x : Nat} {d : PgDir ld}

theorem Meets.page {len : Nat} (meets : Meets va len x) (fits : va + len ≤ 2 ^ 32) :
    IsPage x := by
  obtain ⟨u, low, high, rfl⟩ := meets
  refine ⟨?_, pgRoundDown_aligned u⟩
  unfold pgRoundDown pgSize
  omega

theorem Accessible.table (accessible : Accessible d x) :
    present (d.pde (pdx x)) = true := by
  cases there : present (d.pde (pdx x)) with
  | true => rfl
  | false =>
    have entry := accessible.1
    simp [PgDir.pteOf, there] at entry

theorem UserSpace.low (space : UserSpace d) (page : IsPage x)
    (accessible : Accessible d x) : x < kernBase := by
  by_contra high
  have kernel := space.kernel x page (by omega)
  rw [accessible.2] at kernel
  cases kernel

/-- The bytes of the range on its first page. -/
def firstPart (va len : Nat) : Nat := min (pgSize - (va - pgRoundDown va)) len

section FirstPage
variable {va len : Nat} (some : 0 < len)
include some

theorem firstPart_pos : 0 < firstPart va len := by
  unfold firstPart pgRoundDown pgSize
  omega

/-- The pages of a range are its first one and those of the rest, which come after it. -/
theorem meets_step (x : Nat) : Meets va len x ↔ x = pgRoundDown va ∨
    Meets (va + firstPart va len) (len - firstPart va len) x := by
  constructor
  · rintro ⟨u, low, high, rfl⟩
    by_cases first : u < va + firstPart va len
    · left
      unfold firstPart at first
      unfold pgRoundDown pgSize at *
      omega
    · exact .inr ⟨u, by omega, by omega, rfl⟩
  · rintro (rfl | ⟨u, low, high, rfl⟩)
    · exact ⟨va, Nat.le_refl _, by omega, rfl⟩
    · exact ⟨u, by omega, by unfold firstPart at *; omega, rfl⟩

omit some in
theorem lt_of_meets_rest
    (rest : Meets (va + firstPart va len) (len - firstPart va len) x) : pgRoundDown va < x := by
  obtain ⟨u, low, high, rfl⟩ := rest
  unfold firstPart at *
  unfold pgRoundDown pgSize at *
  omega

theorem reached_rest (first : Accessible d (pgRoundDown va)) :
    Reached d va len ↔ Reached d (va + firstPart va len) (len - firstPart va len) := by
  constructor
  · intro reached x meets before
    refine reached x ((meets_step some x).mpr (.inr meets)) fun y member below => ?_
    rcases (meets_step some y).mp member with rfl | rest
    · exact first
    · exact before y rest below
  · intro reached x meets before
    rcases (meets_step some x).mp meets with rfl | rest
    · exact first.table
    · exact reached x rest fun y member below =>
        before y ((meets_step some y).mpr (.inr member)) below

theorem reached_stop (first : ¬ Accessible d (pgRoundDown va)) :
    Reached d va len ↔ present (d.pde (pdx (pgRoundDown va))) = true := by
  constructor
  · intro reached
    refine reached _ ((meets_step some _).mpr (.inl rfl)) fun y member below => ?_
    rcases (meets_step some y).mp member with rfl | rest
    · omega
    · have := lt_of_meets_rest rest
      omega
  · intro table x meets before
    rcases (meets_step some x).mp meets with rfl | rest
    · exact table
    · exact absurd (before _ ((meets_step some _).mpr (.inl rfl)) (lt_of_meets_rest rest)) first

end FirstPage

/-- Memory with `n` bytes at `off` of page `pa` replaced. -/
def storePage (k : Kmem ld) (pa off n : Nat) (src : Bytes) : Kmem ld := { k with
  mem := fun q => if q = pa then putBytes (k.mem pa) off n src else k.mem q }

/-- A store into an accessible page, seen through the directory. -/
theorem byteAt_store (space : UserSpace d) (k : Kmem ld) {n : Nat} (src : Bytes)
    (page : IsPage (pgRoundDown va)) (accessible : Accessible d (pgRoundDown va))
    (small : va - pgRoundDown va + n ≤ pgSize) {u : Nat} (seen : Seen d u) :
    byteAt d (storePage k (pteAddr (d.pteOf (pgRoundDown va))) (va - pgRoundDown va) n src) u =
      putBytes (byteAt d k) va n src u := by
  have below : pgRoundDown u ≤ u := Nat.div_mul_le_self u pgSize
  have user := seen.1
  have other : IsPage (pgRoundDown u) :=
    ⟨by unfold kernBase at user; omega, pgRoundDown_aligned u⟩
  unfold byteAt storePage
  dsimp only
  by_cases here : pgRoundDown u = pgRoundDown va
  · have bounds : (va - pgRoundDown va ≤ u % pgSize ∧ u % pgSize < va - pgRoundDown va + n) ↔
        (va ≤ u ∧ u < va + n) := by
      unfold pgRoundDown pgSize at *
      omega
    have place : va ≤ u → u % pgSize - (va - pgRoundDown va) = u - va := by
      unfold pgRoundDown pgSize at *
      omega
    rw [here, if_pos rfl]
    simp only [putBytes, bounds]
    split
    · rename_i inside
      rw [place inside.1]
    · rw [here]
  · have apart : pteAddr (d.pteOf (pgRoundDown u)) ≠ pteAddr (d.pteOf (pgRoundDown va)) := by
      intro same
      exact here (frames_distinct space.once page other (space.low page accessible) (by omega)
        accessible.1 seen.2 same)
    have outside : u < va ∨ va + n ≤ u := by
      unfold pgRoundDown pgSize at *
      omega
    rw [if_neg apart, putBytes_outside _ va n u src outside]

section Steps
variable {d : PgDir ld} {va len : Nat} {p : Bytes}

/-- Nothing to copy. -/
theorem Copied.nothing (k : Kmem ld) : Copied d va p 0 true k k where
  all := ⟨fun _ x meets => absurd meets (not_meets_nothing va x), fun _ => rfl⟩
  stored _ u _ := (putBytes_outside _ va 0 u p (by omega)).symm
  outside _ _ _ := rfl
  frames _ _ := rfl
  list := rfl

/-- The copy stops at its first page. -/
theorem Copied.stop (k : Kmem ld) (some : 0 < len) (first : ¬ Accessible d (pgRoundDown va)) :
    Copied d va p len false k k where
  all := by
    refine ⟨fun no => Bool.noConfusion no, fun all => ?_⟩
    exact absurd (all _ ((meets_step some _).mpr (.inl rfl))) first
  stored no := Bool.noConfusion no
  outside _ _ _ := rfl
  frames _ _ := rfl
  list := rfl

/-- The first page, then the rest. -/
theorem Copied.step {r : Bool} {k k' : Kmem ld} (space : UserSpace d) (some : 0 < len)
    (fits : va + len ≤ 2 ^ 32) (first : Accessible d (pgRoundDown va))
    (rest : Copied d (va + firstPart va len) (fun i => p (firstPart va len + i))
      (len - firstPart va len) r (storePage k (pteAddr (d.pteOf (pgRoundDown va)))
        (va - pgRoundDown va) (firstPart va len) p) k') : Copied d va p len r k k' := by
  have page : IsPage (pgRoundDown va) := Meets.page ((meets_step some _).mpr (.inl rfl)) fits
  have part : firstPart va len ≤ len := Nat.min_le_right _ _
  have small : va - pgRoundDown va + firstPart va len ≤ pgSize := by
    unfold firstPart pgRoundDown pgSize
    omega
  have store : ∀ u, Seen d u → _ := fun u => byteAt_store space k p page first small (u := u)
  constructor
  · rw [rest.all]
    constructor
    · intro all x meets
      rcases (meets_step some x).mp meets with rfl | later
      · exact first
      · exact all x later
    · intro all x later
      exact all x ((meets_step some x).mpr (.inr later))
  · intro ok u seen
    have joined := congrFun (putBytes_append (byteAt d k) (x := va) (n := firstPart va len)
      (m := len - firstPart va len) p) u
    rw [Nat.add_sub_cancel' part] at joined
    rw [rest.stored ok u seen, ← joined]
    simp only [putBytes] at store ⊢
    rw [store u seen]
  · intro u seen outside
    rw [rest.outside u seen (by omega), store u seen, putBytes_outside _ _ _ _ _ (by omega)]
  · intro pa none
    rw [rest.frames pa fun x later => none x ((meets_step some x).mpr (.inr later))]
    exact if_neg fun same => none _ ((meets_step some _).mpr (.inl rfl)) first same.symm
  · exact rest.list

end Steps

/-- The copy writes to pages of the directory only. -/
theorem Copied.elsewhere {len : Nat} {p : Bytes} {r : Bool} {k k' : Kmem ld}
    (copied : Copied d va p len r k k') (space : UserSpace d) (fits : va + len ≤ 2 ^ 32) {a : Nat}
    (other : pagesOf a d = 0) : k'.mem a = k.mem a := by
  refine copied.frames a fun x meets accessible same => ?_
  have counted := hit_le_pagesOf d a (space.low (meets.page fits) accessible)
  simp [hit, accessible.1, same, other] at counted

/-- Where there is a page table, `uva2ka` tells accessible pages from the others. -/
theorem uva2ka_table (d : PgDir ld) (table : present (d.pde (pdx x)) = true) :
    (Accessible d x → uva2ka d x = pure (some (pteAddr (d.pteOf x)))) ∧
    (¬ Accessible d x → uva2ka d x = pure none) := by
  have entry : d.pgtab (pdx x) (ptx x) = d.pteOf x := by simp [PgDir.pteOf, table]
  unfold Accessible uva2ka
  rw [walkpgdir_find, pure_bind, if_pos table]
  dsimp only
  rw [entry]
  cases present (d.pteOf x) <;> cases userBit (d.pteOf x) <;> simp

theorem uva2ka_no_table (d : PgDir ld) (none : present (d.pde (pdx x)) = false) :
    uva2ka d x = throw .nullPointer := by
  unfold uva2ka
  rw [walkpgdir_find, pure_bind, if_neg (by simp [none])]

/-- The loop of `copyout`: it stops at the null pointer, or does what it is to do. -/
theorem wp_copyoutFrom (space : UserSpace d) (va len fuel : Nat) (p : Bytes) (k : Kmem ld)
    (fits : va + len ≤ 2 ^ 32) (enough : len < fuel) :
    wp (copyoutFrom d va p len fuel) (fun r k' => Reached d va len ∧ Copied d va p len r k k')
      (fun e => ¬ Reached d va len ∧ e = .nullPointer) k := by
  induction fuel generalizing va len p k with
  | zero => exact absurd enough (Nat.not_lt_zero _)
  | succ fuel ih =>
    rw [copyoutFrom]
    by_cases some : 0 < len
    · rw [if_pos some]
      dsimp only
      by_cases first : Accessible d (pgRoundDown va)
      · rw [(uva2ka_table d first.table).1 first, pure_bind]
        have part : 0 < firstPart va len := firstPart_pos some
        rw [wp_bind, storeBytes, wp_modify]
        have next : ∀ q : Kmem ld, wp (copyoutFrom d (word (pgRoundDown va + pgSize))
            (fun i => p (firstPart va len + i)) (len - firstPart va len) fuel)
            (fun r k' => Reached d (va + firstPart va len) (len - firstPart va len) ∧
              Copied d (va + firstPart va len) (fun i => p (firstPart va len + i))
                (len - firstPart va len) r q k')
            (fun e => ¬ Reached d (va + firstPart va len) (len - firstPart va len) ∧
              e = .nullPointer) q := by
          intro q
          by_cases last : len - firstPart va len = 0
          · obtain ⟨fuel, rfl⟩ : ∃ f, fuel = f + 1 := ⟨fuel - 1, by omega⟩
            rw [last, copyoutFrom, if_neg (Nat.lt_irrefl 0)]
            refine wp_ret ⟨fun x meets => ?_, Copied.nothing q⟩
            exact absurd meets (not_meets_nothing _ x)
          · have follows : word (pgRoundDown va + pgSize) = va + firstPart va len := by
              unfold word
              unfold firstPart at *
              unfold pgRoundDown pgSize at *
              omega
            rw [follows]
            exact ih _ _ _ q (by omega) (by omega)
        refine wp_mono (wp_error (next _) ?_) ?_
        · rintro e ⟨stuck, null⟩
          exact ⟨fun reached => stuck ((reached_rest some first).mp reached), null⟩
        · rintro r k' ⟨reached, copied⟩
          exact ⟨(reached_rest some first).mpr reached, Copied.step space some fits first copied⟩
      · cases table : present (d.pde (pdx (pgRoundDown va))) with
        | true =>
          rw [(uva2ka_table d table).2 first, pure_bind]
          exact wp_ret ⟨(reached_stop some first).mpr table, Copied.stop k some first⟩
        | false =>
          rw [uva2ka_no_table d table, wp_bind]
          refine wp_fail ⟨fun reached => ?_, rfl⟩
          rw [(reached_stop some first).mp reached] at table
          cases table
    · rw [if_neg some]
      obtain rfl : len = 0 := by omega
      exact wp_ret ⟨fun x meets => absurd meets (not_meets_nothing va x),
        Copied.nothing k⟩

/-- `copyout` returns and does what it is to do. -/
def CopiesOut (d : PgDir ld) (va : Nat) (p : Bytes) (len : Nat) (k : Kmem ld) : Prop :=
  ∃ r k', copyout d va p len k = .ok (r, k') ∧ Copied d va p len r k k'

/-- It does exactly where each page it comes to has a page table. -/
theorem copyout_contract_iff {d : PgDir ld} (space : UserSpace d) {va len : Nat} (p : Bytes)
    (k : Kmem ld) (fits : va + len ≤ 2 ^ 32) :
    CopiesOut d va p len k ↔ Reached d va len := by
  have spec := wp_copyoutFrom space va len (len + 1) p k fits (Nat.lt_succ_self len)
  unfold CopiesOut copyout
  cases result : copyoutFrom d va p len (len + 1) k with
  | ok out =>
    obtain ⟨r, k'⟩ := out
    obtain ⟨reached, copied⟩ := wp_ok spec result
    exact ⟨fun _ => reached, fun _ => ⟨r, k', rfl, copied⟩⟩
  | error e =>
    obtain ⟨stuck, -⟩ := wp_stopped spec result
    constructor
    · rintro ⟨r, k', again, -⟩
      cases again
    · intro reached
      exact absurd reached stuck

theorem userSpace_pairDir {page table lower upper : Frame ld} {rest : List (Frame ld)} {perm : Nat}
    (small : perm < pgSize) (distinct : (page :: table :: lower :: upper :: rest).Nodup) :
    UserSpace (pairDir page table lower upper perm) where
  backed := backed_pairDir page table lower upper small
  once a := (Nat.le_add_left _ _).trans (once_pairDir (m := fun _ _ => 0) small distinct a)
  kernel x page high := by
    have entry : pdx x ≠ 0 := by
      unfold pdx
      unfold kernBase at high
      have := page.1
      omega
    rw [pteOf_pairDir, if_neg fun both => entry both.1, if_neg fun both => entry both.1]
    rfl

/-- Four megabytes up there is no page table, and the entry is read through the null pointer. -/
theorem copyout_reads_null : ∃ (d : PgDir smallLink) (k : Kmem smallLink),
    UserSpace d ∧ present (d.pteOf (2 ^ 22)) = false ∧
    copyout d (2 ^ 22) (fun _ => 7) 1 k = .error .nullPointer := by
  obtain ⟨page, table, lower, upper, rest, list⟩ := Boot.smallPages_cons
  have space := userSpace_pairDir (by decide : pteW ||| pteU < pgSize) (list ▸ smallPages_nodup)
  refine ⟨_, ⟨rest, fun _ _ => 0⟩, space, ?_, ?_⟩
  · rw [pteOf_pairDir, if_neg (by decide), if_neg (by decide)]
    rfl
  · have null := uva2ka_no_table (pairDir page table lower upper (pteW ||| pteU))
      (x := pgRoundDown (2 ^ 22)) (by rw [table_pairDir]; decide)
    unfold copyout
    rw [copyoutFrom, if_pos (Nat.zero_lt_one), null]
    rfl

/-- A copy over the edge of two pages, and one that comes to a page without a table. -/
theorem copyout_contract_iff_sparse : ∃ (d : PgDir smallLink) (k k' : Kmem smallLink),
    copyout d 4000 (fun _ => 7) 200 k = .ok (true, k') ∧ byteAt d k' 4000 = 7 ∧
    byteAt d k' 4199 = 7 ∧ ¬ CopiesOut d (2 ^ 22) (fun _ => 7) 1 k := by
  obtain ⟨page, table, lower, upper, rest, list⟩ := Boot.smallPages_cons
  have space := userSpace_pairDir (by decide : pteW ||| pteU < pgSize) (list ▸ smallPages_nodup)
  obtain ⟨d, pair⟩ : ∃ d, d = pairDir page table lower upper (pteW ||| pteU) := ⟨_, rfl⟩
  rw [← pair] at space
  have pages : ∀ x, Meets 4000 200 x → x = 0 ∨ x = 4096 := by
    rintro _ ⟨u, low, high, rfl⟩
    unfold pgRoundDown pgSize
    omega
  have accessible : ∀ x, Meets 4000 200 x → Accessible d x := by
    intro x meets
    rw [Accessible, pair, pteOf_pairDir]
    obtain rfl | rfl := pages x meets
    · rw [if_pos (by decide)]
      exact ⟨present_pte _ _, ExecLoad.userBit_user _⟩
    · rw [if_neg (by decide), if_pos (by decide)]
      exact ⟨present_pte _ _, ExecLoad.userBit_user _⟩
  have reached : Reached d 4000 200 := by
    intro x meets _
    rw [pair, table_pairDir]
    obtain rfl | rfl := pages x meets <;> decide
  have copies := (copyout_contract_iff space (fun _ => 7) ⟨rest, fun _ _ => 0⟩ (by decide)).mpr reached
  obtain ⟨r, k', result, copied⟩ := copies
  obtain rfl := copied.all.mpr accessible
  have seen : ∀ u, 4000 ≤ u → u < 4200 → byteAt d k' u = 7 := by
    intro u low high
    have there := (accessible _ ⟨u, low, high, rfl⟩).1
    rw [copied.stored rfl u ⟨by unfold kernBase; omega, there⟩]
    exact if_pos ⟨low, high⟩
  refine ⟨d, _, k', result, seen 4000 (by decide) (by decide), seen 4199 (by decide) (by decide), ?_⟩
  intro past
  have stuck := (copyout_contract_iff space _ _ (by decide)).mp past
  have none := stuck (2 ^ 22) ⟨2 ^ 22, Nat.le_refl _, by decide, rfl⟩ fun y meets below => by
    obtain ⟨u, low, high, rfl⟩ := meets
    rw [show u = 2 ^ 22 by omega] at below
    exact absurd below (by decide)
  rw [pair, table_pairDir] at none
  exact absurd none (by decide)

end ColorXv6.Vm.CopyOut
