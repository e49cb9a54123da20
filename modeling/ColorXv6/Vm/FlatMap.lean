import ColorXv6.Vm.Shrink

/-!
The two-level page table as a flat map from pages to entries: what `mappages` and
`deallocuvm` do to it, page by page, and to the free list.
-/
namespace ColorXv6.Vm.FlatMap
open Lib.Wp Mmu Kalloc PageDir Mapping Space Shrink
open Boot (smallLink smallPages)
open ForkCopy (pairDir pteOf_pairDir backed_pairDir)

variable {ld : Link}

/-- `mappages` refines an update of a flat map from pages to entries: it returns, it has entered the
first `n` pages of the range, all of them when it succeeds, and no other translation has changed.
An entry has the frame and the flags it was made of. The walk alone changes no translation. -/
theorem mappages_refines_map (d : PgDir ld) {va size pa : Nat} (perm : Nat) (k : Kmem ld)
    (nonempty : 1 ≤ size) (bounded : va + size - 1 < 2 ^ 32) (frame : pa < 2 ^ 32)
    (absent : ∀ x, IsPage x → pgRoundDown va ≤ x → x ≤ pgRoundDown (va + size - 1) →
      present (d.pteOf x) = false) :
    (∃ d' done k' n, mappages d va size pa perm k = .ok ((d', done), k') ∧
      (∀ j < n, d'.pteOf (pgRoundDown va + j * pgSize) = word (pa + j * pgSize) ||| perm ||| pteP) ∧
      (∀ x, IsPage x → (∀ j < n, x ≠ pgRoundDown va + j * pgSize) → d'.pteOf x = d.pteOf x) ∧
      (done = true → pgRoundDown va + (n - 1) * pgSize = pgRoundDown (va + size - 1) ∧ 1 ≤ n) ∧
      (done = false → pgRoundDown va + n * pgSize ≤ pgRoundDown (va + size - 1))) ∧
    (pa % pgSize = 0 → perm < pgSize → ∀ j,
      pteAddr (word (pa + j * pgSize) ||| perm ||| pteP) = word (pa + j * pgSize) ∧
      pteFlags (word (pa + j * pgSize) ||| perm ||| pteP) = perm ||| pteP) ∧
    ∀ x alloc k, wp (walkpgdir d x alloc) (fun r _ => ∀ y, r.1.pteOf y = d.pteOf y) noStop k := by
  have last : word (va + size + (2 ^ 32 - 1)) = va + size - 1 := by
    unfold word
    omega
  have first : IsPage (pgRoundDown va) :=
    ⟨Nat.lt_of_le_of_lt (pgRoundDown_le va) (by omega), pgRoundDown_aligned va⟩
  have final : IsPage (pgRoundDown (va + size - 1)) :=
    ⟨Nat.lt_of_le_of_lt (pgRoundDown_le _) bounded, pgRoundDown_aligned _⟩
  have ordered : pgRoundDown va ≤ pgRoundDown (va + size - 1) :=
    Nat.mul_le_mul_right _ (Nat.div_le_div_right (by omega))
  have alignedF := first.2
  have alignedL := final.2
  have room : (pgRoundDown (va + size - 1) - pgRoundDown va) / pgSize < addressPages + 1 := by
    have small := final.1
    unfold addressPages
    unfold pgSize at *
    omega
  refine ⟨?_, ?_, ?_⟩
  · have spec := mapFrom_enters d perm (addressPages + 1) k first final ordered frame room absent
    rw [← last] at spec
    obtain ⟨⟨d', done⟩, k', result, n, entered, -, full, short, -⟩ := wp_returns spec
    rw [last] at full short
    have within : pgRoundDown va + (n - 1) * pgSize ≤ pgRoundDown (va + size - 1) := by
      cases done with
      | true =>
        have pages := full rfl
        unfold pgSize at *
        omega
      | false =>
        have pages := short rfl
        unfold pgSize at *
        omega
    refine ⟨d', done, k', n, result, ?_, ?_, ?_, ?_⟩
    · intro j inside
      have page : IsPage (pgRoundDown va + j * pgSize) := by
        have small := final.1
        unfold IsPage
        unfold pgSize at *
        omega
      rw [entered _ page, if_pos (by unfold pgSize; omega), Nat.add_sub_cancel_left]
    · intro x page other
      rw [entered x page, if_neg]
      rintro ⟨low, high⟩
      have aligned := page.2
      apply other ((x - pgRoundDown va) / pgSize) <;> unfold pgSize at * <;> omega
    · intro ok
      have pages := full ok
      unfold pgSize at *
      omega
    · intro bad
      have pages := short bad
      clear room within
      unfold pgSize at *
      omega
  · intro aligned flags j
    have alignedJ : word (pa + j * pgSize) % pgSize = 0 := by
      unfold word
      unfold pgSize at *
      omega
    refine ⟨pteAddr_pte alignedJ (word_lt _) flags, ?_⟩
    have low : perm ||| pteP < pgSize := Nat.or_lt_two_pow (n := 12) flags (by decide)
    rw [pte_eq_add alignedJ flags, pteFlags]
    unfold pgSize at *
    omega
  · intro x alloc k
    cases alloc with
    | true => exact wp_mono (walkpgdir_alloc d x k) fun _ _ spec => spec.1
    | false =>
      rw [walkpgdir_find]
      exact wp_ret fun _ => rfl

/-- Two pages after the two that are mapped. -/
theorem mappages_refines_map_second :
    ∃ (d d' : PgDir smallLink) (done : Bool) (k' : Kmem smallLink),
      mappages d 8192 8192 0x5000 pteW ⟨[], fun _ _ => 0⟩ = .ok ((d', done), k') ∧
      present (d.pteOf 4096) = true ∧ d'.pteOf 4096 = d.pteOf 4096 ∧
      (done = true → d'.pteOf 8192 = 0x5000 ||| pteW ||| pteP ∧
        d'.pteOf 12288 = 0x6000 ||| pteW ||| pteP) := by
  obtain ⟨page, table, lower, upper, rest, -⟩ := Boot.smallPages_cons
  have absent : ∀ x, IsPage x → pgRoundDown 8192 ≤ x → x ≤ pgRoundDown (8192 + 8192 - 1) →
      present ((pairDir page table lower upper pteW).pteOf x) = false := by
    intro x isPage above below
    have aligned := isPage.2
    obtain rfl | rfl : x = 8192 ∨ x = 12288 := by
      unfold pgRoundDown pgSize at *
      omega
    all_goals
      rw [pteOf_pairDir, if_neg (by decide), if_neg (by decide)]
      rfl
  obtain ⟨⟨d', done, k', n, result, entered, others, all, -⟩, -⟩ := @mappages_refines_map _
    (pairDir page table lower upper pteW) 8192 8192 0x5000 pteW ⟨[], fun _ _ => 0⟩ (by decide)
    (by decide) (by decide) absent
  refine ⟨_, d', done, k', result, ?_, others 4096 ⟨by decide, rfl⟩ ?_, fun succeeds => ?_⟩
  · rw [pteOf_pairDir, if_neg (by decide), if_pos (by decide)]
    exact present_pte _ _
  · intro j _ same
    have base : pgRoundDown 8192 = 8192 := by decide
    omega
  · have two : n = 2 := by
      have last := all succeeds
      unfold pgRoundDown pgSize at last
      omega
    subst two
    exact ⟨entered 0 (by decide), entered 1 (by decide)⟩

/-- `deallocuvm` does what checking every page one by one does, page tables or not. If it returns,
the present pages above the new size have been freed, each once, and they alone have lost their
entries; it stops only in `kfree`, at an entry that does not point to a page of the allocator. -/
theorem deallocuvm_exact (d : PgDir ld) {newsz oldsz : Nat} (k : Kmem ld) (new : newsz ≤ kernBase)
    (old : oldsz ≤ kernBase) :
    (deallocuvm d oldsz newsz = if newsz < oldsz then do
        let d' ← deallocEach d (pgRoundUp newsz) (pagesTo (pgRoundUp newsz) oldsz)
        return (d', newsz)
      else return (d, oldsz)) ∧
    wp (deallocuvm d oldsz newsz) (fun r k' =>
      r.2 = (if newsz < oldsz then newsz else oldsz) ∧ Emptied d r.1 (pgRoundUp newsz) oldsz ∧
      Freed k k' (frames d (pgRoundUp newsz) oldsz)) (fun e => e = .kfree ∧ ¬Backed d) k := by
  constructor
  · rw [deallocuvm_eq d newsz old]
    split
    · rw [if_neg (by omega)]
    · rw [if_pos (by omega)]
  · by_cases shrinks : newsz < oldsz
    · rw [if_pos shrinks]
      exact wp_deallocuvm_frees d k old shrinks fun bad => ⟨rfl, bad⟩
    · have above : oldsz ≤ pgRoundUp newsz := by
        rw [pgRoundUp_eq new]
        omega
      have none : frames d (pgRoundUp newsz) oldsz = [] := by
        unfold frames
        rw [presentPages_done d above]
        rfl
      rw [deallocuvm_eq d newsz old, if_pos (by omega), if_neg shrinks, none]
      refine wp_ret ⟨rfl, ?_, rfl, fun _ _ => rfl⟩
      intro x _
      rw [if_neg (by omega)]

/-- All of a process that has two pages and the size of three. -/
theorem deallocuvm_exact_two :
    ∃ (d d' : PgDir smallLink) (k' : Kmem smallLink),
      deallocuvm d (3 * pgSize) 0 ⟨[], fun _ _ => 0⟩ = .ok ((d', 0), k') ∧
      present (d.pteOf 0) = true ∧ d'.pteOf 0 = 0 := by
  obtain ⟨page, table, lower, upper, rest, -⟩ := Boot.smallPages_cons
  have there : present ((pairDir page table lower upper pteW).pteOf 0) = true := by
    rw [pteOf_pairDir, if_pos (by decide)]
    exact present_pte _ _
  have spec := (@deallocuvm_exact _ (pairDir page table lower upper pteW) 0 (3 * pgSize)
    ⟨[], fun _ _ => 0⟩ (by decide) (by decide)).2
  obtain ⟨⟨d', sz⟩, k', result, size, emptied, -⟩ := wp_returns
    (wp_error spec fun _ bad => bad.2 (backed_pairDir page table lower upper (by decide)))
  cases size
  refine ⟨_, d', k', result, there, ?_⟩
  rw [emptied 0 ⟨by decide, rfl⟩, if_pos ⟨by decide, by decide, there⟩]

end ColorXv6.Vm.FlatMap
