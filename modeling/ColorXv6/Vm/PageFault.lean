import ColorXv6.Vm.ProcSpaces
import ColorXv6.Vm.Space

/-!
What the page-fault case of `trap` does, for any address and error code: it enters
one zeroed page in the directory of the process, or marks the process killed and
leaves its translations alone.
-/
namespace ColorXv6.Vm.PageFault
open Lib.LittleEndian Lib.Wp Param Mmu Kalloc PageDir Footprint Process Kernel ProcSpaces Mapping Space

variable {ld : Link}

/-- The handler gets past its two tests. -/
def Admitted (s : Machine ld) (p va err : Nat) : Prop :=
  pgRoundUp va ≤ (s.proc p).sz ∧ pgRoundDown va < kernBase ∧ err ≠ 7 ∧ err ≠ 5

/-- The list has the page for `va`, and the page table if that is missing. -/
def Enough (s : Machine ld) (d : PgDir ld) (va : Nat) : Prop :=
  (if present (d.pde (pdx va)) then 1 else 2) ≤ s.kmem.freelist.length

/-- The page of `va` was not present and is now a zeroed page from the list, writable for the
user; every other page is translated as before. -/
def MapsPage (s t : Machine ld) (p va : Nat) (d : PgDir ld) : Prop :=
  present (d.pteOf (pgRoundDown va)) = false ∧ ∃ d' f rest taken,
    (t.proc p).pgdir = some d' ∧ s.kmem.freelist = f :: rest ∧ rest = taken ++ t.kmem.freelist ∧
    (t.kmem.mem f.pa = fun _ => 0) ∧ ∀ x, IsPage x → d'.pteOf x =
      if x = pgRoundDown va then f.pa ||| (pteW ||| pteU) ||| pteP else d.pteOf x

/-- The process is marked, and every page is translated as before. -/
def Refuses (t : Machine ld) (p : Nat) (d : PgDir ld) : Prop :=
  (t.proc p).killed = true ∧
    ∃ d', (t.proc p).pgdir = some d' ∧ ∀ x, IsPage x → d'.pteOf x = d.pteOf x

/-- What the handler leaves alone. -/
structure Untouched (s t : Machine ld) (p : Nat) : Prop where
  size : (t.proc p).sz = (s.proc p).sz
  others : ∀ q, q ≠ p → t.proc q = s.proc q

theorem isPage_pgRoundDown {va : Nat} (small : va < 2 ^ 32) : IsPage (pgRoundDown va) :=
  ⟨Nat.lt_of_le_of_lt (pgRoundDown_le va) small, pgRoundDown_aligned va⟩

theorem pdx_pgRoundDown (va : Nat) : pdx (pgRoundDown va) = pdx va := by
  unfold pdx pgRoundDown pgSize
  omega

/-- A process without a directory is marked, or the handler dereferences a null pointer. -/
theorem spaces_pageFault {s : Machine ld} {p : Nat} (va err : Nat) (none : (s.proc p).pgdir = none) :
    wp (pageFault p va err) (fun _ t => spaces t = spaces s) anyHalt s := by
  have marked : ∀ t : Machine ld, spaces t = spaces s →
      wp (modifyProc p fun proc => { proc with killed := true })
        (fun _ t => spaces t = spaces s) anyHalt t := by
    intro t same
    have marks : Keeps spaces (modifyProc p fun proc : Proc ld => { proc with killed := true }) :=
      keeps_modifyProc p fun _ => rfl
    exact wp_mono (marks t) fun _ _ later => later.trans same
  unfold pageFault
  rw [wp_read]
  dsimp only
  split
  · exact marked s rfl
  · split
    · exact marked s rfl
    · apply wp_seq (keeps_inKmem kalloc s)
      intro r t same
      cases r with
      | none => exact marked t same
      | some mem =>
        apply wp_seq (wp_true _ t fun _ => True.intro)
        intro _ u _
        rw [none]
        exact wp_fail True.intro

/-- The handler stops only on a page that is present, and only if it is admitted. -/
theorem wp_pageFault {s : Machine ld} {p va err : Nat} {d : PgDir ld} {E : Halt → Prop}
    (small : va < 2 ^ 32) (dir : (s.proc p).pgdir = some d)
    (remap : Admitted s p va err → present (d.pteOf (pgRoundDown va)) = true →
      E (.memory .remap)) :
    wp (pageFault p va err) (fun _ t => Untouched s t p ∧
      (Admitted s p va err ∧ Enough s d va ∧ MapsPage s t p va d ∧
          (t.proc p).killed = (s.proc p).killed ∨
        ¬(Admitted s p va err ∧ Enough s d va) ∧ Refuses t p d)) E s := by
  have page := isPage_pgRoundDown small
  have marked : ∀ (t : Machine ld) (d' : PgDir ld), Untouched s t p → (t.proc p).pgdir = some d' →
      (∀ x, IsPage x → d'.pteOf x = d.pteOf x) → ¬(Admitted s p va err ∧ Enough s d va) →
      wp (modifyProc p fun proc => { proc with killed := true }) (fun _ t => Untouched s t p ∧
        (Admitted s p va err ∧ Enough s d va ∧ MapsPage s t p va d ∧
            (t.proc p).killed = (s.proc p).killed ∨
          ¬(Admitted s p va err ∧ Enough s d va) ∧ Refuses t p d)) E t := by
    intro t d' untouched found same refused
    apply wp_modifyProc
    refine ⟨⟨by simpa using untouched.size, ?_⟩, Or.inr ⟨refused, by simp, d', by simpa using found, same⟩⟩
    intro q other
    simpa [other] using untouched.others q other
  have start : Untouched s s p := ⟨rfl, fun _ _ => rfl⟩
  unfold pageFault
  rw [wp_read]
  dsimp only
  split
  · rename_i outside
    refine marked s d start dir (fun _ _ => rfl) ?_
    rintro ⟨⟨low, under, -⟩, -⟩
    omega
  · rename_i inside
    split
    · rename_i guard
      refine marked s d start dir (fun _ _ => rfl) ?_
      rintro ⟨⟨-, -, not7, not5⟩, -⟩
      omega
    · rename_i notGuard
      have admitted : Admitted s p va err := ⟨by omega, by omega, by omega, by omega⟩
      rw [wp_bind]
      apply wp_inKmem_of
      apply wp_kalloc
      · intro empty
        refine marked _ d start dir (fun _ _ => rfl) ?_
        rintro ⟨-, enough⟩
        unfold Enough at enough
        rw [empty] at enough
        split at enough <;> simp at enough
      · intro mem rest list
        rw [dir, wp_bind]
        apply wp_inKmem_of
        rw [memset, wp_modify]
        rw [wp_bind]
        apply wp_inKmem_of
        apply wp_mono (wp_mappages_page d mem.pa (pteW ||| pteU) _ page (remap admitted))
        rintro ⟨d', mapped⟩ k ⟨took, zeros, -, table, fresh, entries⟩
        rw [pdx_pgRoundDown] at table
        have enough : mapped = true ↔ Enough s d va := by
          unfold Enough
          rw [table, list]
          cases present (d.pde (pdx va)) <;> simp
        rw [wp_bind]
        apply wp_modifyProc
        cases mapped with
        | true =>
          obtain ⟨taken, left⟩ := took.list
          refine wp_ret ⟨⟨by simp, ?_⟩, Or.inl ⟨admitted, enough.mp rfl, ?_, by simp⟩⟩
          · intro q other
            simp [other]
          · refine ⟨fresh rfl, d', mem, rest, taken, by simp, list, left, zeros mem.pa (if_pos rfl), ?_⟩
            intro x isPage
            rw [entries x isPage]
            simp
        | false =>
          rw [if_neg (by simp), wp_bind]
          apply wp_inKmem_of
          apply wp_kfree
          · intro bad
            simp [frameOf_p2v] at bad
          · intro f _
            refine marked _ d' ⟨by simp, ?_⟩ (by simp) ?_ ?_
            · intro q other
              simp [other]
            · intro x isPage
              rw [entries x isPage, if_neg (by simp)]
            · rintro ⟨-, pages⟩
              exact absurd (enough.mpr pages) (by simp)

end ColorXv6.Vm.PageFault
