import ColorXv6.Vm.PageFault
import ColorXv6.Vm.UserPointers

/-!
Page faults of kernel code on memory of the calling process. A range that passed
the checks of syscall.c is byte-exact, the test of the page-fault case is rounded
up to pages: `trap` maps the page only if the whole page is below the size and
memory is left, and returns to the faulting instruction in every case.
-/
namespace ColorXv6.Vm.KernelFault
open Lib.Wp Lib.Runs Param Mmu Kalloc PageDir Process Kernel Mapping Boot UserPointers
open PageFault

variable {ld : Link}

/-- The page of `va` is present in the directory of process `p`. -/
def Mapped (s : Machine ld) (p va : Nat) : Prop :=
  ∃ d, (s.proc p).pgdir = some d ∧ present (d.pteOf (pgRoundDown va)) = true

/-- The whole page of `va` is below the size, and the list has the page and the page table
for it, if that is missing. -/
def Serviceable (s : Machine ld) (p : Nat) (d : PgDir ld) (va : Nat) : Prop :=
  pgRoundUp va ≤ (s.proc p).sz ∧
    (if present (d.pde (pdx va)) then 1 else 2) ≤ s.kmem.freelist.length

/-- What the page-fault case does in all the branches that give up. -/
def killed (s : Machine ld) (p : Nat) : Machine ld := { s with
  proc := fun q => if q = p then { s.proc q with killed := true } else s.proc q }

theorem killed_proc (s : Machine ld) (p : Nat) :
    (killed s p).proc p = { s.proc p with killed := true } := if_pos rfl

variable {s : Machine ld} {p : Nat}

/-- A kernel-mode fault on an unmapped page below KERNBASE: the handler returns, and has
mapped the page exactly when it could. -/
theorem pageFault_spec {va : Nat} {d : PgDir ld} (below : va < kernBase)
    (dir : (s.proc p).pgdir = some d) (absent : present (d.pteOf (pgRoundDown va)) = false) :
    wp (pageFault p va 0) (fun _ t => Mapped t p va ↔ Serviceable s p d va) noHalt s := by
  have small : va < 2 ^ 32 := by
    unfold kernBase at below
    omega
  have page := isPage_pgRoundDown small
  apply wp_mono (wp_pageFault small dir fun _ there => by simp [absent] at there)
  rintro _ t ⟨-, ⟨admitted, enough, mapped, -⟩ | ⟨refused, -, d', same, entries⟩⟩
  · obtain ⟨-, d', f, rest, taken, found, -, -, -, entries⟩ := mapped
    refine iff_of_true ⟨d', found, ?_⟩ ⟨admitted.1, enough⟩
    rw [entries _ page, if_pos rfl]
    exact present_pte _ _
  · refine iff_of_false ?_ ?_
    · rintro ⟨d1, found, mapped⟩
      rw [same] at found
      cases found
      rw [entries _ page, absent] at mapped
      exact absurd mapped (by decide)
    · rintro ⟨low, pages⟩
      have under : pgRoundDown va < kernBase := Nat.lt_of_le_of_lt (pgRoundDown_le va) below
      exact refused ⟨⟨low, under, by decide, by decide⟩, pages⟩

/-- `trap` on a fault of kernel code never ends the process. -/
theorem trap_kernel {va : Nat} (code : Nat) {Q : Machine ld → Prop}
    (handled : wp (pageFault p va 0) (fun _ t => Q t) noHalt s) :
    ∃ t, trap p false va code s = .ok (.resume, t) ∧ Q t := by
  have returns : wp (trap p false va code) (fun r t => r = .resume ∧ Q t) noHalt s := by
    apply wp_seq handled
    intro _ t after
    rw [wp_read]
    simp only [Bool.and_false, Bool.false_eq_true, if_false, wp_pure]
    exact ⟨True.intro, after⟩
  obtain ⟨r, t, result, rfl, after⟩ := wp_returns returns
  exact ⟨t, result, after⟩

/-- Kernel code touches an unmapped page of a range that was accepted from the process:
`trap` returns to the faulting instruction, with the page mapped exactly when the whole
page is below the size and memory for it is left. -/
theorem kernel_fault_maps_iff {s : Machine ld} {p start length va : Nat} (code : Nat) {d : PgDir ld}
    (bounded : (s.proc p).sz ≤ kernBase) (dir : (s.proc p).pgdir = some d)
    (accepted : Accepted (s.proc p).sz start length) (inside : start ≤ va ∧ va < start + length)
    (absent : present (d.pteOf (pgRoundDown va)) = false) :
    ∃ t, trap p false va code s = .ok (.resume, t) ∧ (Mapped t p va ↔ Serviceable s p d va) := by
  have range := accepted_below bounded accepted
  exact trap_kernel code (pageFault_spec (by omega) dir absent)

/-- A fault of kernel code on `va`, after which the instruction runs again. -/
def Refault (p va : Nat) (s : Machine ld) (code : Nat) (t : Machine ld) : Prop :=
  trap p false va code s = .ok (.resume, t)

/-- Above the last whole page the handler only marks the process killed. -/
theorem refault_killed {va : Nat} (code : Nat)
    (high : (s.proc p).sz < pgRoundUp va) : Refault p va s code (killed s p) := by
  have handled : wp (pageFault p va 0) (fun _ t => t = killed s p) noHalt s := by
    unfold pageFault
    rw [wp_read]
    rw [if_pos (Or.inl high)]
    exact wp_modifyProc rfl
  obtain ⟨t, result, rfl⟩ := trap_kernel code handled
  exact result

/-- So the instruction faults again, any number of times. -/
theorem refault_forever (va : Nat) {d : PgDir ld} (codes : List Nat)
    (high : (s.proc p).sz < pgRoundUp va) (dir : (s.proc p).pgdir = some d) :
    ∃ t, Run (Refault p va) s codes t ∧ (t.proc p).pgdir = some d := by
  induction codes generalizing s with
  | nil => exact ⟨s, .nil s, dir⟩
  | cons code codes ih =>
    have same := killed_proc s p
    obtain ⟨t, run, after⟩ := ih (s := killed s p) (by rw [same]; exact high) (by rw [same]; exact dir)
    exact ⟨t, .cons (refault_killed code high) run, after⟩

/-- 8192 bytes above the first page, of which the kernel is to write the second page. -/
theorem kernel_fault_maps_iff_second_page :
    ∃ (s t : Machine smallLink) (d : PgDir smallLink),
      Run Step smallMachine (booting ++ [.sbrk 0 8192]) s ∧
      trap 0 false 8192 2 s = .ok (.resume, t) ∧ (Mapped t 0 8192 ↔ Serviceable s 0 d 8192) := by
  obtain ⟨s, run, alone, -⟩ :=
    grown_process 8192 12288 (by decide) (by decide) (by decide)
  obtain ⟨d, dir, onePage⟩ := alone.dir
  have accepted : Accepted (s.proc 0).sz 8192 50 := by
    rw [alone.size]
    exact .argptr 8192 50 (by decide) (by decide) (by decide)
  have absent := onePage (pgRoundDown 8192) ⟨by decide, by decide⟩ (by decide) (by decide)
  obtain ⟨t, result⟩ := kernel_fault_maps_iff 2 (by rw [alone.size]; decide) dir accepted
    ⟨Nat.le_refl 8192, by decide⟩ absent
  exact ⟨s, t, d, run, result⟩

/-- The first process has a size of 5000 bytes, of which the first page is mapped. A buffer
of 4 bytes at 4500 is accepted, and the kernel's access to it faults any number of times
with the page unmapped. -/
theorem kernel_faults_forever :
    ∃ s, Run Step smallMachine (booting ++ [.sbrk 0 904]) s ∧
      (s.proc 0).sz ≤ kernBase ∧ Accepted (s.proc 0).sz 4500 4 ∧
      ∀ codes, ∃ t, Run (Refault 0 4500) s codes t ∧ ¬ Mapped t 0 4500 := by
  obtain ⟨s, run, alone, -⟩ :=
    grown_process 904 5000 (by decide) (by decide) (by decide)
  obtain ⟨d, dir, onePage⟩ := alone.dir
  have absent := onePage (pgRoundDown 4500) ⟨by decide, by decide⟩ (by decide) (by decide)
  refine ⟨s, run, by rw [alone.size]; decide, ?_, ?_⟩
  · rw [alone.size]
    exact .argptr 4500 4 (by decide) (by decide) (by decide)
  · intro codes
    obtain ⟨t, faults, same⟩ :=
      refault_forever 4500 codes (by rw [alone.size]; decide) dir
    refine ⟨t, faults, ?_⟩
    rintro ⟨d', other, mapped⟩
    rw [same] at other
    cases other
    simp [absent] at mapped

end ColorXv6.Vm.KernelFault
