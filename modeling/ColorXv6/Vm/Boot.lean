import ColorXv6.Vm.Kernel
import ColorXv6.Vm.Mapping

/-!
The machine comes up: with enough memory `userinit` returns and leaves a first
process that can be scheduled.
-/
namespace ColorXv6.Vm.Boot
open Lib.LittleEndian Lib.Slots Lib.Wp Lib.Runs Param Mmu Kalloc PageDir Process Kernel Mapping

variable {ld : Link}

/-- The specification of an action that always returns. -/
def noHalt (_ : Halt) : Prop := False

/-- Beyond the first page, nothing is mapped in the user half. -/
def OnePage (d : PgDir ld) : Prop :=
  ∀ x, IsPage x → pgSize ≤ x → x < kernBase → present (d.pteOf x) = false

/-- The page of the first process can be mapped in a directory without user pages. -/
theorem inituvm_succeeds (d : PgDir ld) (k : Kmem ld) (init : Bytes) {size : Nat}
    (small : size < pgSize) (enough : 2 ≤ k.freelist.length)
    (absent : ∀ x, IsPage x → x < kernBase → present (d.pteOf x) = false) :
    wp (inituvm d init size) (fun r k' => r.2 = none ∧ OnePage r.1 ∧
      k.freelist.length ≤ k'.freelist.length + 2) noStop k := by
  unfold inituvm
  rw [if_neg (by omega), wp_bind]
  apply wp_kalloc
  · intro empty
    simp [empty] at enough
  · intro mem rest list
    have length : k.freelist.length = rest.length + 1 := by simp [list]
    have zero : IsPage 0 := ⟨by decide, by decide⟩
    rw [wp_bind, memset, wp_modify]
    apply wp_seq (mappages_enters d _ _ zero (by decide) (by decide) mem.pa_lt ?_)
    · rintro ⟨d', mapped⟩ k' ⟨n, entered, -, full, -, succeeds⟩
      have needed := tablesNeeded_le d 0 (pgRoundDown (0 + pgSize - 1))
      have single : pdx (pgRoundDown (0 + pgSize - 1)) = 0 := by decide
      obtain ⟨ok, left⟩ := succeeds (by dsimp only; omega)
      dsimp only at ok entered full left
      rw [wp_bind, storeBytes, wp_modify]
      refine wp_ret ⟨by simp [ok], ?_, by dsimp only; omega⟩
      intro x page after below
      have one : n * pgSize = pgSize := by
        rw [full ok]
        decide
      rw [entered x page, one, if_neg (by omega)]
      exact absent x page below
    · intro x page _ below
      exact absent x page (by unfold pgSize at below; unfold kernBase; omega)

/-- The first process is alone and has no files. Of its `sz` bytes the first page is mapped. -/
structure Alone (state : ProcState) (sz : Nat) (m : Machine ld) : Prop where
  state : (m.proc 0).state = state
  size : (m.proc 0).sz = sz
  alive : (m.proc 0).killed = false
  closed : (m.proc 0).ofile = fun _ => none
  others : ∀ q, q ≠ 0 → m.proc q = {}
  files : m.file = fun _ => {}
  dir : ∃ d, (m.proc 0).pgdir = some d ∧ OnePage d

theorem Alone.bounded {state : ProcState} {sz : Nat} {m : Machine ld} (alone : Alone state sz m)
    (small : sz ≤ kernBase) : Bounded m := by
  intro q
  by_cases here : q = 0
  · rw [here, alone.size]
    exact small
  · rw [alone.others q here]
    exact Nat.zero_le _

/-- After boot the first process is runnable and one page long; it took at most 70 pages. -/
theorem userinit_succeeds {pages : List (Frame ld)} (enough : 70 ≤ pages.length) (mem : Nat → Bytes)
    (init : Bytes) {size : Nat} (small : size < pgSize) :
    wp (userinit init size) (fun _ m => Alone .runnable pgSize m ∧
      pages.length ≤ m.kmem.freelist.length + 70) noHalt (powerOn pages mem) := by
  have slot : firstSlot nproc (fun p => decide (((powerOn pages mem).proc p).state = .unused)) =
      some 0 := rfl
  unfold userinit allocproc
  rw [wp_bind, wp_read, slot]
  simp only [wp_bind]
  unfold modifyProc
  simp only [wp_modify]
  apply wp_inKmem_of
  apply wp_kalloc
  · intro empty
    simp only [powerOn] at empty
    simp [empty] at enough
  · intro kstack rest list
    have length : pages.length = rest.length + 1 := by
      simp only [powerOn] at list
      simp [list]
    simp only [wp_bind, wp_modify, wp_pure]
    apply wp_inKmem_of
    apply wp_mono (setupkvm_succeeds _ (by dsimp only; omega))
    rintro dir k ⟨d, rfl, left, absent⟩
    dsimp only at left
    simp only [wp_bind]
    apply wp_inKmem_of
    apply wp_mono (inituvm_succeeds d k init small (by omega) absent)
    rintro ⟨d', lost⟩ k' ⟨-, onePage, few⟩
    simp only [wp_modify]
    refine ⟨⟨rfl, rfl, rfl, rfl, fun q different => ?_, rfl, d', rfl, onePage⟩, by omega⟩
    simp [different, powerOn]

/-- The first process gets to run, in a run all of whose processes stay below KERNBASE. -/
theorem first_process_runs {pages : List (Frame ld)} (enough : 70 ≤ pages.length)
    (mem : Nat → Bytes) (init : Bytes) {size : Nat} (small : size < pgSize) :
    ∃ m, Run (Guarded (fun s _ => Bounded s) Step) (powerOn pages mem)
        [.userinit init size, .schedule 0] m ∧
      Alone .running pgSize m ∧ pages.length ≤ m.kmem.freelist.length + 70 := by
  obtain ⟨_, m, booted, alone, left⟩ := wp_returns (userinit_succeeds enough mem init small)
  have start : Bounded (powerOn pages mem) := fun _ => Nat.zero_le _
  refine ⟨_, .cons ⟨start, rfl, booted⟩ (.cons
    ⟨alone.bounded (by decide), ⟨by decide, alone.state⟩, rfl⟩ (.nil _)), ?_, left⟩
  exact { alone with
    state := rfl
    others := fun q other => (if_neg other).trans (alone.others q other) }

/-- A kernel image and 80 free pages after it. -/
def smallLink : Link where
  kernEnd := 0x80200000
  data := 0x80110000
  data_aligned := by decide
  data_low := by decide
  data_high := by decide
  data_end := by decide

theorem small_aligned (i : Fin 80) : (0x400000 + i.val * 4096) % pgSize = 0 := by
  unfold pgSize
  omega

theorem small_low (i : Fin 80) : smallLink.kernEnd ≤ 0x400000 + i.val * 4096 + kernBase := by
  simp only [smallLink, kernBase]
  omega

theorem small_high (i : Fin 80) : 0x400000 + i.val * 4096 < physTop := by
  unfold physTop
  omega

def smallPages : List (Frame smallLink) :=
  List.ofFn fun i => ⟨0x400000 + i.val * 4096, small_aligned i, small_low i, small_high i⟩

theorem smallPages_length : smallPages.length = 80 := by
  unfold smallPages
  rw [List.length_ofFn]

theorem smallPages_enough : 70 ≤ smallPages.length := by
  rw [smallPages_length]
  decide

theorem smallPages_nodup : smallPages.Nodup := by
  unfold smallPages
  rw [List.nodup_ofFn]
  intro i j same
  simp only [Frame.mk.injEq] at same
  omega

theorem smallPages_pa : (smallPages.map Frame.pa).Nodup :=
  smallPages_nodup.map fun _ _ same => Frame.ext same

theorem smallPages_cons : ∃ page table lower upper rest,
    smallPages = page :: table :: lower :: upper :: rest :=
  ⟨_, _, _, _, _, rfl⟩

/-- A machine with these pages, and its actions until the first process runs. -/
def smallMachine : Machine smallLink := powerOn smallPages fun _ _ => 0

def booting : List Action := [.userinit (fun _ => 0) 0, .schedule 0]

theorem small_process_runs : ∃ m, Run (Guarded (fun s _ => Bounded s) Step) smallMachine booting m ∧
    Alone .running pgSize m ∧ 10 ≤ m.kmem.freelist.length := by
  obtain ⟨m, run, alone, left⟩ :=
    first_process_runs smallPages_enough (fun _ _ => 0) (fun _ => 0) (by decide : 0 < pgSize)
  rw [smallPages_length] at left
  exact ⟨m, run, alone, by omega⟩

end ColorXv6.Vm.Boot
