import Mathlib.Tactic.Ring

/-!
Addresses, page-table entries and the memory layout, from mmu.h and
memlayout.h. A `uint` is a natural number below 2^32; operations that can leave
that range are followed by `word`.
-/
namespace ColorXv6.Vm.Mmu

def word (n : Nat) : Nat := n % 2 ^ 32

def pgSize : Nat := 4096
def npdEntries : Nat := 1024
def nptEntries : Nat := 1024

def extMem : Nat := 0x100000
def physTop : Nat := 0xE000000
def devSpace : Nat := 0xFE000000
def kernBase : Nat := 0x80000000
def kernLink : Nat := kernBase + extMem

def v2p (a : Nat) : Nat := word (a + (2 ^ 32 - kernBase))
def p2v (a : Nat) : Nat := word (a + kernBase)

/-- Page directory index of an address. -/
def pdx (va : Nat) : Nat := va / 2 ^ 22 % 1024

/-- Page table index of an address. -/
def ptx (va : Nat) : Nat := va / 2 ^ 12 % 1024

def pgAddr (d t o : Nat) : Nat := word (d <<< 22 ||| t <<< 12 ||| o)

/-- The addition wraps at 2^32, as it does on the `uint` arguments of the source. -/
def pgRoundUp (sz : Nat) : Nat := word (sz + (pgSize - 1)) / pgSize * pgSize
def pgRoundDown (a : Nat) : Nat := a / pgSize * pgSize

def pteP : Nat := 0x001
def pteW : Nat := 0x002
def pteU : Nat := 0x004

/-- `pte & PTE_P` is not zero. -/
def present (pte : Nat) : Bool := pte.testBit 0
/-- `pte & PTE_U` is not zero. -/
def userBit (pte : Nat) : Bool := pte.testBit 2
def pteAddr (pte : Nat) : Nat := word pte / pgSize * pgSize
def pteFlags (pte : Nat) : Nat := pte % pgSize

theorem word_lt (n : Nat) : word n < 2 ^ 32 := Nat.mod_lt _ (by decide)

theorem pdx_lt (va : Nat) : pdx va < npdEntries := Nat.mod_lt _ (by decide)

theorem ptx_lt (va : Nat) : ptx va < nptEntries := Nat.mod_lt _ (by decide)

/-- The user half of a page directory is the part that addresses below KERNBASE use. -/
theorem pdx_lt_user {va : Nat} (user : va < kernBase) : pdx va < 512 := by
  unfold pdx
  unfold kernBase at user
  omega

theorem pdx_ge_kernel {va : Nat} (kernel : kernBase ≤ va) (small : va < 2 ^ 32) :
    512 ≤ pdx va := by
  unfold pdx
  unfold kernBase at kernel
  omega

theorem pgRoundDown_le (a : Nat) : pgRoundDown a ≤ a := Nat.div_mul_le_self _ _

theorem pgRoundDown_aligned (a : Nat) : pgRoundDown a % pgSize = 0 := Nat.mul_mod_left _ _

variable {a pa : Nat}

theorem pgRoundDown_of_aligned (aligned : a % pgSize = 0) : pgRoundDown a = a := by
  unfold pgRoundDown pgSize at *
  omega

/-- The last page of a one-page range that starts at a page boundary is its first. -/
theorem pgRoundDown_single {va : Nat} (aligned : va % pgSize = 0) (user : va < kernBase) :
    pgRoundDown (word (va + pgSize + (2 ^ 32 - 1))) = va := by
  unfold pgRoundDown word kernBase pgSize at *
  omega

theorem pgRoundUp_aligned (a : Nat) : pgRoundUp a % pgSize = 0 := Nat.mul_mod_left _ _

theorem pgRoundUp_lt (sz : Nat) : pgRoundUp sz < 2 ^ 32 := by
  unfold pgRoundUp word pgSize
  omega

/-- Rounding up does not wrap below the kernel's half of the address space. -/
theorem pgRoundUp_eq {sz : Nat} (small : sz ≤ kernBase) :
    pgRoundUp sz = (sz + 4095) / 4096 * 4096 := by
  unfold pgRoundUp word pgSize
  unfold kernBase at small
  rw [Nat.mod_eq_of_lt (by omega)]

/-- The address of the next page table's first page. -/
theorem pgAddr_next (va : Nat) : pgAddr (pdx va + 1) 0 0 = word ((pdx va + 1) * 2 ^ 22) := by
  simp [pgAddr, Nat.shiftLeft_eq]

theorem word_next (user : a < kernBase) : word (a + pgSize) = a + pgSize := by
  unfold word
  unfold kernBase pgSize at *
  omega

/-- Where `deallocuvm` continues after a page table that is missing. -/
theorem next_table (user : a < kernBase) :
    word (word (pgAddr (pdx a + 1) 0 0 + (2 ^ 32 - pgSize)) + pgSize) = (pdx a + 1) * 2 ^ 22 := by
  have below := pdx_lt_user user
  rw [pgAddr_next]
  unfold word pgSize
  omega

/-- A page address is determined by its two indices. -/
theorem page_eq (small : a < 2 ^ 32) (aligned : a % pgSize = 0) :
    a = pdx a * 2 ^ 22 + ptx a * 2 ^ 12 := by
  unfold pdx ptx
  unfold pgSize at aligned
  omega

theorem p2v_of_lt (small : pa < physTop) : p2v pa = pa + kernBase := by
  unfold p2v word kernBase
  unfold physTop at small
  omega

theorem v2p_p2v (small : pa < 2 ^ 32) : v2p (p2v pa) = pa := by
  unfold v2p p2v word kernBase
  omega

/-- A page-aligned frame and flags below the page size do not overlap in an entry. -/
theorem pte_eq_add {perm : Nat} (aligned : pa % pgSize = 0) (small : perm < pgSize) :
    pa ||| perm ||| pteP = pa + (perm ||| pteP) := by
  have bound : perm ||| pteP < 2 ^ 12 := Nat.or_lt_two_pow small (by decide)
  have split : 2 ^ 12 * (pa / 4096) = pa := by
    unfold pgSize at aligned
    omega
  have disjoint := Nat.two_pow_add_eq_or_of_lt bound (pa / 4096)
  rw [split] at disjoint
  rw [Nat.or_assoc, disjoint]

theorem pteAddr_lt (pte : Nat) : pteAddr pte < 2 ^ 32 := by
  unfold pteAddr word pgSize
  omega

theorem pteAddr_pte {perm : Nat} (aligned : pa % pgSize = 0) (bounded : pa < 2 ^ 32)
    (small : perm < pgSize) : pteAddr (pa ||| perm ||| pteP) = pa := by
  have bound : perm ||| pteP < 2 ^ 12 := Nat.or_lt_two_pow small (by decide)
  rw [pte_eq_add aligned small]
  unfold pteAddr word
  unfold pgSize at *
  omega

/-- `clearpteu` changes neither the frame nor the present bit of an entry. -/
theorem pteAddr_clear (pte : Nat) : pteAddr (pte &&& (2 ^ 32 - 1 - pteU)) = pteAddr pte := by
  have low : word (pte &&& (2 ^ 32 - 1 - pteU)) = word pte &&& (2 ^ 32 - 1 - pteU) :=
    Nat.and_mod_two_pow
  have high : word pte / 2 ^ 12 < 2 ^ 20 := by
    unfold word
    omega
  have same : (word pte &&& (2 ^ 32 - 1 - pteU)) / 2 ^ 12 = word pte / 2 ^ 12 := by
    rw [Nat.and_div_two_pow]
    exact (Nat.and_two_pow_sub_one_eq_mod _ 20).trans (Nat.mod_eq_of_lt high)
  unfold pteAddr
  rw [low]
  exact congrArg (· * pgSize) same

theorem present_clear (pte : Nat) : present (pte &&& (2 ^ 32 - 1 - pteU)) = present pte := by
  unfold present
  rw [Nat.testBit_and]
  simp [pteU]

@[simp] theorem present_pte (pa perm : Nat) : present (pa ||| perm ||| pteP) = true := by
  simp [present, pteP]

@[simp] theorem present_zero : present 0 = false := rfl

end ColorXv6.Vm.Mmu
