import ColorXv6.Vm.Kalloc

/-!
Page directories and the functions of vm.c. A page directory is kept with the
contents of the page-table pages its entries point to; that no two entries share
a page-table page is part of what `Vm.Ownership` shows, and it is why the
contents can be kept with the entry. A pointer to a page-table entry is the pair
of its directory and table index. The comments of the loops name the `for` of
the source; `fuel` bounds the iterations a 32-bit counter allows.
-/
namespace ColorXv6.Vm.PageDir
open Lib.LittleEndian Lib.Wp Mmu Kalloc

structure PgDir (ld : Link) where
  page : Frame ld
  pde : Nat → Nat
  pgtab : Nat → Nat → Nat

variable {ld : Link}

namespace PgDir

def setPte (d : PgDir ld) (i j value : Nat) : PgDir ld :=
  { d with pgtab := fun i' j' => if i' = i ∧ j' = j then value else d.pgtab i' j' }

/-- Point directory entry `i` to the page table `page`, all of whose entries are zero. -/
def addTable (d : PgDir ld) (i page : Nat) : PgDir ld :=
  { d with
    pde := fun i' => if i' = i then page ||| (pteW ||| pteU) ||| pteP else d.pde i'
    pgtab := fun i' => if i' = i then fun _ => 0 else d.pgtab i' }

/-- The entry that translates `va`, zero where there is no page table. -/
def pteOf (d : PgDir ld) (va : Nat) : Nat :=
  if present (d.pde (pdx va)) then d.pgtab (pdx va) (ptx va) else 0

end PgDir

/-- Pages of a 32-bit address space, which bounds the iterations of the loops below. -/
def addressPages : Nat := 2 ^ 20

def walkpgdir (d : PgDir ld) (va : Nat) (alloc : Bool) :
    Prog (Kmem ld) Stop (PgDir ld × Option (Nat × Nat)) := do
  if present (d.pde (pdx va)) then
    return (d, some (pdx va, ptx va))
  else if !alloc then
    return (d, none)
  else
    match ← kalloc with
    | none => return (d, none)
    | some pgtab =>
      memset pgtab.pa 0
      return (d.addTable (pdx va) pgtab.pa, some (pdx va, ptx va))

/-- The loop of `mappages` from page `a` to page `last`. -/
def mapFrom (d : PgDir ld) (a last pa perm : Nat) :
    Nat → Prog (Kmem ld) Stop (PgDir ld × Bool)
  | 0 => throw .endless
  | fuel + 1 => do
    let (d, pte) ← walkpgdir d a true
    match pte with
    | none => return (d, false)
    | some (i, j) =>
      if present (d.pgtab i j) then
        throw .remap
      else if a = last then
        return (d.setPte i j (pa ||| perm ||| pteP), true)
      else
        mapFrom (d.setPte i j (pa ||| perm ||| pteP)) (word (a + pgSize)) last
          (word (pa + pgSize)) perm fuel

/-- Returns whether the source returns 0. -/
def mappages (d : PgDir ld) (va size pa perm : Nat) : Prog (Kmem ld) Stop (PgDir ld × Bool) :=
  mapFrom d (pgRoundDown va) (pgRoundDown (word (va + size + (2 ^ 32 - 1)))) pa perm
    (addressPages + 1)

/-- The loop of `deallocuvm`, at `a`. A missing page table moves `a` to the last page
before the next table, and the loop's own increment to that table. -/
def deallocFrom (d : PgDir ld) (a oldsz : Nat) : Nat → Prog (Kmem ld) Stop (PgDir ld)
  | 0 => throw .endless
  | fuel + 1 => do
    if a < oldsz then
      let (d, pte) ← walkpgdir d a false
      match pte with
      | none =>
        let a := word (pgAddr (pdx a + 1) 0 0 + (2 ^ 32 - pgSize))
        deallocFrom d (word (a + pgSize)) oldsz fuel
      | some (i, j) =>
        if present (d.pgtab i j) then
          if pteAddr (d.pgtab i j) = 0 then
            throw .kfree
          else
            kfree (p2v (pteAddr (d.pgtab i j)))
            deallocFrom (d.setPte i j 0) (word (a + pgSize)) oldsz fuel
        else
          deallocFrom d (word (a + pgSize)) oldsz fuel
    else
      return d

/-- Without allocation the walk changes nothing. -/
theorem walkpgdir_find (d : PgDir ld) (va : Nat) :
    walkpgdir d va false =
      pure (d, if present (d.pde (pdx va)) then some (pdx va, ptx va) else none) := by
  unfold walkpgdir
  split <;> simp_all

section DeallocStep
variable (d : PgDir ld) {a oldsz : Nat} (fuel : Nat)

theorem deallocFrom_done (done : oldsz ≤ a) : deallocFrom d a oldsz (fuel + 1) = pure d := by
  rw [deallocFrom, if_neg (by omega)]

theorem deallocFrom_missing (inside : a < oldsz) (user : a < kernBase)
    (absent : present (d.pde (pdx a)) = false) :
    deallocFrom d a oldsz (fuel + 1) = deallocFrom d ((pdx a + 1) * 2 ^ 22) oldsz fuel := by
  rw [deallocFrom, if_pos inside, walkpgdir_find, pure_bind, absent]
  rw [← next_table user]
  rfl

theorem deallocFrom_unmapped (inside : a < oldsz) (user : a < kernBase)
    (table : present (d.pde (pdx a)) = true) (absent : present (d.pgtab (pdx a) (ptx a)) = false) :
    deallocFrom d a oldsz (fuel + 1) = deallocFrom d (a + pgSize) oldsz fuel := by
  rw [deallocFrom, if_pos inside, walkpgdir_find, pure_bind, table]
  simp [absent, word_next user]

theorem deallocFrom_mapped (inside : a < oldsz) (user : a < kernBase)
    (table : present (d.pde (pdx a)) = true) (mapped : present (d.pgtab (pdx a) (ptx a)) = true) :
    deallocFrom d a oldsz (fuel + 1) =
      if pteAddr (d.pgtab (pdx a) (ptx a)) = 0 then throw .kfree
      else kfree (p2v (pteAddr (d.pgtab (pdx a) (ptx a)))) >>= fun _ =>
        deallocFrom (d.setPte (pdx a) (ptx a) 0) (a + pgSize) oldsz fuel := by
  rw [deallocFrom, if_pos inside, walkpgdir_find, pure_bind, table]
  simp [mapped, word_next user]

end DeallocStep

variable {a : Nat}

/-- A present page has its entry in a page table. -/
theorem PgDir.table_of_present {d : PgDir ld} (there : present (d.pteOf a) = true) :
    present (d.pde (pdx a)) = true ∧ d.pteOf a = d.pgtab (pdx a) (ptx a) := by
  unfold PgDir.pteOf at *
  split at there
  · rename_i table
    exact ⟨table, if_pos table⟩
  · cases there

/-- Checking the `n` pages from `a` on, one by one. -/
def deallocEach (d : PgDir ld) (a : Nat) : Nat → Prog (Kmem ld) Stop (PgDir ld)
  | 0 => return d
  | n + 1 => do
    if present (d.pteOf a) then
      if pteAddr (d.pteOf a) = 0 then
        throw .kfree
      else
        kfree (p2v (pteAddr (d.pteOf a)))
        deallocEach (d.setPte (pdx a) (ptx a) 0) (a + pgSize) n
    else
      deallocEach d (a + pgSize) n

theorem deallocEach_absent (d : PgDir ld) (n : Nat) (absent : present (d.pteOf a) = false) :
    deallocEach d a (n + 1) = deallocEach d (a + pgSize) n := by
  rw [deallocEach, absent, if_neg Bool.false_ne_true]

theorem deallocEach_present (d : PgDir ld) (n : Nat) (there : present (d.pteOf a) = true) :
    deallocEach d a (n + 1) = if pteAddr (d.pteOf a) = 0 then throw .kfree
      else kfree (p2v (pteAddr (d.pteOf a))) >>= fun _ =>
        deallocEach (d.setPte (pdx a) (ptx a) 0) (a + pgSize) n := by
  rw [deallocEach, there, if_pos rfl]

theorem deallocEach_skip (d : PgDir ld) {m : Nat} (n : Nat)
    (absent : ∀ j < m, present (d.pteOf (a + j * pgSize)) = false) :
    deallocEach d a (m + n) = deallocEach d (a + m * pgSize) n := by
  induction m generalizing a with
  | zero => rw [Nat.zero_add, Nat.zero_mul, Nat.add_zero]
  | succ m ih =>
    have first := absent 0 (by omega)
    rw [Nat.zero_mul, Nat.add_zero] at first
    have later : ∀ j < m, present (d.pteOf (a + pgSize + j * pgSize)) = false := by
      intro j inside
      have next := absent (j + 1) (by omega)
      rwa [Nat.succ_mul, Nat.add_comm (j * pgSize), ← Nat.add_assoc] at next
    rw [Nat.add_right_comm, deallocEach_absent d _ first, ih later, Nat.succ_mul, Nat.add_comm (m * pgSize),
      ← Nat.add_assoc]

/-- The pages from `a` on and below `hi`. -/
def pagesTo (a hi : Nat) : Nat := (hi - a + (pgSize - 1)) / pgSize

/-- The jump over a missing page table passes only absent pages. -/
theorem deallocFrom_eq (d : PgDir ld) {oldsz : Nat} (fuel : Nat) (user : oldsz ≤ kernBase)
    (aligned : a % pgSize = 0) (room : pagesTo a oldsz < fuel) :
    deallocFrom d a oldsz fuel = deallocEach d a (pagesTo a oldsz) := by
  induction fuel generalizing d a with
  | zero => exact absurd room (Nat.not_lt_zero _)
  | succ fuel ih =>
    by_cases inside : a < oldsz
    · have below : a < kernBase := Nat.lt_of_lt_of_le inside user
      have nextAligned : (a + pgSize) % pgSize = 0 := by simp [aligned]
      have count : pagesTo a oldsz = pagesTo (a + pgSize) oldsz + 1 := by
        unfold pagesTo pgSize
        omega
      cases table : present (d.pde (pdx a)) with
      | false =>
        have far : a + pgSize ≤ (pdx a + 1) * 2 ^ 22 ∧ (pdx a + 1) * 2 ^ 22 % pgSize = 0 ∧
            ∀ x, a ≤ x → x < (pdx a + 1) * 2 ^ 22 → pdx x = pdx a := by
          unfold kernBase at below
          unfold pgSize pdx at *
          exact ⟨by omega, by omega, fun x _ _ => by omega⟩
        rw [deallocFrom_missing d fuel inside below table]
        generalize (pdx a + 1) * 2 ^ 22 = next at far
        obtain ⟨later, alignedNext, covers⟩ := far
        have fewer : pagesTo next oldsz ≤ pagesTo (a + pgSize) oldsz := by
          unfold pagesTo pgSize at *
          omega
        obtain ⟨m, whole⟩ := Nat.exists_eq_add_of_le (Nat.le_trans fewer (by omega :
          pagesTo (a + pgSize) oldsz ≤ pagesTo a oldsz))
        rw [ih d alignedNext (by omega), whole, Nat.add_comm (pagesTo next oldsz), deallocEach_skip]
        · by_cases last : pagesTo next oldsz = 0
          · rw [last]
            rfl
          · have there : a + m * pgSize = next := by
              unfold pagesTo pgSize at *
              omega
            rw [there]
        · intro j passed
          have same : pdx (a + j * pgSize) = pdx a := by
            apply covers <;> unfold pagesTo pgSize at * <;> omega
          rw [PgDir.pteOf, same, table, if_neg Bool.false_ne_true]
          rfl
      | true =>
        have entry : d.pteOf a = d.pgtab (pdx a) (ptx a) := by simp [PgDir.pteOf, table]
        rw [count]
        cases mapped : present (d.pgtab (pdx a) (ptx a)) with
        | false =>
          rw [deallocFrom_unmapped d fuel inside below table mapped, ih d nextAligned (by omega),
            deallocEach_absent d _ (entry ▸ mapped)]
        | true =>
          rw [deallocFrom_mapped d fuel inside below table mapped, deallocEach_present d _ (entry ▸ mapped),
            entry, ih _ nextAligned (by omega)]
    · have none : pagesTo a oldsz = 0 := by
        unfold pagesTo pgSize
        omega
      rw [deallocFrom_done d fuel (by omega), none]
      rfl

/-- Returns the directory and the new size. -/
def deallocuvm (d : PgDir ld) (oldsz newsz : Nat) : Prog (Kmem ld) Stop (PgDir ld × Nat) := do
  if newsz ≥ oldsz then
    return (d, oldsz)
  else
    let d ← deallocFrom d (pgRoundUp newsz) oldsz (addressPages + 1)
    return (d, newsz)

/-- The room that the loops over user pages give themselves. -/
theorem loop_room {bound : Nat} (user : bound ≤ kernBase) : pagesTo a bound < addressPages + 1 := by
  unfold pagesTo addressPages
  unfold kernBase at user
  unfold pgSize
  omega

/-- The pages below the size of a process are user pages. -/
theorem pagesTo_user {bound : Nat} (user : bound ≤ kernBase) (aligned : a % pgSize = 0) :
    pagesTo a bound = 0 ∨ a + pagesTo a bound * pgSize ≤ kernBase := by
  unfold pagesTo
  unfold kernBase at *
  unfold pgSize at *
  omega

theorem deallocuvm_eq (d : PgDir ld) {oldsz : Nat} (newsz : Nat) (user : oldsz ≤ kernBase) :
    deallocuvm d oldsz newsz = if newsz ≥ oldsz then pure (d, oldsz)
      else deallocEach d (pgRoundUp newsz) (pagesTo (pgRoundUp newsz) oldsz) >>= fun d =>
        pure (d, newsz) := by
  rw [deallocuvm, deallocFrom_eq d _ user (pgRoundUp_aligned newsz) (loop_room user)]

/-- The loop of `allocuvm`, at `a`. -/
def allocFrom (d : PgDir ld) (a oldsz newsz : Nat) :
    Nat → Prog (Kmem ld) Stop (PgDir ld × Nat)
  | 0 => throw .endless
  | fuel + 1 => do
    if a < newsz then
      match ← kalloc with
      | none =>
        let (d, _) ← deallocuvm d newsz oldsz
        return (d, 0)
      | some mem =>
        memset mem.pa 0
        let (d, mapped) ← mappages d a pgSize mem.pa (pteW ||| pteU)
        if mapped then
          allocFrom d (word (a + pgSize)) oldsz newsz fuel
        else
          let (d, _) ← deallocuvm d newsz oldsz
          kfree (p2v mem.pa)
          return (d, 0)
    else
      return (d, newsz)

/-- Returns the directory and the new size, 0 on error. -/
def allocuvm (d : PgDir ld) (oldsz newsz : Nat) : Prog (Kmem ld) Stop (PgDir ld × Nat) := do
  if newsz ≥ kernBase then
    return (d, 0)
  else if newsz < oldsz then
    return (d, oldsz)
  else
    allocFrom d (pgRoundUp oldsz) oldsz newsz (addressPages + 1)

/-- The loop of `freevm` over the first `n` directory entries. -/
def freeTables (d : PgDir ld) : Nat → Prog (Kmem ld) Stop Unit
  | 0 => return ()
  | n + 1 => do
    freeTables d n
    if present (d.pde n) then
      kfree (p2v (pteAddr (d.pde n)))

/-- The page-table pages and the directory page, the part of `freevm` that is not
conditional. -/
def freeDir (d : PgDir ld) : Prog (Kmem ld) Stop Unit := do
  freeTables d npdEntries
  kfree (p2v d.page.pa)

def freevm (pgdir : Option (PgDir ld)) (dodeallocuvm : Bool) : Prog (Kmem ld) Stop Unit := do
  match pgdir with
  | none => throw .freevmNoPgdir
  | some d =>
    if dodeallocuvm then
      let (d, _) ← deallocuvm d kernBase 0
      freeDir d
    else
      freeDir d

structure KMap where
  virt : Nat
  physStart : Nat
  physEnd : Nat
  perm : Nat

/-- `phys_end - phys_start`, in `uint` arithmetic. -/
def KMap.size (m : KMap) : Nat := word (m.physEnd + (2 ^ 32 - m.physStart))

/-- The kernel's mappings, present in every page directory. -/
def kmap (ld : Link) : List KMap :=
  [⟨kernBase, 0, extMem, pteW⟩,
   ⟨kernLink, v2p kernLink, v2p ld.data, 0⟩,
   ⟨ld.data, v2p ld.data, physTop, pteW⟩,
   ⟨devSpace, devSpace, 0, pteW⟩]

/-- The loop of `setupkvm` over `kmap`. -/
def mapKernel (d : PgDir ld) : List KMap → Prog (Kmem ld) Stop (PgDir ld × Bool)
  | [] => return (d, true)
  | k :: rest => do
    let (d, mapped) ← mappages d k.virt k.size k.physStart k.perm
    if mapped then
      mapKernel d rest
    else
      return (d, false)

def setupkvm : Prog (Kmem ld) Stop (Option (PgDir ld)) := do
  match ← kalloc with
  | none => return none
  | some page =>
    memset page.pa 0
    if p2v physTop > devSpace then
      throw .physTopTooHigh
    else
      let (d, mapped) ← mapKernel { page, pde := fun _ => 0, pgtab := fun _ _ => 0 } (kmap ld)
      if mapped then
        return some d
      else
        freevm (some d) false
        return none

/-- The second result is the page when `mappages` failed, which the source does not test:
the page is then neither mapped nor freed. -/
def inituvm (d : PgDir ld) (init : Bytes) (sz : Nat) :
    Prog (Kmem ld) Stop (PgDir ld × Option (Frame ld)) := do
  if sz ≥ pgSize then
    throw .inituvmMoreThanAPage
  else
    match ← kalloc with
    | none => throw .nullPointer
    | some mem =>
      memset mem.pa 0
      let (d, mapped) ← mappages d 0 pgSize mem.pa (pteW ||| pteU)
      storeBytes mem.pa 0 sz init
      return (d, if mapped then none else some mem)

def clearpteu (d : PgDir ld) (uva : Nat) : Prog (Kmem ld) Stop (PgDir ld) := do
  let (d, pte) ← walkpgdir d uva false
  match pte with
  | none => throw .clearpteu
  | some (i, j) => return d.setPte i j (d.pgtab i j &&& (2 ^ 32 - 1 - pteU))

/-- A turn of the loop of `copyuvm`, for the page at `i`: the copy so far, and whether to go on. -/
def copyTurn (parent d : PgDir ld) (i : Nat) : Prog (Kmem ld) Stop (PgDir ld × Bool) := do
  if present (parent.pteOf i) then
    match ← kalloc with
    | none => return (d, false)
    | some mem =>
      copyPage mem.pa (pteAddr (parent.pteOf i))
      let (d, mapped) ← mappages d i pgSize mem.pa (pteFlags (parent.pteOf i))
      if mapped then
        return (d, true)
      else
        kfree (p2v mem.pa)
        return (d, false)
  else
    return (d, true)

def copyFrom (parent d : PgDir ld) (i sz : Nat) :
    Nat → Prog (Kmem ld) Stop (PgDir ld × Bool)
  | 0 => throw .endless
  | fuel + 1 => do
    if i < sz then
      let (d, copied) ← copyTurn parent d i
      if copied then
        copyFrom parent d (word (i + pgSize)) sz fuel
      else
        return (d, false)
    else
      return (d, true)

/-- What each turn keeps for the pages before `i`. -/
theorem wp_copyFrom {I : Nat → PgDir ld → Kmem ld → Prop} {Q : PgDir ld × Bool → Kmem ld → Prop}
    {E : Stop → Prop} {parent d : PgDir ld} {i sz : Nat} {k : Kmem ld} (user : sz ≤ kernBase)
    (turn : ∀ i d k, i < sz → i % pgSize = 0 → I i d k → wp (copyTurn parent d i)
      (fun r k' => if r.2 then I (i + pgSize) r.1 k' else Q (r.1, false) k') E k)
    (done : ∀ i d k, sz ≤ i → I i d k → Q (d, true) k)
    (fuel : Nat) (enough : pagesTo i sz < fuel ∨ E .endless) (aligned : i % pgSize = 0)
    (start : I i d k) : wp (copyFrom parent d i sz fuel) Q E k := by
  induction fuel generalizing d k i with
  | zero => exact wp_fail (enough.resolve_left (Nat.not_lt_zero _))
  | succ fuel ih =>
    rw [copyFrom]
    split
    · rename_i inside
      apply wp_seq (turn i d k inside aligned start)
      rintro ⟨d', copied⟩ k' after
      rw [word_next (Nat.lt_of_lt_of_le inside user)]
      cases copied with
      | true =>
        refine ih (enough.imp_left fun room => ?_) (by rw [Nat.add_mod_right, aligned]) after
        unfold pagesTo pgSize at *
        omega
      | false => exact wp_ret after
    · exact wp_ret (done i d k (by omega) start)

def copyuvm (parent : PgDir ld) (sz : Nat) : Prog (Kmem ld) Stop (Option (PgDir ld)) := do
  match ← setupkvm with
  | none => return none
  | some d =>
    let (d, copied) ← copyFrom parent d 0 sz (addressPages + 1)
    if copied then
      return some d
    else
      freevm (some d) true
      return none

/-- The physical page behind a user address. The source reads the entry before it
tests the pointer to it. -/
def uva2ka (d : PgDir ld) (uva : Nat) : Prog (Kmem ld) Stop (Option Nat) := do
  let (d, pte) ← walkpgdir d uva false
  match pte with
  | none => throw .nullPointer
  | some (i, j) =>
    if !present (d.pgtab i j) then
      return none
    else if !userBit (d.pgtab i j) then
      return none
    else
      return some (pteAddr (d.pgtab i j))

/-- The loop of `copyout`; every iteration copies at least one byte. -/
def copyoutFrom (d : PgDir ld) (va : Nat) (buf : Bytes) (len : Nat) :
    Nat → Prog (Kmem ld) Stop Bool
  | 0 => throw .endless
  | fuel + 1 => do
    if len > 0 then
      let va0 := pgRoundDown va
      match ← uva2ka d va0 with
      | none => return false
      | some pa0 =>
        let n := min (pgSize - (va - va0)) len
        storeBytes pa0 (va - va0) n buf
        copyoutFrom d (word (va0 + pgSize)) (fun k => buf (n + k)) (len - n) fuel
    else
      return true

/-- Returns whether the source returns 0. -/
def copyout (d : PgDir ld) (va : Nat) (p : Bytes) (len : Nat) : Prog (Kmem ld) Stop Bool :=
  copyoutFrom d va p len (len + 1)

end ColorXv6.Vm.PageDir
