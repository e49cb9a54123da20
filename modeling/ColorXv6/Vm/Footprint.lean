import ColorXv6.Lib.Holdings
import ColorXv6.Vm.PageDir

/-!
How often one page occurs in an address space, and what the functions of vm.c do
to that number. Every function moves pages between the free list and a page
directory: the occurrences in the two together are constant, up to a page the
caller hands over or takes back.
-/
namespace ColorXv6.Vm.Footprint
open Lib.LittleEndian Lib.Wp Lib.Holdings Mmu Kalloc PageDir Finset

variable {ld : Link}

/-- Stopping is always acceptable: the facts below are about operations that return. -/
def anyStop (_ : Stop) : Prop := True

/-- Whether an entry is present and points to page `a`. -/
def hit (a pte : Nat) : Nat := if present pte ∧ pteAddr pte = a then 1 else 0

/-- Occurrences of page `a` on the free list. -/
def freeCount (a : Nat) (k : Kmem ld) : Nat := (k.freelist.map Frame.pa).count a

/-- Occurrences of `a` as the page a frame names. -/
def frameHit (a : Nat) (f : Frame ld) : Nat := if f.pa = a then 1 else 0

/-- Directory entries that point to `a`. -/
def tableHits (a : Nat) (d : PgDir ld) : Nat := ∑ i ∈ range npdEntries, hit a (d.pde i)

/-- Entries of page table `i` that point to `a`. -/
def entryHits (a : Nat) (d : PgDir ld) (i : Nat) : Nat :=
  if present (d.pde i) then ∑ j ∈ range nptEntries, hit a (d.pgtab i j) else 0

/-- Present user entries that point to `a`. -/
def userHits (a : Nat) (d : PgDir ld) : Nat := ∑ i ∈ range 512, entryHits a d i

/-- Occurrences of `a` in the memory that belongs to a page directory. -/
def pagesOf (a : Nat) (d : PgDir ld) : Nat := frameHit a d.page + tableHits a d + userHits a d

/-- No user page is mapped. -/
def NoUser (d : PgDir ld) : Prop :=
  ∀ i < 512, ∀ j < nptEntries, present (d.pde i) → present (d.pgtab i j) = false

@[simp] theorem hit_zero (a : Nat) : hit a 0 = 0 := by simp [hit]

theorem hit_absent (a : Nat) {pte : Nat} (absent : present pte = false) : hit a pte = 0 := by
  simp [hit, absent]

theorem hit_frame (a : Nat) (f : Frame ld) {perm : Nat} (small : perm < pgSize) :
    hit a (f.pa ||| perm ||| pteP) = frameHit a f := by
  simp [hit, frameHit, pteAddr_pte f.aligned f.pa_lt small]

theorem hit_clear (a pte : Nat) : hit a (pte &&& (2 ^ 32 - 1 - pteU)) = hit a pte := by
  simp only [hit, present_clear, pteAddr_clear]

theorem userHits_noUser (a : Nat) {d : PgDir ld} (none : NoUser d) : userHits a d = 0 := by
  apply sum_eq_zero
  intro i inside
  unfold entryHits
  split
  · rename_i table
    exact sum_eq_zero fun j within =>
      hit_absent a (none i (mem_range.mp inside) j (mem_range.mp within) table)
  · rfl

variable {i va : Nat}

section Updates
variable (a : Nat) (d : PgDir ld)

/-- A new page table is a page of the directory and maps nothing. -/
theorem pagesOf_addTable (member : i < npdEntries) (absent : present (d.pde i) = false)
    (f : Frame ld) : pagesOf a (d.addTable i f.pa) = pagesOf a d + frameHit a f := by
  have entries : userHits a (d.addTable i f.pa) = userHits a d := by
    apply sum_range_same
    intro k _
    by_cases same : k = i
    · subst same
      simp [entryHits, PgDir.addTable, absent]
    · simp [entryHits, PgDir.addTable, same]
  have tables := sum_range_update member (fun k => hit a (d.pde k))
    (fun k => hit a ((d.addTable i f.pa).pde k)) (by
      intro k different
      simp [PgDir.addTable, different])
  have added : hit a ((d.addTable i f.pa).pde i) = frameHit a f := by
    simp only [PgDir.addTable, if_true]
    exact hit_frame a f (by decide)
  simp only [added, hit_absent a absent] at tables
  unfold pagesOf
  rw [entries]
  have same : (d.addTable i f.pa).page = d.page := rfl
  rw [same]
  unfold tableHits
  omega

theorem noUser_addTable {page : Nat} (none : NoUser d) : NoUser (d.addTable i page) := by
  intro i' user j inside table
  by_cases same : i' = i
  · simp [PgDir.addTable, same]
  · simp only [PgDir.addTable, same, if_false] at table ⊢
    exact none i' user j inside table

/-- Writing a user entry replaces what it pointed to. -/
theorem pagesOf_setPte {j : Nat} (user : i < 512) (inside : j < nptEntries)
    (table : present (d.pde i) = true) (value : Nat) :
    pagesOf a (d.setPte i j value) + hit a (d.pgtab i j) = pagesOf a d + hit a value := by
  have entries := sum_range_update user (entryHits a d) (entryHits a (d.setPte i j value)) (by
    intro k different
    simp [entryHits, PgDir.setPte, different])
  have row := sum_range_update inside (fun k => hit a (d.pgtab i k))
    (fun k => hit a ((d.setPte i j value).pgtab i k)) (by
      intro k different
      simp [PgDir.setPte, different])
  have before : entryHits a d i = ∑ k ∈ range nptEntries, hit a (d.pgtab i k) := by
    simp [entryHits, table]
  have after : entryHits a (d.setPte i j value) i =
      ∑ k ∈ range nptEntries, hit a ((d.setPte i j value).pgtab i k) := by
    simp [entryHits, PgDir.setPte, table]
  have written : (d.setPte i j value).pgtab i j = value := by simp [PgDir.setPte]
  have page : (d.setPte i j value).page = d.page := rfl
  have tables : tableHits a (d.setPte i j value) = tableHits a d := rfl
  simp only [written] at row
  rw [before, after] at entries
  unfold pagesOf
  rw [page, tables]
  unfold userHits
  omega

/-- Entries of the kernel half are not counted. -/
theorem pagesOf_setPte_kernel (kernel : 512 ≤ i) (j value : Nat) :
    pagesOf a (d.setPte i j value) = pagesOf a d := by
  have entries : userHits a (d.setPte i j value) = userHits a d := by
    apply sum_range_same
    intro k user
    have different : k ≠ i := by omega
    simp [entryHits, PgDir.setPte, different]
  have page : (d.setPte i j value).page = d.page := rfl
  have tables : tableHits a (d.setPte i j value) = tableHits a d := rfl
  unfold pagesOf
  rw [entries, page, tables]

theorem noUser_setPte_kernel {j value : Nat} (kernel : 512 ≤ i) (none : NoUser d) :
    NoUser (d.setPte i j value) := by
  intro i' user j' inside table
  have different : i' ≠ i := by omega
  simpa [PgDir.setPte, different] using none i' user j' inside table

end Updates

/-- Occurrences of `a` in what `kalloc` returned. -/
def optHit (a : Nat) : Option (Frame ld) → Nat
  | none => 0
  | some f => frameHit a f

section Functions
variable (a : Nat) (d : PgDir ld) (k : Kmem ld)

theorem kalloc_count :
    wp kalloc (fun r k' => freeCount a k' + optHit a r = freeCount a k) anyStop k := by
  apply wp_kalloc
  · intro empty
    rfl
  · intro f rest list
    simp only [optHit, freeCount, frameHit, list, List.map_cons, List.count_cons, beq_iff_eq]

theorem kfree_count {pa : Nat} (bounded : pa < 2 ^ 32) :
    wp (kfree (p2v pa)) (fun _ k' => freeCount a k' = freeCount a k + if pa = a then 1 else 0)
      anyStop k := by
  apply wp_kfree
  · intro refused
    exact True.intro
  · intro f passed
    have same := frameOf_some bounded passed
    simp only [freeCount, List.map_cons, List.count_cons, same, beq_iff_eq]

theorem memset_count (pa : Nat) (c : UInt8) :
    wp (memset pa c) (fun _ k' => freeCount a k' = freeCount a k) anyStop k :=
  (wp_modify ..).mpr rfl

theorem storeBytes_count (pa off n : Nat) (src : Bytes) :
    wp (storeBytes pa off n src) (fun _ k' => freeCount a k' = freeCount a k) anyStop k :=
  (wp_modify ..).mpr rfl

theorem copyPage_count (dst src : Nat) :
    wp (copyPage dst src) (fun _ k' => freeCount a k' = freeCount a k) anyStop k :=
  (wp_modify ..).mpr rfl

/-- The occurrences of `a` in the free list and the directory together do not change. -/
def Kept (k' : Kmem ld) (d' : PgDir ld) : Prop :=
  freeCount a k' + pagesOf a d' = freeCount a k + pagesOf a d

theorem walkpgdir_count (va : Nat) (alloc : Bool) :
    wp (walkpgdir d va alloc) (fun r k' => Kept a d k k' r.1 ∧ (NoUser d → NoUser r.1) ∧
      ∀ i j, r.2 = some (i, j) → i = pdx va ∧ j = ptx va ∧ present (r.1.pde i) = true)
      anyStop k := by
  unfold walkpgdir
  split
  · rename_i table
    simpa [Kept] using table
  · rename_i absent
    split
    · simp [Kept]
    · apply wp_seq (kalloc_count a k)
      intro r k' count
      cases r with
      | none => simpa [Kept, optHit] using count
      | some f =>
        have added := pagesOf_addTable a d (pdx_lt va) (by simpa using absent) f
        have table : present ((d.addTable (pdx va) f.pa).pde (pdx va)) = true := by
          simp [PgDir.addTable]
        apply wp_seq (memset_count a k' f.pa 0)
        intro _ k'' same
        simp only [wp_pure, Kept, Option.some.injEq, Prod.mk.injEq]
        simp only [optHit] at count
        refine ⟨by omega, noUser_addTable d, ?_⟩
        rintro i j ⟨rfl, rfl⟩
        exact ⟨rfl, rfl, table⟩

/-- Mapping one page at a user address moves the frame into the directory. -/
theorem mappages_user_count {perm : Nat} (f : Frame ld) (user : va < kernBase)
    (aligned : va % pgSize = 0) (small : perm < pgSize) :
    wp (mappages d va pgSize f.pa perm) (fun r k' =>
      freeCount a k' + pagesOf a r.1 =
        freeCount a k + pagesOf a d + if r.2 then frameHit a f else 0) anyStop k := by
  unfold mappages
  rw [pgRoundDown_of_aligned aligned, pgRoundDown_single aligned user, mapFrom]
  apply wp_seq (walkpgdir_count a d k va true)
  rintro ⟨d', pte⟩ k' ⟨kept, -, found⟩
  unfold Kept at kept
  cases pte with
  | none => simpa using kept
  | some ij =>
    obtain ⟨i, j⟩ := ij
    obtain ⟨rfl, rfl, table⟩ := found i j rfl
    have inUser : pdx va < 512 := pdx_lt_user user
    have set := pagesOf_setPte a d' inUser (ptx_lt va) table (f.pa ||| perm ||| pteP)
    rw [hit_frame a f small] at set
    simp only [if_true, wp_ite, wp_throw, wp_pure]
    split
    · exact True.intro
    · rename_i absent
      rw [hit_absent a (by simpa using absent)] at set
      dsimp only at kept
      omega

/-- Mapping a range of the kernel half takes page tables from the list and nothing else. -/
theorem mapFrom_kernel_count {last : Nat} (pa perm fuel : Nat) (kernel : kernBase ≤ va)
    (ordered : va ≤ last) (bounded : last < 2 ^ 32) (aligned : va % pgSize = 0)
    (lastAligned : last % pgSize = 0) :
    wp (mapFrom d va last pa perm fuel) (fun r k' => Kept a d k k' r.1 ∧ (NoUser d → NoUser r.1))
      anyStop k := by
  induction fuel generalizing d k va pa with
  | zero => exact wp_fail True.intro
  | succ fuel ih =>
    rw [mapFrom]
    apply wp_seq (walkpgdir_count a d k va true)
    rintro ⟨d', pte⟩ k' ⟨kept, noUser, found⟩
    cases pte with
    | none => exact wp_ret ⟨kept, noUser⟩
    | some ij =>
      obtain ⟨i, j⟩ := ij
      obtain ⟨rfl, rfl, table⟩ := found i j rfl
      have inKernel : 512 ≤ pdx va := pdx_ge_kernel kernel (by omega)
      have same := pagesOf_setPte_kernel a d' inKernel (ptx va)
      unfold Kept at kept ⊢
      simp only [wp_ite, wp_throw, wp_pure]
      dsimp only at kept noUser
      split
      · exact True.intro
      · split
        · rw [same]
          exact ⟨kept, fun none => noUser_setPte_kernel d' inKernel (noUser none)⟩
        · rename_i notLast
          have next : word (va + pgSize) = va + pgSize := by
            unfold word pgSize at *
            omega
          rw [next]
          have above : kernBase ≤ va + pgSize := by omega
          have later := ih (d'.setPte (pdx va) (ptx va) (pa ||| perm ||| pteP)) k'
            (word (pa + pgSize)) above (by unfold pgSize at *; omega) (by unfold pgSize at *; omega)
          apply wp_mono later
          rintro r k'' ⟨keptLater, noUserLater⟩
          unfold Kept at keptLater
          rw [same] at keptLater
          exact ⟨by omega, fun none => noUserLater (noUser_setPte_kernel d' inKernel (noUser none))⟩

theorem mappages_kernel_count {size : Nat} (pa perm : Nat) (kernel : kernBase ≤ va)
    (nonempty : 1 ≤ size) (bounded : va + size ≤ 2 ^ 32) :
    wp (mappages d va size pa perm) (fun r k' => Kept a d k k' r.1 ∧ (NoUser d → NoUser r.1))
      anyStop k := by
  have last : word (va + size + (2 ^ 32 - 1)) = va + size - 1 := by
    unfold word
    omega
  unfold mappages
  rw [last]
  apply mapFrom_kernel_count
  · unfold pgRoundDown kernBase pgSize at *
    omega
  · exact Nat.mul_le_mul_right _ (Nat.div_le_div_right (by omega))
  · exact Nat.lt_of_le_of_lt (pgRoundDown_le _) (by omega)
  · exact pgRoundDown_aligned _
  · exact pgRoundDown_aligned _

/-- Every line of `kmap` is a non-empty range of the kernel half. -/
theorem kmap_range {m : KMap} (member : m ∈ kmap ld) :
    kernBase ≤ m.virt ∧ 1 ≤ m.size ∧ m.virt + m.size ≤ 2 ^ 32 := by
  have low := ld.data_low
  have high := ld.data_high
  simp only [kmap, List.mem_cons, List.not_mem_nil, or_false] at member
  rcases member with rfl | rfl | rfl | rfl <;>
    simp only [KMap.size, kernLink, kernBase, extMem, physTop, devSpace, v2p, word] at * <;> omega

theorem mapKernel_count (lines : List KMap) (known : ∀ m ∈ lines, m ∈ kmap ld) :
    wp (mapKernel d lines) (fun r k' => Kept a d k k' r.1 ∧ (NoUser d → NoUser r.1))
      anyStop k := by
  induction lines generalizing d k with
  | nil => exact wp_ret ⟨rfl, id⟩
  | cons m rest ih =>
    obtain ⟨kernel, nonempty, bounded⟩ := kmap_range (known m List.mem_cons_self)
    rw [mapKernel]
    apply wp_seq (mappages_kernel_count a d k m.physStart m.perm kernel nonempty bounded)
    rintro ⟨d', mapped⟩ k' ⟨kept, noUser⟩
    cases mapped with
    | false => exact wp_ret ⟨kept, noUser⟩
    | true =>
      apply wp_mono (ih d' k' fun line member => known line (List.mem_cons_of_mem m member))
      rintro r k'' ⟨keptLater, noUserLater⟩
      unfold Kept at *
      dsimp only at kept
      exact ⟨by omega, noUserLater ∘ noUser⟩

theorem freeTables_count (n : Nat) :
    wp (freeTables d n)
      (fun _ k' => freeCount a k' = freeCount a k + ∑ i ∈ range n, hit a (d.pde i)) anyStop k := by
  induction n with
  | zero => exact wp_ret rfl
  | succ n ih =>
    rw [freeTables]
    apply wp_seq ih
    intro _ k' count
    rw [sum_range_succ]
    split
    · rename_i table
      apply wp_mono (kfree_count a k' (pteAddr_lt (d.pde n)))
      intro _ k'' freed
      have entry : hit a (d.pde n) = if pteAddr (d.pde n) = a then 1 else 0 := by
        simp [hit, table]
      omega
    · rename_i absent
      rw [hit_absent a (by simpa using absent)]
      exact wp_ret count

/-- Freeing a directory without user pages returns all its pages. -/
theorem freeDir_count (none : NoUser d) :
    wp (freeDir d) (fun _ k' => freeCount a k' = freeCount a k + pagesOf a d) anyStop k := by
  apply wp_seq (freeTables_count a d k npdEntries)
  intro _ k' count
  apply wp_mono (kfree_count a k' d.page.pa_lt)
  intro _ k'' freed
  unfold pagesOf
  rw [userHits_noUser a none]
  unfold frameHit tableHits
  omega

/-- No user page is mapped below `limit`. -/
def Cleared (d : PgDir ld) (limit : Nat) : Prop :=
  ∀ i < 512, ∀ j < nptEntries, i * 2 ^ 22 + j * 2 ^ 12 < limit → present (d.pde i) →
    present (d.pgtab i j) = false

theorem noUser_of_cleared {d : PgDir ld} (cleared : Cleared d kernBase) : NoUser d := by
  intro i user j inside table
  refine cleared i user j inside ?_ table
  unfold nptEntries at inside
  unfold kernBase
  omega

theorem cleared_next {d d' : PgDir ld} (cleared : Cleared d va)
    (aligned : va % pgSize = 0) (directory : d'.pde = d.pde) (here : present (d'.pteOf va) = false)
    (others : ∀ i j, ¬(i = pdx va ∧ j = ptx va) → d'.pgtab i j = d.pgtab i j) :
    Cleared d' (va + pgSize) := by
  intro i inUser j inside below table
  by_cases same : i = pdx va ∧ j = ptx va
  · obtain ⟨rfl, rfl⟩ := same
    rwa [PgDir.pteOf, if_pos table] at here
  · rw [others i j same]
    apply cleared i inUser j inside _ (directory ▸ table)
    unfold pdx ptx at same
    unfold pgSize at below aligned
    unfold nptEntries at inside
    omega

/-- Freeing `n` pages from `va` on: they go back to the list, and none of them is left. -/
theorem deallocEach_count (n : Nat) (user : n = 0 ∨ va + n * pgSize ≤ kernBase)
    (aligned : va % pgSize = 0) :
    wp (deallocEach d va n)
      (fun d' k' => Kept a d k k' d' ∧ (Cleared d va → Cleared d' (va + n * pgSize))) anyStop k := by
  induction n generalizing d k va with
  | zero => exact wp_ret ⟨rfl, fun start => by simpa using start⟩
  | succ n ih =>
    rw [Nat.succ_mul] at user
    have below : va < kernBase := by
      unfold pgSize at user
      omega
    have end_ : va + (n + 1) * pgSize = va + pgSize + n * pgSize := by
      rw [Nat.succ_mul]
      omega
    have nextAligned : (va + pgSize) % pgSize = 0 := by simp [aligned]
    rw [end_]
    cases there : present (d.pteOf va) with
    | false =>
      rw [deallocEach_absent d n there]
      apply wp_mono (ih d k (by omega) nextAligned)
      rintro d' k' ⟨kept, cleared⟩
      exact ⟨kept, fun start => cleared (cleared_next start aligned rfl there fun _ _ _ => rfl)⟩
    | true =>
      obtain ⟨table, entry⟩ := PgDir.table_of_present there
      have set := pagesOf_setPte a d (pdx_lt_user below) (ptx_lt va) table 0
      have here : hit a (d.pteOf va) = if pteAddr (d.pteOf va) = a then 1 else 0 := by
        simp [hit, there]
      rw [hit_zero, ← entry] at set
      rw [deallocEach_present d n there]
      split
      · exact wp_fail True.intro
      · apply wp_seq (kfree_count a k (pteAddr_lt (d.pteOf va)))
        intro _ k' freed
        apply wp_mono (ih (d.setPte (pdx va) (ptx va) 0) k' (by omega) nextAligned)
        rintro d' k'' ⟨kept, cleared⟩
        unfold Kept at *
        refine ⟨by omega, fun start => cleared (cleared_next start aligned rfl ?_ ?_)⟩
        · simp [PgDir.pteOf, PgDir.setPte]
        · intro i j different
          simp [PgDir.setPte, different]

theorem deallocuvm_count {oldsz : Nat} (newsz : Nat) (user : oldsz ≤ kernBase) :
    wp (deallocuvm d oldsz newsz) (fun r k' => Kept a d k k' r.1) anyStop k := by
  rw [deallocuvm_eq d newsz user]
  split
  · exact wp_ret rfl
  · apply wp_seq (deallocEach_count a d k _ (pagesTo_user user (pgRoundUp_aligned newsz))
      (pgRoundUp_aligned newsz))
    rintro d' k' ⟨kept, -⟩
    exact wp_ret kept

/-- Taking the size down to 0 from KERNBASE leaves no user page. -/
theorem deallocuvm_all_count :
    wp (deallocuvm d kernBase 0) (fun r k' => Kept a d k k' r.1 ∧ NoUser r.1) anyStop k := by
  have first : pgRoundUp 0 = 0 := by decide
  have whole : pagesTo 0 kernBase * pgSize = kernBase := by decide
  rw [deallocuvm_eq d 0 (Nat.le_refl kernBase), if_neg (by decide), first]
  apply wp_seq (deallocEach_count a d k _ (Or.inr (by omega)) (by decide))
  rintro d' k' ⟨kept, cleared⟩
  rw [whole, Nat.zero_add] at cleared
  refine wp_ret ⟨kept, noUser_of_cleared (cleared ?_)⟩
  intro i _ j _ below
  omega

theorem freevm_count {dealloc : Bool} (none : dealloc = false → NoUser d) :
    wp (freevm (some d) dealloc) (fun _ k' => freeCount a k' = freeCount a k + pagesOf a d)
      anyStop k := by
  cases dealloc with
  | false => exact freeDir_count a d k (none rfl)
  | true =>
    apply wp_seq (deallocuvm_all_count a d k)
    rintro ⟨d', sz⟩ k' ⟨kept, noUser⟩
    apply wp_mono (freeDir_count a d' k' noUser)
    intro _ k'' freed
    unfold Kept at kept
    dsimp only at kept
    omega

/-- Occurrences of `a` in a directory that may not have been built. -/
def optPages (a : Nat) : Option (PgDir ld) → Nat
  | none => 0
  | some d => pagesOf a d

/-- A directory with only its own page. -/
theorem pagesOf_empty (page : Frame ld) :
    pagesOf a { page, pde := fun _ => 0, pgtab := fun _ _ => 0 : PgDir ld } = frameHit a page := by
  have empty : NoUser { page, pde := fun _ => 0, pgtab := fun _ _ => 0 : PgDir ld } :=
    fun _ _ _ _ _ => present_zero
  simp [pagesOf, userHits_noUser a empty, tableHits]

/-- A new directory is made of pages of the list; a failed attempt returns them. -/
theorem setupkvm_count :
    wp setupkvm (fun r k' => freeCount a k' + optPages a r = freeCount a k ∧
      ∀ d, r = some d → NoUser d) anyStop k := by
  apply wp_seq (kalloc_count a k)
  intro r k1 count
  cases r with
  | none => exact wp_ret ⟨count, by simp⟩
  | some page =>
    apply wp_seq (memset_count a k1 page.pa 0)
    intro _ k2 same
    split
    · exact wp_fail True.intro
    · apply wp_seq (mapKernel_count a _ k2 (kmap ld) fun _ member => member)
      rintro ⟨d, mapped⟩ k3 ⟨kept, noUser⟩
      have empty : NoUser d := noUser fun _ _ _ _ _ => present_zero
      unfold Kept at kept
      rw [pagesOf_empty] at kept
      simp only [optHit] at kept count
      cases mapped with
      | true =>
        refine wp_ret ⟨?_, ?_⟩
        · simp only [optPages]
          omega
        · rintro d' ⟨⟩
          exact empty
      | false =>
        apply wp_seq (freevm_count a d k3 fun _ => empty)
        intro _ k4 freed
        refine wp_ret ⟨?_, by simp⟩
        simp only [optPages]
        omega

/-- The loop of `allocuvm`, from a page boundary: whatever was mapped is in the directory,
also after the clean-up of a failure. -/
theorem allocFrom_count {newsz : Nat} (oldsz fuel : Nat) (user : newsz < kernBase)
    (aligned : va % pgSize = 0) :
    wp (allocFrom d va oldsz newsz fuel) (fun r k' => Kept a d k k' r.1 ∧ (r.2 = 0 ∨ r.2 = newsz))
      anyStop k := by
  induction fuel generalizing d k va with
  | zero => exact wp_fail True.intro
  | succ fuel ih =>
    rw [allocFrom]
    split
    · rename_i inside
      have below : va < kernBase := Nat.lt_trans inside user
      have nextAligned : (va + pgSize) % pgSize = 0 := by simp [aligned]
      unfold Kept at *
      apply wp_seq (kalloc_count a k)
      intro r k1 count
      cases r with
      | none =>
        apply wp_seq (deallocuvm_count a d k1 oldsz (Nat.le_of_lt user))
        intro r k2 kept
        unfold Kept at kept
        simp only [optHit] at count
        exact wp_ret ⟨by dsimp only; omega, Or.inl rfl⟩
      | some mem =>
        apply wp_seq (memset_count a k1 mem.pa 0)
        intro _ k2 same
        apply wp_seq (mappages_user_count a d k2 mem below aligned (by decide))
        rintro ⟨d', mapped⟩ k3 moved
        simp only [optHit] at count
        cases mapped with
        | true =>
          simp only [if_true] at moved ⊢
          rw [word_next below]
          apply wp_mono (ih d' k3 nextAligned)
          rintro r k4 ⟨kept, sizes⟩
          exact ⟨by omega, sizes⟩
        | false =>
          simp only [Bool.false_eq_true, if_false] at moved ⊢
          apply wp_seq (deallocuvm_count a d' k3 oldsz (Nat.le_of_lt user))
          intro r k4 kept
          apply wp_seq (kfree_count a k4 mem.pa_lt)
          intro _ k5 freed
          unfold Kept at kept
          unfold frameHit at count
          exact wp_ret ⟨by dsimp only; omega, Or.inl rfl⟩
    · exact wp_ret ⟨rfl, Or.inr rfl⟩

/-- Pages move from the list into the directory; and the sizes `allocuvm` can return. -/
theorem allocuvm_count (oldsz newsz : Nat) :
    wp (allocuvm d oldsz newsz) (fun r k' => Kept a d k k' r.1 ∧ (r.2 = 0 ∨
      (r.2 = oldsz ∧ newsz < oldsz) ∨ (r.2 = newsz ∧ newsz < kernBase ∧ oldsz ≤ newsz))) anyStop k := by
  unfold allocuvm
  split
  · exact wp_ret ⟨rfl, Or.inl rfl⟩
  · split
    · rename_i smaller
      exact wp_ret ⟨rfl, Or.inr (Or.inl ⟨rfl, smaller⟩)⟩
    · apply wp_mono (allocFrom_count a d k oldsz _ (by omega) (pgRoundUp_aligned oldsz))
      rintro r k' ⟨kept, sizes⟩
      exact ⟨kept, by omega⟩

/-- The page of the first process ends up mapped or in the second result. -/
theorem inituvm_count (init : Bytes) (sz : Nat) :
    wp (inituvm d init sz) (fun r k' => freeCount a k' + pagesOf a r.1 + optHit a r.2 =
      freeCount a k + pagesOf a d) anyStop k := by
  unfold inituvm
  split
  · exact wp_fail True.intro
  · apply wp_seq (kalloc_count a k)
    intro r k1 count
    cases r with
    | none => exact wp_fail True.intro
    | some mem =>
      apply wp_seq (memset_count a k1 mem.pa 0)
      intro _ k2 zeroed
      apply wp_seq (mappages_user_count a d k2 mem (by decide) (by decide) (by decide))
      rintro ⟨d', mapped⟩ k3 moved
      apply wp_seq (storeBytes_count a k3 mem.pa 0 sz init)
      intro _ k4 stored
      simp only [wp_pure]
      cases mapped <;> simp [optHit] at count moved ⊢ <;> omega

theorem clearpteu_count {uva : Nat} (user : uva < kernBase) :
    wp (clearpteu d uva) (fun d' k' => Kept a d k k' d') anyStop k := by
  unfold clearpteu
  rw [walkpgdir_find, pure_bind]
  cases table : present (d.pde (pdx uva)) with
  | false => exact wp_fail True.intro
  | true =>
    have set := pagesOf_setPte a d (pdx_lt_user user) (ptx_lt uva) table
      (d.pgtab (pdx uva) (ptx uva) &&& (2 ^ 32 - 1 - pteU))
    rw [hit_clear] at set
    refine wp_ret ?_
    unfold Kept
    omega

/-- The loop of `copyuvm`: the copies come from the list. -/
theorem copyFrom_count (parent : PgDir ld) {sz : Nat} (fuel : Nat) (user : sz ≤ kernBase)
    (aligned : i % pgSize = 0) :
    wp (copyFrom parent d i sz fuel) (fun r k' => Kept a d k k' r.1) anyStop k := by
  refine wp_copyFrom (I := fun _ d' k' => Kept a d k k' d') user ?_ ?_ fuel (.inr True.intro)
    aligned rfl
  case refine_2 => exact fun _ _ _ _ kept => kept
  intro i d1 k1 inside aligned kept
  unfold copyTurn Kept at *
  simp only [ite_self]
  split
  · apply wp_seq (kalloc_count a k1)
    intro r k2 count
    cases r with
    | none =>
      simp only [optHit] at count
      simp only [wp_pure]
      omega
    | some mem =>
      apply wp_seq (copyPage_count a k2 mem.pa _)
      intro _ k3 same
      apply wp_seq (mappages_user_count a d1 k3 mem (Nat.lt_of_lt_of_le inside user) aligned
        (Nat.mod_lt _ (by decide)))
      rintro ⟨d', mapped⟩ k4 moved
      simp only [optHit] at count
      cases mapped with
      | true =>
        simp only [if_true] at moved
        refine wp_ret ?_
        dsimp only
        omega
      | false =>
        simp only [Bool.false_eq_true, if_false] at moved ⊢
        apply wp_seq (kfree_count a k4 mem.pa_lt)
        intro _ k5 freed
        unfold frameHit at count
        simp only [wp_pure]
        omega
  · exact wp_ret kept

/-- The child's directory is made of pages of the list; a failed copy returns them. -/
theorem copyuvm_count (parent : PgDir ld) {sz : Nat} (user : sz ≤ kernBase) :
    wp (copyuvm parent sz) (fun r k' => freeCount a k' + optPages a r = freeCount a k)
      anyStop k := by
  apply wp_seq (setupkvm_count a k)
  rintro r k1 ⟨count, -⟩
  cases r with
  | none => exact wp_ret count
  | some d =>
    apply wp_seq (copyFrom_count a d k1 parent _ user (Nat.zero_mod _))
    rintro ⟨d', copied⟩ k2 kept
    unfold Kept at kept
    simp only [optPages] at count kept
    cases copied with
    | true => exact wp_ret (by simp only [optPages]; omega)
    | false =>
      apply wp_seq (freevm_count a d' k2 (by simp))
      intro _ k3 freed
      exact wp_ret (by simp only [optPages]; omega)

end Functions

/-- What holds of memory stays true when bytes of a user page are stored. -/
def Stable (d : PgDir ld) (I : Kmem ld → Prop) : Prop :=
  ∀ (k : Kmem ld) (x off n : Nat) (p : Bytes), x < 2 ^ 32 → x % pgSize = 0 →
    present (d.pteOf x) = true → userBit (d.pteOf x) = true → I k →
    wp (storeBytes (pteAddr (d.pteOf x)) off n p) (fun _ k' => I k') anyStop k

/-- `copyout` at any address, also where it wraps around the end of memory. -/
theorem Stable.copyout {d : PgDir ld} {I : Kmem ld → Prop} (stable : Stable d I) {k : Kmem ld}
    {va : Nat} (p : Bytes) (len : Nat) (small : va < 2 ^ 32) (start : I k) :
    wp (copyout d va p len) (fun _ k' => I k') anyStop k := by
  unfold PageDir.copyout
  generalize len + 1 = fuel
  induction fuel generalizing k va p len with
  | zero => exact wp_fail True.intro
  | succ fuel ih =>
    have low : pgRoundDown va < 2 ^ 32 := Nat.lt_of_le_of_lt (pgRoundDown_le va) small
    rw [copyoutFrom]
    split
    · dsimp only
      rw [uva2ka, walkpgdir_find, pure_bind]
      cases table : present (d.pde (pdx (pgRoundDown va))) with
      | false => exact wp_fail True.intro
      | true =>
        have entry : d.pgtab (pdx (pgRoundDown va)) (ptx (pgRoundDown va)) = d.pteOf (pgRoundDown va) := by
          simp [PgDir.pteOf, table]
        simp only [if_true, entry]
        cases there : present (d.pteOf (pgRoundDown va)) with
        | false => exact wp_ret start
        | true =>
          cases user : userBit (d.pteOf (pgRoundDown va)) with
          | false => exact wp_ret start
          | true =>
            simp only [Bool.not_true, Bool.false_eq_true, if_false, pure_bind]
            apply wp_seq (stable k _ _ _ p low (pgRoundDown_aligned va) there user start)
            exact fun _ _ kept => ih _ _ (Nat.mod_lt _ (by decide)) kept
    · exact wp_ret start

end ColorXv6.Vm.Footprint
