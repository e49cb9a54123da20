import ColorXv6.Vm.Footprint
import ColorXv6.Vm.Mapping

/-!
Address spaces as memory. `Footprint` counts the pages a directory is made of and
`Mapping` says which entry a page has; here the two are put together with the
contents of the frames. Allocation writes only to pages of the free list and
freeing only to pages of the directory, so everything else keeps its contents. The
rules hold for every set of stops that contains those a bad directory leads to.
-/
namespace ColorXv6.Vm.Space
open Lib.LittleEndian Lib.Wp Mmu Kalloc PageDir Footprint Mapping

variable {ld : Link}

/-- Pages were taken from the head of the list, and only pages of the list were written. -/
structure Took (k k' : Kmem ld) : Prop where
  list : ∃ taken, k.freelist = taken ++ k'.freelist
  outside : ∀ a, freeCount a k = 0 → k'.mem a = k.mem a

variable {k : Kmem ld} {f : Frame ld} {d d' : PgDir ld} {x hi a : Nat} {E : Stop → Prop}

theorem Took.count {k' : Kmem ld} (took : Took k k') (a : Nat) :
    freeCount a k' ≤ freeCount a k := by
  obtain ⟨taken, list⟩ := took.list
  unfold freeCount
  rw [list, List.map_append, List.count_append]
  omega

theorem Took.refl (k : Kmem ld) : Took k k := ⟨⟨[], rfl⟩, fun _ _ => rfl⟩

theorem Took.trans {k1 k2 : Kmem ld} (first : Took k k1) (second : Took k1 k2) : Took k k2 where
  list := by
    obtain ⟨taken, list⟩ := first.list
    obtain ⟨more, rest⟩ := second.list
    exact ⟨taken ++ more, by rw [list, rest, List.append_assoc]⟩
  outside a unlisted := by
    have still := first.count a
    rw [second.outside a (by omega), first.outside a unlisted]

/-- Taking the first page and filling it. -/
theorem Took.fill {rest : List (Frame ld)} (list : k.freelist = f :: rest) (bytes : Bytes) :
    Took k { freelist := rest, mem := fun page => if page = f.pa then bytes else k.mem page } where
  list := ⟨[f], list⟩
  outside a unlisted := by
    have other : a ≠ f.pa := by
      rintro rfl
      simp [freeCount, list] at unlisted
    exact if_neg other

/-- Without repetitions, the first page is no longer listed once it is taken. -/
theorem freeCount_taken {rest : List (Frame ld)} (once : ∀ a, freeCount a k ≤ 1)
    (list : k.freelist = f :: rest) (mem : Nat → Bytes) :
    freeCount f.pa { freelist := rest, mem } = 0 := by
  have bound := once f.pa
  unfold freeCount at bound ⊢
  rw [list, List.map_cons, List.count_cons_self] at bound
  dsimp only
  omega

/-- Pages of zeros still are. -/
def KeepsZero (k k' : Kmem ld) : Prop := ∀ a, (k.mem a = fun _ => 0) → k'.mem a = fun _ => 0

theorem KeepsZero.clear (k : Kmem ld) (pa : Nat) (list : List (Frame ld)) :
    KeepsZero k { freelist := list, mem := fun page => if page = pa then fun _ => 0 else k.mem page } := by
  intro a zero
  dsimp only
  split
  · rfl
  · exact zero

/-- The page tables of a directory are pages of the allocator. -/
def Tabled (d : PgDir ld) : Prop :=
  ∀ i, present (d.pde i) = true → ∃ f : Frame ld, pteAddr (d.pde i) = f.pa

/-- The user pages of a directory are pages of the allocator. -/
def Backed (d : PgDir ld) : Prop :=
  ∀ x, IsPage x → x < kernBase → present (d.pteOf x) = true →
    ∃ f : Frame ld, pteAddr (d.pteOf x) = f.pa

theorem Tabled.addTable (tabled : Tabled d) (i : Nat) (f : Frame ld) :
    Tabled (d.addTable i f.pa) := by
  intro i' table
  by_cases same : i' = i
  · refine ⟨f, ?_⟩
    simp only [PgDir.addTable, same, if_true]
    exact pteAddr_pte f.aligned f.pa_lt (by decide)
  · simp only [PgDir.addTable, same, if_false] at table ⊢
    exact tabled i' table

/-- Entering a page of the allocator keeps a directory backed. -/
theorem Backed.enter (backed : Backed d) {va perm : Nat}
    (small : perm < pgSize) {c : Prop} [Decidable c]
    (entries : ∀ x, IsPage x →
      d'.pteOf x = if c ∧ x = va then f.pa ||| perm ||| pteP else d.pteOf x) : Backed d' := by
  intro x page user there
  rw [entries x page] at there ⊢
  split
  · exact ⟨f, pteAddr_pte f.aligned f.pa_lt small⟩
  · rename_i other
    rw [if_neg other] at there
    exact backed x page user there

/-! Two user pages take two places in the account of a directory. -/

theorem hit_add_pagesOf (a : Nat) (user : x < kernBase) (table : present (d.pde (pdx x)) = true) :
    pagesOf a (d.setPte (pdx x) (ptx x) 0) + hit a (d.pteOf x) = pagesOf a d := by
  have set := pagesOf_setPte a d (pdx_lt_user user) (ptx_lt x) table 0
  rw [hit_zero] at set
  simpa [PgDir.pteOf, table] using set

theorem hit_le_pagesOf (d : PgDir ld) (a : Nat) (user : x < kernBase) :
    hit a (d.pteOf x) ≤ pagesOf a d := by
  cases table : present (d.pde (pdx x)) with
  | false => simp [PgDir.pteOf, table]
  | true =>
    have cleared := hit_add_pagesOf a user table
    omega

theorem hits_le_pagesOf (d : PgDir ld) (a : Nat) {y : Nat} (first : IsPage x) (second : IsPage y)
    (userx : x < kernBase) (usery : y < kernBase) (different : y ≠ x) :
    hit a (d.pteOf x) + hit a (d.pteOf y) ≤ pagesOf a d := by
  cases table : present (d.pde (pdx x)) with
  | false =>
    have other := hit_le_pagesOf d a usery
    simpa [PgDir.pteOf, table] using other
  | true =>
    have cleared := hit_add_pagesOf a userx table
    have other := hit_le_pagesOf (d.setPte (pdx x) (ptx x) 0) a usery
    rw [pteOf_setPte d 0 first second table, if_neg different] at other
    omega

/-- In a directory no page of which occurs twice, different user pages are in different
frames. -/
theorem frames_distinct (once : ∀ a, pagesOf a d ≤ 1) {y : Nat} (first : IsPage x)
    (second : IsPage y) (userx : x < kernBase) (usery : y < kernBase)
    (therex : present (d.pteOf x) = true) (therey : present (d.pteOf y) = true)
    (same : pteAddr (d.pteOf y) = pteAddr (d.pteOf x)) : y = x := by
  by_contra different
  have both := hits_le_pagesOf d (pteAddr (d.pteOf x)) first second userx usery different
  have bound := once (pteAddr (d.pteOf x))
  simp only [hit, therex, therey, same, and_self, if_true] at both
  omega

/-- A frame of a user page is not on the list, if no page has two owners. -/
theorem user_unlisted (once : ∀ a, freeCount a k + pagesOf a d ≤ 1) (user : x < kernBase)
    (there : present (d.pteOf x) = true) :
    freeCount (pteAddr (d.pteOf x)) k = 0 := by
  have held := hit_le_pagesOf d (pteAddr (d.pteOf x)) user
  have bound := once (pteAddr (d.pteOf x))
  simp only [hit, there, and_self, if_true] at held
  omega

section Allocating

/-- Page tables come from the list. -/
theorem walkpgdir_took (d : PgDir ld) (va : Nat) (k : Kmem ld) :
    wp (walkpgdir d va true)
      (fun r k' => Took k k' ∧ KeepsZero k k' ∧ (Tabled d → Tabled r.1)) E k := by
  unfold walkpgdir
  split
  · exact wp_ret ⟨Took.refl k, fun _ => id, id⟩
  · rw [if_neg (by simp), wp_bind]
    apply wp_kalloc
    · intro empty
      exact wp_ret ⟨Took.refl k, fun _ => id, id⟩
    · intro f rest list
      simp only [memset, wp_bind, wp_modify, wp_pure]
      exact ⟨Took.fill list _, KeepsZero.clear k f.pa rest, fun tabled => tabled.addTable (pdx va) f⟩

theorem mapFrom_took (d : PgDir ld) (a last pa perm fuel : Nat) (k : Kmem ld) :
    wp (mapFrom d a last pa perm fuel) (fun r k' => Took k k' ∧ (Tabled d → Tabled r.1))
      anyStop k := by
  induction fuel generalizing d a pa k with
  | zero => exact wp_fail True.intro
  | succ fuel ih =>
    rw [mapFrom]
    apply wp_seq (walkpgdir_took d a k)
    rintro ⟨d1, pte⟩ k1 ⟨took, -, tabled⟩
    cases pte with
    | none => exact wp_ret ⟨took, tabled⟩
    | some ij =>
      dsimp only
      split
      · exact wp_fail True.intro
      · split
        · exact wp_ret ⟨took, tabled⟩
        · apply wp_mono (ih (d1.setPte ij.1 ij.2 (pa ||| perm ||| pteP)) _ _ k1)
          rintro r k2 ⟨more, later⟩
          exact ⟨took.trans more, fun start => later (tabled start)⟩

theorem mapKernel_took (d : PgDir ld) (lines : List KMap) (k : Kmem ld) :
    wp (mapKernel d lines) (fun r k' => Took k k' ∧ (Tabled d → Tabled r.1)) anyStop k := by
  induction lines generalizing d k with
  | nil => exact wp_ret ⟨Took.refl k, id⟩
  | cons m rest ih =>
    rw [mapKernel]
    apply wp_seq (mapFrom_took d _ _ _ _ _ k)
    rintro ⟨d1, mapped⟩ k1 ⟨took, tabled⟩
    cases mapped with
    | false => exact wp_ret ⟨took, tabled⟩
    | true =>
      apply wp_mono (ih d1 k1)
      rintro r k2 ⟨more, later⟩
      exact ⟨took.trans more, later ∘ tabled⟩

/-- `mappages` on one page: it stops if the page is present, and fails only for want of a
page table. No other page is touched. -/
theorem wp_mappages_page (d : PgDir ld) {va : Nat} (pa perm : Nat) (k : Kmem ld) (page : IsPage va)
    (remap : present (d.pteOf va) = true → E .remap) :
    wp (mappages d va pgSize pa perm) (fun r k' => Took k k' ∧ KeepsZero k k' ∧
      (Tabled d → Tabled r.1) ∧
      (r.2 = true ↔ (if present (d.pde (pdx va)) then 0 else 1) ≤ k.freelist.length) ∧
      (r.2 = true → present (d.pteOf va) = false) ∧ ∀ x, IsPage x →
        r.1.pteOf x = if r.2 = true ∧ x = va then pa ||| perm ||| pteP else d.pteOf x) E k := by
  have aligned := page.2
  have small := page.1
  have last : pgRoundDown (word (va + pgSize + (2 ^ 32 - 1))) = va := by
    unfold pgRoundDown word
    unfold pgSize at *
    omega
  unfold mappages
  rw [last, pgRoundDown_of_aligned aligned, mapFrom]
  apply wp_seq (wp_also (walkpgdir_took d va k) (walkpgdir_alloc d va k))
  rintro ⟨d1, pte⟩ k1 ⟨⟨took, zero, tabled⟩, same, -, outcome⟩
  rcases outcome with ⟨rfl, empty, missing⟩ | ⟨rfl, table, used⟩
  · refine wp_ret ⟨took, zero, tabled, ?_, by simp, ?_⟩
    · simp [empty, missing]
    · intro x _
      rw [if_neg (by simp), same]
  · have entry : d1.pgtab (pdx va) (ptx va) = d.pteOf va := by
      rw [← same va]
      simp [PgDir.pteOf, table]
    dsimp only
    rw [entry]
    split
    · rename_i there
      exact wp_fail (remap there)
    · rename_i absent
      rw [if_pos rfl]
      refine wp_ret ⟨took, zero, tabled, ?_, fun _ => by simpa using absent, ?_⟩
      · simp only [true_iff]
        omega
      · intro x other
        rw [pteOf_setPte d1 _ page other table, same]
        simp

end Allocating

section Freeing

/-- No page from `lo` to `hi` is left, and the others are as they were. -/
structure Unmapped (d d' : PgDir ld) (lo hi : Nat) : Prop where
  inside : ∀ x, IsPage x → lo ≤ x → x < hi → present (d'.pteOf x) = false
  outside : ∀ x, IsPage x → ¬(lo ≤ x ∧ x < hi) → d'.pteOf x = d.pteOf x

/-- No page is entered, so what is present was there before. -/
theorem Unmapped.was {lo : Nat} (unmapped : Unmapped d d' lo hi) (page : IsPage x)
    (there : present (d'.pteOf x) = true) : d'.pteOf x = d.pteOf x := by
  apply unmapped.outside x page
  rintro ⟨above, below⟩
  rw [unmapped.inside x page above below] at there
  exact absurd there (by decide)

theorem Unmapped.backed {lo : Nat} (unmapped : Unmapped d d' lo hi)
    (backed : Backed d) : Backed d' := by
  intro x page user there
  have same := unmapped.was page there
  rw [same] at there ⊢
  exact backed x page user there

/-- Pages that are not part of the directory keep their contents. -/
def Apart (d d' : PgDir ld) (k k' : Kmem ld) : Prop :=
  ∀ a, pagesOf a d = 0 → pagesOf a d' = 0 ∧ k'.mem a = k.mem a

/-- Clearing an entry leaves what the others point to. -/
theorem Backed.clear (backed : Backed d) (here : IsPage a)
    (table : present (d.pde (pdx a)) = true) : Backed (d.setPte (pdx a) (ptx a) 0) := by
  intro x page under there
  rw [pteOf_setPte d 0 here page table] at there ⊢
  split at there
  · simp at there
  · rename_i other
    rw [if_neg other]
    exact backed x page under there

/-- The first page is absent, or has just been cleared. -/
theorem Unmapped.first {d1 : PgDir ld} (unmapped : Unmapped d1 d' (a + pgSize) hi) (here : IsPage a)
    (absent : present (d1.pteOf a) = false) (same : ∀ x, IsPage x → x ≠ a → d1.pteOf x = d.pteOf x)
    (inside : a < hi) : Unmapped d d' a hi := by
  refine ⟨fun x page above under => ?_, fun x page out => ?_⟩
  · have alignedX := page.2
    have aligned := here.2
    by_cases first : x = a
    · rw [unmapped.outside x page (by unfold pgSize; omega), first, absent]
    · exact unmapped.inside x page (by unfold pgSize at *; omega) under
  · rw [unmapped.outside x page (by unfold pgSize at *; omega), same x page (by omega)]

/-- Checking pages one by one, where `R a d k` says what happens to those from `a` on. -/
theorem wp_deallocEach_rule {R : Nat → PgDir ld → Kmem ld → PgDir ld → Kmem ld → Prop}
    (done : ∀ d k, R hi d k d k)
    (skip : ∀ a d k d' k', IsPage a → a < hi → present (d.pteOf a) = false →
      R (a + pgSize) d k d' k' → R a d k d' k')
    (free : ∀ a d k d' k' (f : Frame ld), IsPage a → a < hi → hi ≤ kernBase →
      present (d.pteOf a) = true → f.pa = pteAddr (d.pteOf a) →
      R (a + pgSize) (d.setPte (pdx a) (ptx a) 0) ⟨f :: k.freelist,
        fun page => if page = f.pa then fun _ => 1 else k.mem page⟩ d' k' → R a d k d' k')
    (d : PgDir ld) (n : Nat) (k : Kmem ld) (user : n = 0 ∨ a + n * pgSize ≤ kernBase)
    (aligned : a % pgSize = 0) (refused : ¬ Backed d → E .kfree) (end_ : a + n * pgSize = hi) :
    wp (deallocEach d a n) (R a d k) E k := by
  induction n generalizing d k a with
  | zero =>
    obtain rfl : a = hi := by omega
    exact wp_ret (done d k)
  | succ n ih =>
    rw [Nat.succ_mul] at user end_
    have inside : a < hi := by
      unfold pgSize at end_
      omega
    have here : IsPage a := ⟨Nat.lt_trans inside (by unfold kernBase at user; omega), aligned⟩
    have nextAligned : (a + pgSize) % pgSize = 0 := by simp [aligned]
    cases there : present (d.pteOf a) with
    | false =>
      rw [deallocEach_absent d n there]
      apply wp_mono (ih d k (by omega) nextAligned refused (by omega))
      exact fun d' k' rest => skip a d k d' k' here inside there rest
    | true =>
      have framed : Backed d → ∃ f : Frame ld, pteAddr (d.pteOf a) = f.pa := fun backed =>
        backed a here (by omega) there
      rw [deallocEach_present d n there]
      split
      · refine wp_fail (refused fun backed => ?_)
        obtain ⟨f, frame⟩ := framed backed
        have positive := f.pa_pos
        omega
      · rw [wp_bind]
        apply wp_kfree
        · intro bad
          refine refused fun backed => ?_
          obtain ⟨f, frame⟩ := framed backed
          simp [frame, frameOf_p2v] at bad
        · intro f passed
          apply wp_mono (ih (d.setPte (pdx a) (ptx a) 0) _ (by omega) nextAligned (fun bad =>
            refused fun backed => bad (backed.clear here (PgDir.table_of_present there).1)) (by omega))
          intro d' k' rest
          exact free a d k d' k' f here inside (by omega) there
            (frameOf_some (pteAddr_lt (d.pteOf a)) passed) rest

/-- Checking `n` pages one by one. -/
theorem wp_deallocEach (d : PgDir ld) (n : Nat) (k : Kmem ld)
    (user : n = 0 ∨ a + n * pgSize ≤ kernBase) (aligned : a % pgSize = 0)
    (refused : ¬ Backed d → E .kfree) :
    wp (deallocEach d a n) (fun d' k' => d'.pde = d.pde ∧ Unmapped d d' a (a + n * pgSize) ∧
      Apart d d' k k') E k := by
  refine wp_deallocEach_rule (R := fun b d k d' k' => d'.pde = d.pde ∧
    Unmapped d d' b (a + n * pgSize) ∧ Apart d d' k k') ?_ ?_ ?_ d n k user aligned refused rfl
  · intro d k
    exact ⟨rfl, ⟨fun x _ above under => by omega, fun _ _ _ => rfl⟩, fun b elsewhere => ⟨elsewhere, rfl⟩⟩
  · rintro b d k d' k' here inside absent ⟨tables, unmapped, apart⟩
    exact ⟨tables, unmapped.first here absent (fun _ _ _ => rfl) inside, apart⟩
  · rintro b d k d' k' f here inside under there freed ⟨tables, unmapped, apart⟩
    obtain ⟨table, -⟩ := PgDir.table_of_present there
    have written := fun x page => pteOf_setPte d (x := x) 0 here page table
    refine ⟨tables, unmapped.first here ?_ (fun x page other => ?_) inside, fun c elsewhere => ?_⟩
    · rw [written b here, if_pos rfl]
      rfl
    · rw [written x page, if_neg other]
    · have cleared := hit_add_pagesOf c (Nat.lt_of_lt_of_le inside under) table
      have unhit : hit c (d.pteOf b) = 0 := by omega
      have other : c ≠ f.pa := by
        rintro rfl
        simp [hit, there, freed] at unhit
      obtain ⟨gone, same⟩ := apart c (by omega)
      exact ⟨gone, by rw [same]; exact if_neg other⟩

/-- A bound counts for the pages below it only. -/
theorem Unmapped.to {lo : Nat} (aligned : lo % pgSize = 0)
    (unmapped : Unmapped d d' lo (lo + pagesTo lo hi * pgSize)) : Unmapped d d' lo hi where
  inside x page above under := by
    have alignedX := page.2
    exact unmapped.inside x page above (by unfold pagesTo; unfold pgSize at *; omega)
  outside x page out := by
    have alignedX := page.2
    exact unmapped.outside x page (by unfold pagesTo; unfold pgSize at *; omega)

theorem wp_deallocuvm (d : PgDir ld) {oldsz : Nat} (newsz : Nat) (k : Kmem ld)
    (user : oldsz ≤ kernBase) (refused : ¬ Backed d → E .kfree) :
    wp (deallocuvm d oldsz newsz) (fun r k' => r.1.pde = d.pde ∧ Apart d r.1 k k' ∧
      (newsz < oldsz ∧ r.2 = newsz ∧ Unmapped d r.1 (pgRoundUp newsz) oldsz ∨
       oldsz ≤ newsz ∧ r.2 = oldsz ∧ r.1 = d)) E k := by
  have aligned := pgRoundUp_aligned newsz
  rw [deallocuvm_eq d newsz user]
  split
  · rename_i grows
    exact wp_ret ⟨rfl, fun b elsewhere => ⟨elsewhere, rfl⟩, Or.inr ⟨grows, rfl, rfl⟩⟩
  · rename_i shrinks
    apply wp_seq (wp_deallocEach d _ k (pagesTo_user user aligned) aligned refused)
    rintro d' k' ⟨tables, unmapped, apart⟩
    exact wp_ret ⟨tables, apart, Or.inl ⟨by omega, rfl, unmapped.to aligned⟩⟩

/-- Freeing page tables that are pages of the allocator. -/
theorem wp_freeTables (d : PgDir ld) (n : Nat) (k : Kmem ld) (tabled : Tabled d)
    (inside : n ≤ npdEntries) :
    wp (freeTables d n) (fun _ k' => ∀ a, pagesOf a d = 0 → k'.mem a = k.mem a) noStop k := by
  induction n with
  | zero => exact wp_ret fun _ _ => rfl
  | succ n ih =>
    rw [freeTables]
    apply wp_seq (ih (by omega))
    intro _ k1 same
    split
    · rename_i table
      obtain ⟨f, frame⟩ := tabled n table
      apply wp_kfree
      · intro bad
        simp [frame, frameOf_p2v] at bad
      · intro g passed
        have freed := frameOf_some (pteAddr_lt (d.pde n)) passed
        intro a elsewhere
        have other : a ≠ g.pa := by
          rintro rfl
          unfold pagesOf tableHits at elsewhere
          have term := Finset.single_le_sum (fun i _ => Nat.zero_le (hit g.pa (d.pde i)))
            (Finset.mem_range.mpr (by omega : n < npdEntries))
          have counted : hit g.pa (d.pde n) = 1 := by simp [hit, table, freed]
          omega
        rw [← same a elsewhere]
        exact if_neg other
    · exact wp_ret same

/-- `freevm` returns and writes only to pages of the directory. -/
theorem wp_freevm (d : PgDir ld) (dealloc : Bool) (k : Kmem ld) (tabled : Tabled d)
    (backed : dealloc = true → Backed d) :
    wp (freevm (some d) dealloc) (fun _ k' => ∀ a, pagesOf a d = 0 → k'.mem a = k.mem a)
      noStop k := by
  have directory : ∀ (d : PgDir ld) (k : Kmem ld), Tabled d →
      wp (freeDir d) (fun _ k' => ∀ a, pagesOf a d = 0 → k'.mem a = k.mem a) noStop k := by
    intro d k tabled
    apply wp_seq (wp_freeTables d npdEntries k tabled (Nat.le_refl _))
    intro _ k1 same
    apply wp_kfree
    · intro bad
      simp [frameOf_p2v] at bad
    · intro f passed a elsewhere
      have freed := frameOf_some d.page.pa_lt passed
      have other : a ≠ f.pa := by
        rintro rfl
        simp [pagesOf, frameHit, freed] at elsewhere
      rw [← same a elsewhere]
      exact if_neg other
  cases dealloc with
  | false => exact directory d k tabled
  | true =>
    apply wp_seq (wp_deallocuvm d 0 k (Nat.le_refl kernBase) fun bad => bad (backed rfl))
    rintro ⟨d', sz⟩ k1 ⟨tables, apart, -⟩
    have still : Tabled d' := by
      intro i table
      rw [tables] at table ⊢
      exact tabled i table
    apply wp_mono (directory d' k1 still)
    intro _ k2 same a elsewhere
    obtain ⟨gone, kept⟩ := apart a elsewhere
    rw [same a gone, kept]

end Freeing

/-- What the kernel maps at page `x` in every address space. -/
def kernelPte (ld : Link) (x : Nat) : Nat := lineEntry x 0 (kmap ld)

/-- A directory with the kernel's mappings and nothing in the user half. -/
structure KernelOnly (d : PgDir ld) : Prop where
  tabled : Tabled d
  user : ∀ x, IsPage x → x < kernBase → d.pteOf x = 0
  kernel : ∀ x, IsPage x → kernBase ≤ x → d.pteOf x = kernelPte ld x

theorem KernelOnly.backed (only : KernelOnly d) : Backed d := by
  intro x page user there
  rw [only.user x page user] at there
  exact absurd there (by decide)

/-- `setupkvm` returns; what it took and wrote when it fails is back on the list. -/
theorem wp_setupkvm (k : Kmem ld) :
    wp setupkvm (fun r k' => (∀ a, freeCount a k = 0 → k'.mem a = k.mem a) ∧
      (∀ a, freeCount a k' + optPages a r = freeCount a k) ∧
      ∀ d, r = some d → Took k k' ∧ KernelOnly d) noStop k := by
  have builds : wp setupkvm (fun r k' => (∀ a, freeCount a k = 0 → k'.mem a = k.mem a) ∧
      ∀ d, r = some d → Took k k' ∧ KernelOnly d) noStop k := by
    unfold setupkvm
    rw [wp_bind]
    apply wp_kalloc
    · intro empty
      exact wp_ret ⟨fun _ _ => rfl, by simp⟩
    · intro page rest list
      rw [wp_bind, memset, wp_modify, if_neg (by decide)]
      have first := Took.fill list fun _ => 0
      have zero : ∀ x, PgDir.pteOf { page, pde := fun _ => 0, pgtab := fun _ _ => 0 : PgDir ld } x = 0 :=
        fun x => by simp [PgDir.pteOf]
      apply wp_seq (wp_also (wp_also
        (mapKernel_enters _ _ (kmap ld) kmap_layout (fun x _ _ => by rw [zero]; rfl))
        (mapKernel_took _ (kmap ld) _))
        (wp_forall fun a => mapKernel_count a _ _ (kmap ld) fun _ member => member))
      rintro ⟨d, mapped⟩ k1 ⟨⟨⟨below, entries, -⟩, took, tabled⟩, kept⟩
      have tables : Tabled d := tabled fun i table => absurd table (by simp)
      cases mapped with
      | true =>
        refine wp_ret ⟨(first.trans took).outside, ?_⟩
        rintro d' ⟨⟩
        refine ⟨first.trans took, tables, ?_, ?_⟩
        · intro x isPage user
          rw [below x isPage user, zero]
        · intro x isPage _
          rw [entries rfl x isPage, zero]
          rfl
      | false =>
        apply wp_seq (wp_freevm d false k1 tables (by simp))
        intro _ k2 same
        refine wp_ret ⟨?_, by simp⟩
        intro a unlisted
        have pages := (kept a).1
        have counted := first.count a
        have head : frameHit a page = 0 := by
          simp only [freeCount, list, List.map_cons, List.count_cons] at unlisted
          simp only [frameHit, beq_iff_eq] at unlisted ⊢
          omega
        unfold Kept at pages
        rw [pagesOf_empty, head] at pages
        dsimp only at pages counted
        rw [same a (by omega), (first.trans took).outside a unlisted]
  apply wp_mono (wp_also builds (wp_forall fun a => setupkvm_count a k))
  rintro r k' ⟨⟨outside, built⟩, counts⟩
  exact ⟨outside, fun a => (counts a).1, built⟩

section Growing

/-- The pages from `lo` to `hi` were entered, zeroed and writable for the user; the others
are as they were. -/
structure Grown (d d' : PgDir ld) (k' : Kmem ld) (lo hi : Nat) : Prop where
  inside : ∀ x, IsPage x → lo ≤ x → x < hi → ∃ f : Frame ld,
    d'.pteOf x = f.pa ||| (pteW ||| pteU) ||| pteP ∧ k'.mem f.pa = fun _ => 0
  outside : ∀ x, IsPage x → ¬(lo ≤ x ∧ x < hi) → d'.pteOf x = d.pteOf x

/-- The first page of a range, then the rest. -/
theorem Grown.cons {d1 : PgDir ld} {k1 k' : Kmem ld} (page : IsPage a) (inside : a < hi)
    (entries : ∀ x, IsPage x → d1.pteOf x =
      if true = true ∧ x = a then f.pa ||| (pteW ||| pteU) ||| pteP else d.pteOf x)
    (zeroed : k1.mem f.pa = fun _ => 0) (zeros : KeepsZero k1 k')
    (rest : Grown d1 d' k' (a + pgSize) hi) : Grown d d' k' a hi := by
  have aligned := page.2
  constructor
  · intro x isPage above below
    have alignedX := isPage.2
    by_cases first : x = a
    · refine ⟨f, ?_, zeros f.pa zeroed⟩
      rw [rest.outside x isPage (by unfold pgSize; omega), entries x isPage, if_pos ⟨rfl, first⟩]
    · exact rest.inside x isPage (by unfold pgSize at *; omega) below
  · intro x isPage out
    rw [rest.outside x isPage (by unfold pgSize; omega), entries x isPage, if_neg (by omega)]

/-- Pages that were neither free nor mapped are as they were. -/
def Idle (d : PgDir ld) (k k' : Kmem ld) : Prop :=
  ∀ b, freeCount b k = 0 → pagesOf b d = 0 → k'.mem b = k.mem b

/-- Taking out what was entered above `oldsz`, from tables that translate as `d` does. -/
theorem wp_undo {d1 : PgDir ld} {oldsz newsz : Nat} (k : Kmem ld) (less : oldsz < newsz)
    (user : newsz ≤ kernBase) (refused : ¬ Backed d → E .kfree) (tabled : Tabled d → Tabled d1)
    (same : ∀ x, IsPage x → d1.pteOf x = d.pteOf x) :
    wp (deallocuvm d1 newsz oldsz) (fun r k' => (Tabled d → Tabled r.1) ∧ Apart d1 r.1 k k' ∧
      Unmapped d r.1 (pgRoundUp oldsz) newsz) E k := by
  have still : Backed d → Backed d1 := by
    intro backed x isPage under there
    rw [same x isPage] at there ⊢
    exact backed x isPage under there
  apply wp_mono (wp_deallocuvm d1 oldsz k user fun bad => refused fun backed => bad (still backed))
  rintro ⟨d2, sz⟩ k2 ⟨tables, apart, ⟨-, -, unmapped⟩ | ⟨more, -, -⟩⟩
  · refine ⟨fun start i table => ?_, apart, unmapped.inside, fun x isPage out => ?_⟩
    · rw [tables] at table ⊢
      exact tabled start i table
    · rw [unmapped.outside x isPage out, same x isPage]
  · omega

/-- The first page of the list, cleared, is entered at `a`. -/
theorem wp_enter (d : PgDir ld) {k : Kmem ld} {mem : Frame ld} {rest : List (Frame ld)}
    (list : k.freelist = mem :: rest) (aligned : a % pgSize = 0) (below : a < kernBase)
    (remap : present (d.pteOf a) = true → E .remap) :
    wp (mappages d a pgSize mem.pa (pteW ||| pteU)) (fun r k' => Took k k' ∧ KeepsZero k k' ∧
      (k'.mem mem.pa = fun _ => 0) ∧ (Tabled d → Tabled r.1) ∧
      (∀ b, freeCount b k = 0 → b ≠ mem.pa ∧ (pagesOf b d = 0 → pagesOf b r.1 = 0)) ∧
      ∀ x, IsPage x → r.1.pteOf x =
        if r.2 = true ∧ x = a then mem.pa ||| (pteW ||| pteU) ||| pteP else d.pteOf x) E
      { freelist := rest, mem := fun page => if page = mem.pa then fun _ => 0 else k.mem page } := by
  have taken := Took.fill list fun _ => 0
  apply wp_mono (wp_also (wp_mappages_page d mem.pa (pteW ||| pteU) _
    ⟨Nat.lt_trans below (by decide), aligned⟩ remap)
    (wp_forall fun b => mappages_user_count b d _ mem below aligned (by decide)))
  rintro ⟨d1, mapped⟩ k1 ⟨⟨took, zeros, tabled, -, -, entries⟩, counted⟩
  refine ⟨taken.trans took, fun b zero => zeros b (KeepsZero.clear k mem.pa rest b zero),
    zeros mem.pa (if_pos rfl), tabled, fun b free => ?_, entries⟩
  have apart : b ≠ mem.pa := by
    rintro rfl
    simp [freeCount, list] at free
  refine ⟨apart, fun other => ?_⟩
  have hit : frameHit b mem = 0 := if_neg apart.symm
  have less := taken.count b
  have count := counted b
  rw [hit, ite_self] at count
  dsimp only at count ⊢
  omega

/-- The loop of `allocuvm` at `a`, with the pages below already entered. A failure takes
them out again. -/
theorem wp_allocFrom (d : PgDir ld) {oldsz newsz : Nat} (fuel : Nat) (k : Kmem ld)
    (user : newsz < kernBase) (aligned : a % pgSize = 0) (old : oldsz ≤ a)
    (started : pgRoundUp oldsz ≤ a) (room : (newsz - a + (pgSize - 1)) / pgSize < fuel)
    (remap : (∃ x, IsPage x ∧ a ≤ x ∧ x < newsz ∧ present (d.pteOf x) = true) → E .remap)
    (refused : ¬ Backed d → E .kfree) :
    wp (allocFrom d a oldsz newsz fuel) (fun r k' => (Tabled d → Tabled r.1) ∧ Idle d k k' ∧
      (r.2 = newsz ∧ Took k k' ∧ KeepsZero k k' ∧ Grown d r.1 k' a newsz ∨
       r.2 = 0 ∧ Unmapped d r.1 (pgRoundUp oldsz) newsz)) E k := by
  induction fuel generalizing d a k with
  | zero => exact absurd room (Nat.not_lt_zero _)
  | succ fuel ih =>
    rw [allocFrom]
    split
    · rename_i inside
      have below : a < kernBase := Nat.lt_trans inside user
      have page : IsPage a := ⟨Nat.lt_trans below (by decide), aligned⟩
      rw [wp_bind]
      apply wp_kalloc
      · intro empty
        apply wp_seq (wp_undo k (by omega) (Nat.le_of_lt user) refused id fun _ _ => rfl)
        rintro r k1 ⟨tabled, apart, rest⟩
        exact wp_ret ⟨tabled, fun b _ other => (apart b other).2, Or.inr ⟨rfl, rest⟩⟩
      · intro mem rest list
        rw [wp_bind, memset, wp_modify]
        apply wp_seq (wp_enter d list aligned below
          fun there => remap ⟨a, page, Nat.le_refl a, inside, there⟩)
        rintro ⟨d1, mapped⟩ k1 ⟨took, zeros, zeroed, tabled, other, entries⟩
        cases mapped with
        | true =>
          have still : Backed d → Backed d1 := fun backed => backed.enter (by decide) entries
          simp only [if_true]
          rw [word_next below]
          apply wp_mono (ih d1 k1 (by simp [aligned]) (by omega) (by omega)
            (by unfold pgSize at *; omega) ?_
            fun bad => refused fun backed => bad (still backed))
          · rintro r k2 ⟨later, idle, ends⟩
            refine ⟨later ∘ tabled, fun b free none => ?_, ?_⟩
            · rw [idle b (Nat.le_zero.mp (free ▸ took.count b)) ((other b free).2 none),
                took.outside b free]
            obtain ⟨size, took2, zeros2, grown⟩ | ⟨size, unmapped⟩ := ends
            · exact Or.inl ⟨size, took.trans took2, fun b zero => zeros2 b (zeros b zero),
                .cons page inside entries zeroed zeros2 grown⟩
            · refine Or.inr ⟨size, unmapped.inside, ?_⟩
              intro x isPage out
              rw [unmapped.outside x isPage out, entries x isPage, if_neg (by omega)]
          · rintro ⟨x, isPage, above, under, there⟩
            have other : x ≠ a := by
              unfold pgSize at above
              omega
            rw [entries x isPage, if_neg (by simp [other])] at there
            exact remap ⟨x, isPage, by omega, under, there⟩
        | false =>
          simp only [Bool.false_eq_true, if_false]
          have same : ∀ x, IsPage x → d1.pteOf x = d.pteOf x := by
            intro x isPage
            rw [entries x isPage, if_neg (by simp)]
          apply wp_seq (wp_undo k1 (by omega) (Nat.le_of_lt user) refused tabled same)
          rintro r k2 ⟨later, kept, ends⟩
          rw [wp_bind]
          apply wp_kfree
          · intro bad
            simp [frameOf_p2v] at bad
          · intro f passed
            have freed := frameOf_some mem.pa_lt passed
            refine wp_ret ⟨later, fun b free none => ?_, Or.inr ⟨rfl, ends⟩⟩
            dsimp only
            rw [if_neg (freed ▸ (other b free).1), (kept b ((other b free).2 none)).2,
              took.outside b free]
    · exact wp_ret ⟨id, fun _ _ _ => rfl, Or.inl ⟨rfl, Took.refl k, fun _ => id,
        fun x _ above under => by omega, fun _ _ _ => rfl⟩⟩

/-- `allocuvm` grows, keeps the size if it is already larger, or fails with everything it
had entered taken out. -/
theorem wp_allocuvm (d : PgDir ld) {oldsz : Nat} (newsz : Nat) (k : Kmem ld)
    (remap : newsz < kernBase →
      (∃ x, IsPage x ∧ pgRoundUp oldsz ≤ x ∧ x < newsz ∧ present (d.pteOf x) = true) → E .remap)
    (refused : ¬ Backed d → E .kfree) :
    wp (allocuvm d oldsz newsz) (fun r k' => (Tabled d → Tabled r.1) ∧ Idle d k k' ∧
      (r.2 = newsz ∧ newsz < kernBase ∧ oldsz ≤ newsz ∧ Took k k' ∧
        Grown d r.1 k' (pgRoundUp oldsz) newsz ∨
       r.2 = oldsz ∧ newsz < oldsz ∧ r.1 = d ∧ k' = k ∨
       r.2 = 0 ∧ (r.1 = d ∨ newsz < kernBase ∧ Unmapped d r.1 (pgRoundUp oldsz) newsz))) E k := by
  unfold allocuvm
  split
  · exact wp_ret ⟨id, fun _ _ _ => rfl, Or.inr (Or.inr ⟨rfl, Or.inl rfl⟩)⟩
  · split
    · rename_i less
      exact wp_ret ⟨id, fun _ _ _ => rfl, Or.inr (Or.inl ⟨rfl, less, rfl, rfl⟩)⟩
    · rename_i notHigh notLess
      have user : newsz < kernBase := by omega
      have up : oldsz ≤ pgRoundUp oldsz := by
        rw [pgRoundUp_eq (by omega)]
        omega
      apply wp_mono (wp_allocFrom d _ k user (pgRoundUp_aligned oldsz) up (Nat.le_refl _)
        (loop_room (Nat.le_of_lt user)) (remap user) refused)
      rintro r k' ⟨tabled, idle, ⟨size, took, -, grown⟩ | ⟨size, unmapped⟩⟩
      · exact ⟨tabled, idle, Or.inl ⟨size, user, by omega, took, grown⟩⟩
      · exact ⟨tabled, idle, Or.inr (Or.inr ⟨size, Or.inr ⟨user, unmapped⟩⟩)⟩

end Growing

end ColorXv6.Vm.Space
