import ColorXv6.Vm.ExecLoad
import ColorXv6.Vm.KernelFault

/-!
Which memory of a process lazy allocation admits. The handler rounds the faulting
address up before it compares it with the size, so it refuses the part of the last
page that is below the size and admits the page that starts at it. Where neither
happens, the pages of every process start below its size.
-/
namespace ColorXv6.Vm.LazyAlloc
open Lib.LittleEndian Lib.Wp Lib.Runs Param Mmu Kalloc PageDir Footprint Exec Process Kernel
open Mapping Space ProcSpaces PageFault Boot

variable {ld : Link}

/-! One fault -/

/-- The error code of a fault in user mode: bit 0 says that the page is present. -/
def UserFault (d : PgDir ld) (va code : Nat) : Prop :=
  if present (d.pteOf (pgRoundDown va)) = true then code = 5 ∨ code = 7 else code = 4 ∨ code = 6

/-- The memory that lazy allocation is for. -/
def Wanted (s : Machine ld) (p va : Nat) (d : PgDir ld) : Prop :=
  va < (s.proc p).sz ∧ present (d.pteOf (pgRoundDown va)) = false ∧ Enough s d va

/-- The page is entered exactly when it is wanted, and otherwise the process is marked. -/
def Lazy (s t : Machine ld) (p va : Nat) (d : PgDir ld) : Prop :=
  (MapsPage s t p va d ↔ Wanted s p va d) ∧ (¬ Wanted s p va d → Refuses t p d)

/-- The address is not in the part of the last page that is below the size, unless it is the
first of that page, and it is not the size itself. -/
def Agree (sz va : Nat) : Prop :=
  if va % pgSize = 0 then va ≠ sz else sz ≤ va ∨ pgRoundDown va + pgSize ≤ sz

variable {va sz : Nat} {s : Machine ld} {d : PgDir ld}

theorem agree_iff (sz : Nat) (user : va < kernBase) :
    Agree sz va ↔ (va < sz ↔ pgRoundUp va ≤ sz) := by
  have up := pgRoundUp_eq (Nat.le_of_lt user)
  have down : pgRoundDown va = va / 4096 * 4096 := rfl
  unfold Agree pgSize
  rw [up, down]
  split
  all_goals omega

/-- When a fault at `va` is handled as it should be. -/
def FaultFits (s : Machine ld) (p va : Nat) (d : PgDir ld) : Prop :=
  kernBase ≤ va ∨ present (d.pteOf (pgRoundDown va)) = true ∨ ¬ Enough s d va ∨
    Agree (s.proc p).sz va

theorem pgRoundDown_lt_kernBase (va : Nat) : pgRoundDown va < kernBase ↔ va < kernBase := by
  unfold pgRoundDown kernBase pgSize
  omega

/-- A fault in user mode. -/
theorem userFault_lazy {p code : Nat} (small : (s.proc p).sz ≤ kernBase) (word : va < 2 ^ 32)
    (dir : (s.proc p).pgdir = some d) (fault : UserFault d va code) :
    wp (pageFault p va code) (fun _ t => Lazy s t p va d ↔ FaultFits s p va d) noHalt s := by
  have page := isPage_pgRoundDown word
  have guarded : present (d.pteOf (pgRoundDown va)) = true → ¬ Admitted s p va code := by
    rintro there ⟨-, -, not7, not5⟩
    rw [UserFault, if_pos there] at fault
    omega
  apply wp_mono (wp_pageFault word dir fun admitted there => absurd admitted (guarded there))
  rintro _ t ⟨-, outcome⟩
  -- the two outcomes exclude each other
  have exclusive : MapsPage s t p va d → ¬ Refuses t p d := by
    rintro ⟨absent, d1, f, -, -, dir1, -, -, -, entries1⟩ ⟨-, d2, dir2, entries2⟩
    rw [dir1] at dir2
    cases dir2
    have clash := entries1 _ page
    rw [entries2 _ page, if_pos rfl] at clash
    rw [clash, present_pte] at absent
    exact absurd absent (by decide)
  have settled : Lazy s t p va d ↔
      (Wanted s p va d ↔ Admitted s p va code ∧ Enough s d va) := by
    rcases outcome with ⟨admitted, enough, maps, -⟩ | ⟨refused, refuses⟩
    · constructor
      · intro lazily
        exact iff_of_true (lazily.1.mp maps) ⟨admitted, enough⟩
      · intro same
        have wanted := same.mpr ⟨admitted, enough⟩
        exact ⟨iff_of_true maps wanted, fun unwanted => absurd wanted unwanted⟩
    · have unmapped : ¬ MapsPage s t p va d := fun maps => exclusive maps refuses
      constructor
      · intro lazily
        exact iff_of_false (fun wanted => unmapped (lazily.1.mpr wanted)) refused
      · intro same
        have unwanted : ¬ Wanted s p va d := fun wanted => refused (same.mp wanted)
        exact ⟨iff_of_false unmapped unwanted, fun _ => refuses⟩
  rw [settled]
  unfold FaultFits
  cases there : present (d.pteOf (pgRoundDown va)) with
  | true =>
    refine iff_of_true (iff_of_false ?_ fun both => guarded there both.1) (by simp)
    rintro ⟨-, absent, -⟩
    simp [there] at absent
  | false =>
    rw [UserFault, if_neg (by simp [there])] at fault
    unfold Wanted Admitted
    rw [pgRoundDown_lt_kernBase]
    by_cases user : va < kernBase
    · have agree := agree_iff (s.proc p).sz user
      have codes : code ≠ 7 ∧ code ≠ 5 := by omega
      by_cases enough : Enough s d va
      · simp only [there, user, codes, enough, ne_eq, not_false_eq_true, and_self, and_true, not_true,
          Nat.not_le.mpr user, Bool.false_eq_true, false_or, agree]
      · simp only [enough, and_false, not_false_eq_true, true_or, or_true]
    · have high : ¬ va < (s.proc p).sz := by omega
      simp only [high, user, false_and, and_false, Nat.not_lt.mp user, true_or]

/-! Runs -/

/-- The user pages of a directory start below `sz`. -/
def Within (d : PgDir ld) (sz : Nat) : Prop :=
  ∀ x, IsPage x → x < kernBase → present (d.pteOf x) = true → x < sz

/-- Every user page of every process starts below its size. -/
def AllWithin (s : Machine ld) : Prop :=
  ∀ p d, (s.proc p).pgdir = some d → Within d (s.proc p).sz

theorem Within.mono {sz' : Nat} (within : Within d sz) (grows : sz ≤ sz') :
    Within d sz' := fun x page user there => Nat.lt_of_lt_of_le (within x page user there) grows

theorem within_allocuvm (newsz : Nat) (k : Kmem ld) (small : sz ≤ kernBase) (within : Within d sz) :
    wp (allocuvm d sz newsz) (fun r _ => r.2 ≠ 0 → Within r.1 r.2 ∧ r.2 ≤ kernBase) anyStop k := by
  apply wp_mono (wp_allocuvm d newsz k (fun _ _ => True.intro) fun _ => True.intro)
  rintro ⟨d', size⟩ k' ⟨-, -, outcome⟩ nonzero
  rcases outcome with ⟨rfl, low, grows, -, grown⟩ | ⟨rfl, -, rfl, -⟩ | ⟨rfl, -⟩
  · refine ⟨?_, Nat.le_of_lt low⟩
    intro x page user there
    by_cases inside : pgRoundUp sz ≤ x ∧ x < size
    · exact inside.2
    · rw [grown.outside x page inside] at there
      exact Nat.lt_of_lt_of_le (within x page user there) grows
  · exact ⟨within, small⟩
  · exact absurd rfl nonzero

theorem within_deallocuvm (newsz : Nat) (k : Kmem ld) (small : sz ≤ kernBase)
    (within : Within d sz) :
    wp (deallocuvm d sz newsz) (fun r _ => Within r.1 r.2 ∧ Within r.1 sz) anyStop k := by
  apply wp_mono (wp_deallocuvm d newsz k small fun _ => True.intro)
  rintro ⟨d', size⟩ k' ⟨-, -, ⟨shrinks, rfl, unmapped⟩ | ⟨-, rfl, rfl⟩⟩
  · have still : Within d' sz := by
      intro x page user there
      rw [unmapped.was page there] at there
      exact within x page user there
    refine ⟨?_, still⟩
    intro x page user there
    have before := still x page user there
    have below : ¬(pgRoundUp size ≤ x ∧ x < sz) := by
      rintro ⟨above, under⟩
      simp [unmapped.inside x page above under] at there
    have up := pgRoundUp_eq (Nat.le_trans (Nat.le_of_lt shrinks) small)
    have aligned := page.2
    unfold pgSize at aligned
    dsimp only at up ⊢
    omega
  · exact ⟨within, within⟩

theorem within_clearpteu {uva : Nat} (k : Kmem ld) (within : Within d sz) :
    wp (clearpteu d uva) (fun d' _ => Within d' sz) anyStop k := by
  unfold clearpteu
  rw [walkpgdir_find, pure_bind]
  cases table : present (d.pde (pdx uva)) with
  | false => exact wp_fail True.intro
  | true =>
    refine wp_ret ?_
    intro x page user there
    apply within x page user
    unfold PgDir.pteOf PgDir.setPte at there
    unfold PgDir.pteOf
    dsimp only at there
    split
    · rename_i present
      rw [if_pos present] at there
      split at there
      · rename_i here
        rw [here.1, here.2, ← present_clear]
        exact there
      · exact there
    · rename_i missing
      rw [if_neg missing] at there
      exact there

theorem within_setupkvm (k : Kmem ld) :
    wp setupkvm (fun r _ => ∀ d, r = some d → Within d 0) anyStop k := by
  apply wp_mono (wp_error (wp_setupkvm k) fun _ never => never.elim)
  rintro r k' ⟨-, -, built⟩ d found x page user there
  rw [(built d found).2.user x page user] at there
  exact absurd there (by decide)

/-- Loading segments from any file, with guard and stack pages after them. -/
theorem within_loadSpace (img : Image) (elf : ElfHdr) (k : Kmem ld) (empty : Within d 0) :
    wp (loadSpace img elf d) (fun r _ => ∀ sz, r.2 = some sz → Within r.1 sz) anyStop k := by
  have segments : wp (loadSegments (fun m => m) (readImage img) d 0 elf.phoff 0 elf.phnum) _ anyStop k :=
    wp_loadSegments_inv (I := fun d sz (_ : Kmem ld) => Within d sz ∧ sz ≤ kernBase)
    (L := fun _ _ => True) (fun _ => True.intro) (fun _ _ _ now => wp_ret now)
    (fun newsz now => by
      apply wp_mono (wp_and (within_allocuvm newsz _ now.2 now.1) (allocuvm_count 0 _ _ _ newsz))
      rintro r k' ⟨grown, -, sizes⟩
      exact ⟨True.intro, fun nonzero => ⟨by omega, grown nonzero⟩⟩)
    (fun _ _ now _ _ => wp_mono (wp_true _ _ fun _ => True.intro) fun _ _ _ => now)
    _ _ _ ⟨empty, Nat.zero_le _⟩
  apply wp_seq segments
  rintro ⟨d1, loaded⟩ k1 ⟨-, done⟩
  cases loaded with
  | none => exact wp_ret (by simp)
  | some sz =>
    obtain ⟨within, small⟩ := done sz rfl
    have up := pgRoundUp_eq small
    apply wp_seq (within_allocuvm _ k1 (by unfold kernBase at *; omega)
      (within.mono (by omega : sz ≤ pgRoundUp sz)))
    rintro ⟨d2, sz2⟩ k2 grown
    dsimp only at grown ⊢
    split
    · exact wp_ret (by simp)
    · rename_i nonzero
      apply wp_seq (within_clearpteu k2 (grown nonzero).1)
      intro d3 k3 within3
      refine wp_ret ?_
      rintro _ ⟨⟩
      exact within3

/-- An image that `exec` commits to has its pages below its size. -/
theorem within_buildImage (img : Image) (argv : List (List UInt8)) (k : Kmem ld) :
    wp (buildImage img argv) (fun r _ => ∀ image, r = some image → Within image.pgdir image.sz)
      anyStop k := by
  have loads : wp (loadPhase img) (fun r _ => ∀ elf d sz, r = some (elf, d, sz) →
      Within d sz) anyStop k := by
    unfold loadPhase
    dsimp only
    split
    · exact wp_ret (by simp)
    · split
      · exact wp_ret (by simp)
      · apply wp_seq (within_setupkvm k)
        intro dir k1 built
        cases dir with
        | none => exact wp_ret (by simp)
        | some d =>
          apply wp_seq (within_loadSpace img _ k1 (built d rfl))
          rintro ⟨d1, loaded⟩ k2 within
          cases loaded with
          | none => exact wp_seq (wp_true _ k2 fun _ => True.intro) fun _ _ _ => wp_ret (by simp)
          | some sz =>
            refine wp_ret ?_
            rintro _ _ _ ⟨⟩
            exact within sz rfl
  apply wp_seq loads
  intro r k1 loaded
  cases r with
  | none => exact wp_ret (by simp)
  | some result =>
    obtain ⟨elf, d, sz⟩ := result
    apply wp_mono (pushPhase_count 0 k1 argv elf d sz)
    rintro r k2 ⟨-, image⟩ found here
    rw [(image found here).1, (image found here).2]
    exact loaded elf d sz rfl

/-- The loop of `copyuvm` enters pages below the size only. -/
theorem within_copyFrom (parent d : PgDir ld) {i : Nat} (fuel : Nat) (k : Kmem ld)
    (user : sz ≤ kernBase) (aligned : i % pgSize = 0) (within : Within d sz) :
    wp (copyFrom parent d i sz fuel) (fun r _ => Within r.1 sz) anyStop k := by
  refine wp_copyFrom (I := fun _ d' _ => Within d' sz) user ?_ ?_ fuel (.inr True.intro) aligned
    within
  case refine_2 => exact fun _ _ _ _ still => still
  intro i d k inside aligned within
  have page : IsPage i := ⟨Nat.lt_trans (Nat.lt_of_lt_of_le inside user) (by decide), aligned⟩
  unfold copyTurn
  simp only [ite_self]
  split
  · apply wp_seq (wp_true kalloc k fun _ => True.intro)
    intro r k1 _
    cases r with
    | none => exact wp_ret within
    | some mem =>
      apply wp_seq (wp_true _ k1 fun _ => True.intro)
      intro _ k2 _
      apply wp_seq (wp_mappages_page d mem.pa _ k2 page fun _ => True.intro)
      rintro ⟨d1, mapped⟩ k3 ⟨-, -, -, -, -, entries⟩
      have still : Within d1 sz := by
        intro x isPage low there
        rw [entries x isPage] at there
        split at there
        · rename_i here
          rw [here.2]
          exact inside
        · exact within x isPage low there
      cases mapped with
      | true => exact wp_ret still
      | false => exact wp_seq (wp_true _ k3 fun _ => True.intro) fun _ _ _ => wp_ret still
  · exact wp_ret within

theorem within_copyuvm (parent : PgDir ld) (k : Kmem ld) (user : sz ≤ kernBase) :
    wp (copyuvm parent sz) (fun r _ => ∀ d, r = some d → Within d sz) anyStop k := by
  apply wp_seq (within_setupkvm k)
  intro dir k1 built
  cases dir with
  | none => exact wp_ret (by simp)
  | some d =>
    apply wp_seq (within_copyFrom parent d _ k1 user (Nat.zero_mod _)
      ((built d rfl).mono (Nat.zero_le _)))
    rintro ⟨d', copied⟩ k2 within
    cases copied with
    | true =>
      refine wp_ret ?_
      rintro child ⟨⟩
      exact within
    | false =>
      exact wp_seq (wp_true _ k2 fun _ => True.intro) fun _ _ _ => wp_ret (by simp)

theorem within_inituvm (init : Bytes) (size : Nat) (k : Kmem ld)
    (empty : Within d 0) : wp (inituvm d init size) (fun r _ => Within r.1 pgSize) anyStop k := by
  have zero : IsPage 0 := ⟨by decide, by decide⟩
  unfold inituvm
  split
  · exact wp_fail True.intro
  · apply wp_seq (wp_true kalloc k fun _ => True.intro)
    intro r k1 _
    cases r with
    | none => exact wp_fail True.intro
    | some mem =>
      apply wp_seq (wp_true _ k1 fun _ => True.intro)
      intro _ k2 _
      apply wp_seq (wp_mappages_page d mem.pa _ k2 zero fun _ => True.intro)
      rintro ⟨d1, mapped⟩ k3 ⟨-, -, -, -, -, entries⟩
      apply wp_seq (wp_true _ k3 fun _ => True.intro)
      intro _ k4 _
      refine wp_ret ?_
      intro x page user there
      rw [entries x page] at there
      split at there
      · rename_i here
        rw [here.2]
        decide
      · exact Nat.lt_of_lt_of_le (empty x page user there) (Nat.zero_le _)

def InSize (sz : Nat) (dir : Option (PgDir ld)) : Prop := ∀ d, dir = some d → Within d sz

/-- Every operation on an address space keeps its pages below its size. -/
theorem within_closed : Closed (@InSize ld) where
  gone _ d none := by cases none
  starts init size k := wp_mono (within_setupkvm k) fun _ _ built d found k' =>
    wp_mono (within_inituvm init size k' (built d found)) fun _ _ within d' here => by
      cases here
      exact within
  copies d sz k small := wp_mono (within_copyuvm d k small) fun _ _ copied child found d' here => by
    cases here
    exact copied child found
  builds img argv k := wp_mono (within_buildImage img argv k) fun _ _ built image found d here => by
    cases here
    exact built image found
  frees d _ _ k _ := by
    apply wp_mono (wp_deallocuvm d 0 k (Nat.le_refl kernBase) fun _ => True.intro)
    rintro ⟨d', size⟩ k' ⟨-, -, ⟨-, -, unmapped⟩ | ⟨never, -⟩⟩ _ ⟨⟩ x page user there
    · simp [unmapped.inside x page (by simp [pgRoundUp, Mmu.word, pgSize]) user] at there
    · exact absurd never (by decide)
  shrinks newsz k small fits := by
    apply wp_mono (within_deallocuvm newsz k small (fits _ rfl))
    rintro r k' ⟨within, still⟩
    exact ⟨fun _ here => by cases here; exact still, fun _ here => by cases here; exact within⟩

section Actions
variable {s : Machine ld} (all : AllWithin s)
include all

theorem within_sysSbrk (p : Nat) {n : Int} (small : (s.proc p).sz ≤ kernBase)
    (high : n < 2 ^ 31) : wp (sysSbrk p n) (fun _ t => AllWithin t) anyHalt s := by
  by_cases pos : 0 ≤ n
  · have sum := UserPointers.addInt_grow small pos high
    unfold sysSbrk
    rw [wp_read, if_pos pos]
    apply wp_seq (fit_modifyProc (F := InSize) all p _ ?_)
    · exact fun _ t after => wp_ret after
    · intro d dir
      exact (all p d dir).mono (by dsimp only; omega)
  · exact fit_shrink (F := InSize) all within_closed small (by omega)

/-- The one action that can put a page at or above the size. -/
theorem within_pageFault {p : Nat} (err : Nat) (word : va < 2 ^ 32)
    (fits : ∀ d, (s.proc p).pgdir = some d → FaultFits s p va d) :
    wp (pageFault p va err) (fun _ t => AllWithin t) anyHalt s := by
  cases dir : (s.proc p).pgdir with
  | none =>
    exact wp_mono (spaces_pageFault va err dir) fun _ t same => AllFit.spaces (F := InSize) all same
  | some d =>
    apply wp_mono (wp_pageFault word dir fun _ _ => True.intro)
    rintro _ t ⟨untouched, outcome⟩ q d1 found
    by_cases here : q = p
    · subst here
      rw [untouched.size]
      intro x page user there
      rcases outcome with ⟨admitted, enough, ⟨absent, d', f, rest, taken, dir', -, -, -, entries⟩, -⟩ |
        ⟨-, -, d', dir', entries⟩
      · rw [dir'] at found
        cases found
        rw [entries x page] at there
        split at there
        · rename_i same
          subst same
          have low : va < kernBase := (pgRoundDown_lt_kernBase va).mp user
          rcases fits d dir with high | present | few | agree
          · omega
          · simp [absent] at present
          · exact absurd enough few
          · have below := ((agree_iff (s.proc q).sz low).mp agree).mpr admitted.1
            exact Nat.lt_of_le_of_lt (pgRoundDown_le va) below
        · exact all q d dir x page user there
      · rw [dir'] at found
        cases found
        rw [entries x page] at there
        exact all q d dir x page user there
    · rw [untouched.others q here] at found ⊢
      exact all q d1 found

end Actions

/-- Every fault of a step is handled as it should be. -/
def FaultsFit (s : Machine ld) : Action → Prop
  | .fault p _ cr2 _ => ∀ d, (s.proc p).pgdir = some d → FaultFits s p cr2 d
  | _ => True

theorem within_perform (all : AllWithin s) (bounded : Bounded s) {act : Action}
    (ready : enabled s act) (fits : FaultsFit s act) :
    wp (perform act) (fun _ t => AllWithin t) anyHalt s := by
  by_cases sbrk : ∃ p n, act = .sbrk p n
  · obtain ⟨p, n, rfl⟩ := sbrk
    exact wp_ignore (within_sysSbrk all p (bounded p) ready.2.2.2)
  · refine fit_perform (F := InSize) all within_closed bounded (fun p n same => sbrk ⟨p, n, same⟩) ?_
    rintro p user cr2 code err rfl
    exact within_pageFault all err ready.2.2 fits

/-- The steps of processes within the user half, with their faults handled as they should. -/
def Fits (s : Machine ld) (act : Action) : Prop := Bounded s ∧ FaultsFit s act

theorem within_run {pages : List (Frame ld)} {mem : Nat → Bytes} {acts : List Action}
    {m : Machine ld} (run : Run (Guarded Fits Step) (powerOn pages mem) acts m) : AllWithin m := by
  apply run.preserves AllWithin _ (fun p d dir => by simp [powerOn] at dir)
  rintro s act t all ⟨⟨bounded, fits⟩, ready, done⟩
  exact wp_ok (within_perform all bounded ready fits) done

/-- Lazy allocation. A user-mode fault of a process within the user half is handled as it
should be exactly when `FaultFits`; and in every run whose steps meet that condition, the
pages of every process start below its size. -/
theorem lazy_allocation_fits :
    (∀ (s : Machine ld) (p va code : Nat) (d : PgDir ld), (s.proc p).sz ≤ kernBase →
      va < 2 ^ 32 → (s.proc p).pgdir = some d → UserFault d va code →
      ∃ t, pageFault p va code s = .ok ((), t) ∧ (Lazy s t p va d ↔ FaultFits s p va d)) ∧
    ∀ (pages : List (Frame ld)) (mem : Nat → Bytes) (acts : List Action) (m : Machine ld),
      Run (Guarded Fits Step) (powerOn pages mem) acts m → AllWithin m := by
  constructor
  · intro s p va code d small word dir fault
    obtain ⟨_, t, result, after⟩ := wp_returns (userFault_lazy small word dir fault)
    exact ⟨t, result, after⟩
  · intro pages mem acts m run
    exact within_run run

/-- Memory is left for a page after boot. -/
theorem enough_of_ten (ten : 10 ≤ s.kmem.freelist.length) (d : PgDir ld) (va : Nat) :
    Enough s d va := by
  unfold Enough
  split <;> omega

theorem userFault_absent
    (absent : present (d.pteOf (pgRoundDown va)) = false) : UserFault d va 6 := by
  rw [UserFault, if_neg (by simp [absent])]
  exact Or.inr rfl

/-- 8192 bytes above the first page: a write to the second page enters it. -/
theorem lazy_allocation_fits_second_page :
    ∃ (s t : Machine smallLink) (d : PgDir smallLink),
      Run Step smallMachine (booting ++ [.sbrk 0 8192]) s ∧
      pageFault 0 5000 6 s = .ok ((), t) ∧ Lazy s t 0 5000 d ∧ MapsPage s t 0 5000 d := by
  obtain ⟨s, run, alone, ten⟩ :=
    UserPointers.grown_process 8192 12288 (by decide) (by decide) (by decide)
  obtain ⟨d, dir, onePage⟩ := alone.dir
  have absent := onePage (pgRoundDown 5000) ⟨by decide, by decide⟩ (by decide) (by decide)
  obtain ⟨t, result, lazily⟩ := lazy_allocation_fits.1 s 0 5000 6 d (by rw [alone.size]; decide)
    (by decide) dir (userFault_absent absent)
  have holds : Lazy s t 0 5000 d := by
    refine lazily.mpr (Or.inr (Or.inr (Or.inr ?_)))
    rw [alone.size]
    exact Or.inr (by decide)
  refine ⟨s, t, d, run, result, holds, holds.1.mpr ⟨?_, absent, enough_of_ten ten d 5000⟩⟩
  rw [alone.size]
  decide

/-- A process of 5000 bytes is killed for writing to address 4500. A process of 8192 bytes is
given the page at 8192. -/
theorem lazy_allocation_off_by_a_page :
    (∃ (s t : Machine smallLink) (d : PgDir smallLink),
      Run Step smallMachine (booting ++ [.sbrk 0 904]) s ∧
      (s.proc 0).sz = 5000 ∧ (s.proc 0).pgdir = some d ∧ UserFault d 4500 6 ∧ Wanted s 0 4500 d ∧
      pageFault 0 4500 6 s = .ok ((), t) ∧ ¬ Lazy s t 0 4500 d) ∧
    ∃ (t : Machine smallLink) (d : PgDir smallLink),
      Run Step smallMachine (booting ++ [.sbrk 0 4096, .fault 0 true 8192 6]) t ∧
      (t.proc 0).sz = 8192 ∧ (t.proc 0).pgdir = some d ∧ present (d.pteOf 8192) = true := by
  constructor
  · obtain ⟨s, run, alone, ten⟩ :=
      UserPointers.grown_process 904 5000 (by decide) (by decide) (by decide)
    obtain ⟨d, dir, onePage⟩ := alone.dir
    have absent := onePage (pgRoundDown 4500) ⟨by decide, by decide⟩ (by decide) (by decide)
    obtain ⟨_, t, result, lazily⟩ := wp_returns (userFault_lazy (by rw [alone.size]; decide)
      (by decide : 4500 < 2 ^ 32) dir (userFault_absent absent))
    refine ⟨s, t, d, run, alone.size, dir, userFault_absent absent, ⟨?_, absent, enough_of_ten ten d 4500⟩,
      result, fun holds => ?_⟩
    · rw [alone.size]
      decide
    · rcases lazily.mp holds with high | there | few | agree
      · exact absurd high (by decide)
      · simp [absent] at there
      · exact few (enough_of_ten ten d 4500)
      · rw [alone.size] at agree
        exact absurd agree (by unfold Agree; decide)
  · obtain ⟨s, run, alone, ten⟩ :=
      UserPointers.grown_process 4096 8192 (by decide) (by decide) (by decide)
    obtain ⟨d, dir, onePage⟩ := alone.dir
    have absent := onePage (pgRoundDown 8192) ⟨by decide, by decide⟩ (by decide) (by decide)
    have admitted : Admitted s 0 8192 6 := by
      refine ⟨?_, by decide, by decide, by decide⟩
      rw [alone.size]
      decide
    have traps : wp (trap 0 true 8192 6) (fun _ t => (t.proc 0).sz = 8192 ∧
        ∃ d, (t.proc 0).pgdir = some d ∧ present (d.pteOf 8192) = true) noHalt s := by
      unfold trap
      rw [if_pos rfl]
      apply wp_seq (wp_pageFault (by decide : 8192 < 2 ^ 32) dir fun _ there => by simp [absent] at there)
      rintro _ t ⟨untouched, ⟨-, -, maps, same⟩ | ⟨refused, -⟩⟩
      · obtain ⟨-, d', f, rest, taken, dir', -, -, -, entries⟩ := maps
        rw [wp_read, same, alone.alive, if_neg (by simp)]
        refine wp_ret ⟨untouched.size.trans alone.size, d', dir', ?_⟩
        rw [entries 8192 ⟨by decide, by decide⟩, if_pos (by decide)]
        exact present_pte _ _
      · exact absurd ⟨admitted, enough_of_ten ten d 8192⟩ refused
    have performs : wp (perform (.fault 0 true 8192 6)) (fun _ t => (t.proc 0).sz = 8192 ∧
        ∃ d, (t.proc 0).pgdir = some d ∧ present (d.pteOf 8192) = true) noHalt s :=
      wp_seq traps fun _ _ after => wp_ret after
    obtain ⟨_, t, done, top, d', dir', there⟩ := wp_returns performs
    exact ⟨t, d', run.snoc ⟨⟨by decide, alone.state, by decide⟩, done⟩, top, dir', there⟩

end ColorXv6.Vm.LazyAlloc
