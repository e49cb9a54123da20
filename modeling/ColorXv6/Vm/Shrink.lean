import ColorXv6.Vm.ForkCopy

/-!
Shrinking a process: `sys_sbrk` of a negative number. `deallocuvm` gives back the frames of
the pages it unmaps, and its result tells `growproc` both the new size and an error.
-/
namespace ColorXv6.Vm.Shrink
open Lib.LittleEndian Lib.Wp Mmu Kalloc PageDir Footprint Mapping Space Process
open Boot (smallLink smallPages)
open ForkCopy (pairDir pteOf_pairDir backed_pairDir)

variable {ld : Link}

/-- Pages that start from `a` on and before `hi`. -/
def pageCount (a hi : Nat) : Nat := (hi - a + (pgSize - 1)) / pgSize

/-- The pages from `a` on and before `hi` that are present. -/
def presentPages (d : PgDir ld) (a hi : Nat) : List Nat :=
  ((List.range (pageCount a hi)).map fun i => a + i * pgSize).filter fun x => present (d.pteOf x)

section Pages
variable (d : PgDir ld) {a hi : Nat}

theorem presentPages_done (done : hi ≤ a) : presentPages d a hi = [] := by
  have none : pageCount a hi = 0 := by
    unfold pageCount pgSize
    omega
  unfold presentPages
  rw [none]
  rfl

theorem presentPages_step (inside : a < hi) : presentPages d a hi =
    (if present (d.pteOf a) then [a] else []) ++ presentPages d (a + pgSize) hi := by
  have count : pageCount a hi = pageCount (a + pgSize) hi + 1 := by
    unfold pageCount pgSize
    omega
  have rest : ∀ i, a + (i + 1) * pgSize = a + pgSize + i * pgSize := fun i => by
    rw [Nat.succ_mul]
    omega
  unfold presentPages
  rw [count, List.range_succ_eq_map, List.map_cons, List.map_map, List.filter_cons, Nat.zero_mul,
    Nat.add_zero]
  simp only [Function.comp_def, Nat.succ_eq_add_one, rest]
  split
  · rw [List.singleton_append]
  · rw [List.nil_append]

theorem mem_presentPages (aligned : a % pgSize = 0) {x : Nat} :
    x ∈ presentPages d a hi ↔ x % pgSize = 0 ∧ a ≤ x ∧ x < hi ∧ present (d.pteOf x) = true := by
  unfold presentPages pageCount
  rw [List.mem_filter, List.mem_map]
  constructor
  · rintro ⟨⟨i, inside, rfl⟩, there⟩
    rw [List.mem_range] at inside
    unfold pgSize at *
    exact ⟨by omega, by omega, by omega, there⟩
  · rintro ⟨page, above, below, there⟩
    refine ⟨⟨(x - a) / pgSize, ?_, ?_⟩, there⟩
    · rw [List.mem_range]
      unfold pgSize at *
      omega
    · unfold pgSize at *
      omega

end Pages

/-- The frames `pas` were put on the free list one by one, and no other was written. -/
structure Freed (k k' : Kmem ld) (pas : List Nat) : Prop where
  list : k'.freelist.map Frame.pa = pas.reverse ++ k.freelist.map Frame.pa
  mem : ∀ a, a ∉ pas → k'.mem a = k.mem a

/-- The frames of the present pages from `a` on and before `hi`. -/
def frames (d : PgDir ld) (a hi : Nat) : List Nat :=
  (presentPages d a hi).map fun x => pteAddr (d.pteOf x)

theorem frames_congr {d d' : PgDir ld} {a hi : Nat} (aligned : a % pgSize = 0)
    (user : hi ≤ kernBase) (same : ∀ x, IsPage x → a ≤ x → d'.pteOf x = d.pteOf x) :
    frames d' a hi = frames d a hi := by
  unfold frames presentPages
  rw [List.filter_congr (q := fun x => present (d.pteOf x))]
  · apply List.map_congr_left
    intro x mem
    obtain ⟨page, above, below, -⟩ := (mem_presentPages d aligned).mp mem
    rw [same x ⟨by unfold kernBase at user; omega, page⟩ above]
  · intro x mem
    obtain ⟨i, inside, rfl⟩ := List.mem_map.mp mem
    rw [List.mem_range] at inside
    unfold pageCount at inside
    rw [same]
    · unfold kernBase at user
      unfold pgSize at *
      exact ⟨by omega, by unfold pgSize; omega⟩
    · omega

/-- The present pages from `lo` on and below `hi` have lost their entries, and no other page. -/
def Emptied (d d' : PgDir ld) (lo hi : Nat) : Prop :=
  ∀ x, IsPage x →
    d'.pteOf x = if lo ≤ x ∧ x < hi ∧ present (d.pteOf x) = true then 0 else d.pteOf x

theorem Emptied.unmapped {d d' : PgDir ld} {lo hi : Nat} (emptied : Emptied d d' lo hi) :
    Unmapped d d' lo hi where
  inside x page above below := by
    rw [emptied x page]
    split
    · rfl
    · rename_i absent
      simpa [above, below] using absent
  outside x page out := by
    rw [emptied x page, if_neg (fun inside => out ⟨inside.1, inside.2.1⟩)]

/-- Checking pages one by one frees the frames of those that are present. -/
theorem wp_deallocEach_frees (d : PgDir ld) {a : Nat} (n : Nat) (k : Kmem ld) {E : Stop → Prop}
    (user : n = 0 ∨ a + n * pgSize ≤ kernBase) (aligned : a % pgSize = 0)
    (refused : ¬ Backed d → E .kfree) :
    wp (deallocEach d a n) (fun d' k' => Emptied d d' a (a + n * pgSize) ∧
      Freed k k' (frames d a (a + n * pgSize))) E k := by
  refine wp_deallocEach_rule (R := fun b d k d' k' => Emptied d d' b (a + n * pgSize) ∧
    Freed k k' (frames d b (a + n * pgSize))) ?_ ?_ ?_ d n k user aligned refused rfl
  · intro d k
    unfold frames
    rw [presentPages_done d (Nat.le_refl _)]
    exact ⟨fun x _ => (if_neg (by omega)).symm, rfl, fun _ _ => rfl⟩
  all_goals
    intro b d k d' k'
    generalize a + n * pgSize = hi
    have next : IsPage b → ∀ x, IsPage x → x ≠ b → (b ≤ x ↔ b + pgSize ≤ x) := by
      rintro ⟨-, aligned⟩ x ⟨-, alignedX⟩ other
      unfold pgSize at *
      omega
  · rintro here inside absent ⟨emptied, freed⟩
    refine ⟨fun x page => ?_, ?_⟩
    · rw [emptied x page]
      by_cases first : x = b
      · simp [first, absent]
      · simp only [next here x page first]
    · unfold frames at freed ⊢
      rwa [presentPages_step d inside, absent, if_neg Bool.false_ne_true, List.nil_append]
  · rintro f here inside under there same ⟨emptied, list, mem⟩
    obtain ⟨table, -⟩ := PgDir.table_of_present there
    have written := fun x page => pteOf_setPte d (x := x) 0 here page table
    have first : frames d b hi = pteAddr (d.pteOf b) :: frames d (b + pgSize) hi := by
      unfold frames
      rw [presentPages_step d inside, there, if_pos rfl, List.map_append, List.map_singleton]
      rfl
    have rest : frames (d.setPte (pdx b) (ptx b) 0) (b + pgSize) hi = frames d (b + pgSize) hi := by
      apply frames_congr (by simp [here.2]) under
      intro x page above
      rw [written x page, if_neg (by unfold pgSize at above; omega)]
    rw [rest] at list mem
    refine ⟨fun x page => ?_, ?_, fun c other => ?_⟩
    · rw [emptied x page, written x page]
      by_cases same : x = b
      · subst same
        simp [there, inside]
      · simp only [if_neg same, next here x page same]
    · rw [list, first, List.reverse_cons, List.map_cons, same, List.append_assoc]
      rfl
    · rw [first, List.mem_cons, not_or] at other
      rw [mem c other.2]
      exact if_neg (by rw [same]; exact other.1)

/-- `deallocuvm` empties the pages that start above the new size and frees their frames. -/
theorem wp_deallocuvm_frees (d : PgDir ld) {oldsz newsz : Nat} (k : Kmem ld) {E : Stop → Prop}
    (user : oldsz ≤ kernBase) (shrinks : newsz < oldsz) (refused : ¬ Backed d → E .kfree) :
    wp (deallocuvm d oldsz newsz) (fun r k' => r.2 = newsz ∧ Emptied d r.1 (pgRoundUp newsz) oldsz ∧
      Freed k k' (frames d (pgRoundUp newsz) oldsz)) E k := by
  have aligned := pgRoundUp_aligned newsz
  have count : pageCount (pgRoundUp newsz) (pgRoundUp newsz + pagesTo (pgRoundUp newsz) oldsz * pgSize) =
      pageCount (pgRoundUp newsz) oldsz := by
    unfold pageCount pagesTo pgSize
    omega
  rw [deallocuvm_eq d newsz user, if_neg (by omega)]
  apply wp_seq (wp_deallocEach_frees d _ k (pagesTo_user user aligned) aligned refused)
  rintro d' k' ⟨emptied, freed⟩
  refine wp_ret ⟨rfl, ?_, ?_⟩
  · intro x page
    have alignedX := page.2
    have inside : pgRoundUp newsz ≤ x →
        (x < pgRoundUp newsz + pagesTo (pgRoundUp newsz) oldsz * pgSize ↔ x < oldsz) := by
      unfold pagesTo pgSize at *
      omega
    rw [emptied x page]
    congr 1
    exact propext (and_congr_right fun above => and_congr_left fun _ => inside above)
  · unfold frames presentPages at freed ⊢
    rwa [count] at freed

/-- The size is the one asked for, and the present pages that were above it are gone, each
frame back on the free list. -/
structure Shrunk (s t : Machine ld) (p : Nat) (n : Int) (d : PgDir ld) : Prop where
  size : ((t.proc p).sz : Int) = (s.proc p).sz + n
  pages : ∃ d', (t.proc p).pgdir = some d' ∧ Unmapped d d' (pgRoundUp (t.proc p).sz) (s.proc p).sz
  freed : Freed s.kmem t.kmem (frames d (pgRoundUp (t.proc p).sz) (s.proc p).sz)

/-- The size, the user pages and the free list are as they were. -/
structure Untouched (s t : Machine ld) (p : Nat) (d : PgDir ld) : Prop where
  size : (t.proc p).sz = (s.proc p).sz
  pages : ∃ d', (t.proc p).pgdir = some d' ∧ ∀ x, IsPage x →
    present (d'.pteOf x) = true ∨ present (d.pteOf x) = true → d'.pteOf x = d.pteOf x
  list : t.kmem.freelist = s.kmem.freelist

def AllOrNothing (s : Machine ld) (p : Nat) (n : Int) (d : PgDir ld) : Prop :=
  ∃ r t, sysSbrk p n s = .ok (r, t) ∧
    (r = toInt (s.proc p).sz ∧ Shrunk s t p n d ∨ r = -1 ∧ Untouched s t p d)

section Sbrk
variable {s : Machine ld} {p : Nat} {n : Int} {d : PgDir ld} {E : Halt → Prop}

/-- A request for less than the size, or for more. -/
theorem addInt_eq {sz : Nat} (user : sz ≤ kernBase) (negative : n < 0) (int : -2 ^ 31 ≤ n) :
    if 0 ≤ sz + n then (addInt sz n : Int) = sz + n else sz ≤ addInt sz n := by
  unfold addInt
  unfold kernBase at user
  split
  · omega
  · omega

/-- What the call does to a process that is not empty, when it asks for no more than it has. -/
theorem wp_sysSbrk_within (dir : (s.proc p).pgdir = some d) (user : (s.proc p).sz ≤ kernBase)
    (backed : Backed d) (negative : n < 0) (int : -2 ^ 31 ≤ n) (within : 0 ≤ (s.proc p).sz + n) :
    wp (sysSbrk p n) (fun r t => (∃ d', (t.proc p).pgdir = some d' ∧
        Unmapped d d' (pgRoundUp (addInt (s.proc p).sz n)) (s.proc p).sz) ∧
      Freed s.kmem t.kmem (frames d (pgRoundUp (addInt (s.proc p).sz n)) (s.proc p).sz) ∧
      (addInt (s.proc p).sz n = 0 ∧ r = -1 ∧ (t.proc p).sz = (s.proc p).sz ∨
        addInt (s.proc p).sz n ≠ 0 ∧ r = toInt (s.proc p).sz ∧
          (t.proc p).sz = addInt (s.proc p).sz n)) E s := by
  have size := addInt_eq user negative int
  rw [if_pos within] at size
  unfold sysSbrk growproc
  rw [wp_read]
  rw [if_neg (by omega), wp_bind, wp_read, dir]
  dsimp only
  rw [if_neg (by omega), if_pos negative, wp_bind]
  unfold inKmem
  rw [wp_zoom]
  apply wp_mono (wp_deallocuvm_frees d s.kmem user (by omega) fun bad => absurd backed bad)
  rintro ⟨d', sz⟩ k ⟨rfl, emptied, freed⟩
  have unmapped := emptied.unmapped
  unfold modifyProc
  rw [wp_bind, wp_modify]
  split
  · rename_i zero
    rw [wp_pure, if_pos (by decide), wp_pure]
    dsimp only
    rw [if_pos rfl]
    exact ⟨⟨d', rfl, unmapped⟩, freed, .inl ⟨zero, rfl, rfl⟩⟩
  · rename_i positive
    rw [wp_bind, wp_modify, wp_pure, if_neg (by decide), wp_pure]
    dsimp only
    rw [if_pos rfl, if_pos rfl]
    exact ⟨⟨d', rfl, unmapped⟩, freed, .inr ⟨positive, rfl, rfl⟩⟩

/-- A request for more than the process has wraps around and is taken for one to grow. -/
theorem wp_sysSbrk_beyond (dir : (s.proc p).pgdir = some d) (user : (s.proc p).sz ≤ kernBase)
    (negative : n < 0) (int : -2 ^ 31 ≤ n) (beyond : ¬ 0 ≤ (s.proc p).sz + n) :
    wp (sysSbrk p n) (fun r t => Untouched s t p d ∧
      r = if (s.proc p).sz = 0 then -1 else toInt (s.proc p).sz) E s := by
  have size := addInt_eq user negative int
  rw [if_neg beyond] at size
  unfold sysSbrk growproc
  rw [wp_read]
  rw [if_neg (by omega), wp_bind, wp_read, dir]
  dsimp only
  rw [if_neg (by omega), if_pos negative, wp_bind]
  unfold inKmem deallocuvm
  rw [wp_zoom, if_pos size, wp_pure]
  unfold modifyProc
  rw [wp_bind, wp_modify]
  split
  · rw [wp_pure, if_pos (by decide), wp_pure]
    refine ⟨⟨?_, ⟨d, ?_, fun _ _ _ => rfl⟩, rfl⟩, rfl⟩
    · dsimp only
      rw [if_pos rfl]
    · dsimp only
      rw [if_pos rfl]
  · rw [wp_bind, wp_modify, wp_pure, if_neg (by decide), wp_pure]
    refine ⟨⟨?_, ⟨d, ?_, fun _ _ _ => rfl⟩, rfl⟩, rfl⟩
    · dsimp only
      rw [if_pos rfl]
    · dsimp only
      rw [if_pos rfl, if_pos rfl]

theorem toInt_ne {sz : Nat} (user : sz ≤ kernBase) : toInt sz ≠ -1 := by
  unfold toInt
  unfold kernBase at user
  split <;> omega

/-- Shrinking is all or nothing unless the process asks for all it has, with pages present,
or for more than it has. -/
theorem sbrk_all_or_nothing_iff (dir : (s.proc p).pgdir = some d) (user : (s.proc p).sz ≤ kernBase)
    (backed : Backed d) (negative : n < 0) (int : -2 ^ 31 ≤ n) :
    AllOrNothing s p n d ↔ (s.proc p).sz = 0 ∨ 0 < (s.proc p).sz + n ∨
      (s.proc p).sz + n = 0 ∧ ∀ x, IsPage x → x < (s.proc p).sz → present (d.pteOf x) = false := by
  have size := addInt_eq user negative int
  by_cases within : 0 ≤ (s.proc p).sz + n
  · rw [if_pos within] at size
    obtain ⟨r, t, result, ⟨d', dir', unmapped⟩, freed, outcome⟩ := wp_returns
      (wp_sysSbrk_within dir user backed negative int within)
    rcases outcome with ⟨zero, rfl, same⟩ | ⟨positive, rfl, smaller⟩
    · have all : (s.proc p).sz + n = 0 := by omega
      rw [zero] at unmapped freed
      have pages : ∀ x, x ∈ presentPages d 0 (s.proc p).sz ↔
          x % pgSize = 0 ∧ 0 ≤ x ∧ x < (s.proc p).sz ∧ present (d.pteOf x) = true := fun x =>
        mem_presentPages d rfl
      constructor
      · rintro ⟨r, u, again, outcome⟩
        rw [result] at again
        cases again
        rcases outcome with ⟨equal, -⟩ | ⟨-, untouched⟩
        · exact absurd equal.symm (toInt_ne user)
        · refine .inr (.inr ⟨all, fun x page below => ?_⟩)
          have list := freed.list
          rw [untouched.list] at list
          have none : frames d 0 (s.proc p).sz = [] := by
            have empty := List.append_left_eq_self.mp list.symm
            exact List.reverse_eq_nil_iff.mp empty
          by_contra there
          have mem := (pages x).mpr ⟨page.2, Nat.zero_le x, below, by simpa using there⟩
          unfold frames at none
          rw [List.map_eq_nil_iff] at none
          rw [none] at mem
          cases mem
      · intro condition
        have absent : ∀ x, IsPage x → x < (s.proc p).sz → present (d.pteOf x) = false := by
          rcases condition with empty | more | ⟨-, absent⟩
          · intro x _ below
            omega
          · omega
          · exact absent
        have none : frames d 0 (s.proc p).sz = [] := by
          unfold frames
          rw [List.map_eq_nil_iff, List.eq_nil_iff_forall_not_mem]
          intro x mem
          obtain ⟨page, -, below, there⟩ := (pages x).mp mem
          rw [absent x ⟨by unfold kernBase at user; omega, page⟩ below] at there
          cases there
        have list := freed.list
        rw [show pgRoundUp 0 = 0 from rfl, none, List.reverse_nil, List.nil_append] at list
        refine ⟨-1, t, result, .inr ⟨rfl, same, ⟨d', dir', fun x page there => ?_⟩, ?_⟩⟩
        · refine unmapped.outside x page fun range => ?_
          rw [unmapped.inside x page range.1 range.2, absent x page range.2] at there
          exact Bool.false_ne_true (there.elim id id)
        · exact List.map_injective_iff.mpr (fun _ _ same => Frame.ext same) list
    · constructor
      · intro _
        omega
      · intro _
        rw [← smaller] at unmapped freed
        exact ⟨_, t, result, .inl ⟨rfl, by rw [smaller, size], ⟨d', dir', unmapped⟩, freed⟩⟩
  · obtain ⟨r, t, result, untouched, rfl⟩ := wp_returns
      (wp_sysSbrk_beyond dir user negative int within)
    constructor
    · rintro ⟨r, u, again, outcome⟩
      rw [result] at again
      cases again
      by_cases empty : (s.proc p).sz = 0
      · exact .inl empty
      · rw [if_neg empty] at outcome
        rcases outcome with ⟨-, shrunk⟩ | ⟨failed, -⟩
        · have := shrunk.size
          omega
        · exact absurd failed (toInt_ne user)
    · intro condition
      have empty : (s.proc p).sz = 0 := by omega
      rw [if_pos empty] at result
      exact ⟨-1, t, result, .inr ⟨rfl, untouched⟩⟩

end Sbrk

/-- A process alone, with `sz` bytes. -/
def sparseMachine (d : PgDir ld) (rest : List (Frame ld)) (sz : Nat) : Machine ld where
  kmem := ⟨rest, fun _ _ => 0⟩
  proc := fun q => if q = 0 then { sz, pgdir := some d, state := .running, pid := 1 } else {}
  file := fun _ => {}
  pipes := []
  initproc := some 0
  nextpid := 2
  kpgdir := none
  boot := []

/-- A process that gives back all it has loses its pages, keeps its size and is told of an
error. -/
theorem sbrk_frees_and_fails : ∃ (s t : Machine smallLink) (d d' : PgDir smallLink),
    (s.proc 0).sz = 8192 ∧ (s.proc 0).pgdir = some d ∧ Backed d ∧ present (d.pteOf 0) = true ∧
    sysSbrk 0 (-8192) s = .ok (-1, t) ∧ (t.proc 0).sz = 8192 ∧ (t.proc 0).pgdir = some d' ∧
    present (d'.pteOf 0) = false ∧ t.kmem.freelist ≠ s.kmem.freelist := by
  obtain ⟨page, table, lower, upper, rest, -⟩ := Boot.smallPages_cons
  obtain ⟨s, size, dir⟩ : ∃ s : Machine smallLink, (s.proc 0).sz = 8192 ∧
      (s.proc 0).pgdir = some (pairDir page table lower upper (pteW ||| pteU)) :=
    ⟨sparseMachine _ rest 8192, rfl, rfl⟩
  have backed := backed_pairDir page table lower upper (by decide : pteW ||| pteU < pgSize)
  have there : present ((pairDir page table lower upper (pteW ||| pteU)).pteOf 0) = true := by
    rw [pteOf_pairDir, if_pos (by decide), present_pte]
  have spec := wp_sysSbrk_within (n := -8192) (E := fun _ => False) dir (by rw [size]; decide) backed
    (by decide) (by decide) (by rw [size]; decide)
  rw [size, show addInt 8192 (-8192) = 0 from rfl, show pgRoundUp 0 = 0 from rfl] at spec
  obtain ⟨r, t, result, ⟨d', dir', unmapped⟩, freed, outcome⟩ := wp_returns spec
  rcases outcome with ⟨-, rfl, same⟩ | ⟨positive, -⟩
  · refine ⟨s, t, _, d', size, dir, backed, there, result, same, dir', ?_, fun equal => ?_⟩
    · exact unmapped.inside 0 ⟨by decide, by decide⟩ (Nat.le_refl _) (by decide)
    · have list := freed.list
      rw [equal] at list
      have empty := List.reverse_eq_nil_iff.mp (List.append_left_eq_self.mp list.symm)
      unfold frames at empty
      rw [List.map_eq_nil_iff] at empty
      have mem : 0 ∈ presentPages (pairDir page table lower upper (pteW ||| pteU)) 0 8192 :=
        (mem_presentPages _ (Nat.zero_mod _)).mpr ⟨Nat.zero_mod _, Nat.le_refl _, by decide, there⟩
      rw [empty] at mem
      cases mem
  · exact absurd rfl positive

theorem sbrk_all_or_nothing_iff_sparse : ∃ (s : Machine smallLink) (d : PgDir smallLink),
    (s.proc 0).sz = 10240 ∧ AllOrNothing s 0 (-3000) d ∧ ¬ AllOrNothing s 0 (-20000) d := by
  obtain ⟨page, table, lower, upper, rest, -⟩ := Boot.smallPages_cons
  obtain ⟨s, size, dir⟩ : ∃ s : Machine smallLink, (s.proc 0).sz = 10240 ∧
      (s.proc 0).pgdir = some (pairDir page table lower upper (pteW ||| pteU)) :=
    ⟨sparseMachine _ rest 10240, rfl, rfl⟩
  have backed := backed_pairDir page table lower upper (by decide : pteW ||| pteU < pgSize)
  have user : (s.proc 0).sz ≤ kernBase := by
    rw [size]
    decide
  refine ⟨s, _, size, (sbrk_all_or_nothing_iff dir user backed (by decide) (by decide)).mpr ?_, fun whole => ?_⟩
  · rw [size]
    exact .inr (.inl (by decide))
  · have condition := (sbrk_all_or_nothing_iff dir user backed (by decide) (by decide)).mp whole
    rw [size] at condition
    omega

end ColorXv6.Vm.Shrink
