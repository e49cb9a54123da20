import ColorXv6.Vm.Boot
import ColorXv6.Vm.Space

/-!
What `copyuvm` gives a child of `fork`. Pages of the parent that were never touched
are missing in the child too, whether a single entry or a whole page table is
absent; a page that is there is copied into a frame from the free list with its
flags, so a guard page stays one. A copy that runs out of memory is undone.
-/
namespace ColorXv6.Vm.ForkCopy
open Lib.LittleEndian Lib.Wp Mmu Kalloc PageDir Footprint Mapping Space Boot

variable {ld : Link}

theorem pteFlags_lt (pte : Nat) : pteFlags pte < pgSize := Nat.mod_lt _ (by decide)

/-- Copied flags already contain PTE_P. -/
theorem pteFlags_or_present {pte : Nat} (there : present pte = true) :
    pteFlags pte ||| pteP = pteFlags pte := by
  apply Nat.eq_of_testBit_eq
  intro bit
  rw [Nat.testBit_or]
  cases bit with
  | zero =>
    have low : (pteFlags pte).testBit 0 = true := by
      rw [pteFlags, show pgSize = 2 ^ 12 from rfl, Nat.testBit_mod_two_pow, ← present, there]
      rfl
    rw [low, Bool.true_or]
  | succ bit =>
    have high : pteP.testBit (bit + 1) = false := by simp [pteP, Nat.testBit_succ]
    rw [high, Bool.or_false]

theorem pteFlags_pte {pa perm : Nat} (aligned : pa % pgSize = 0) (small : perm < pgSize) :
    pteFlags (pa ||| perm ||| pteP) = perm ||| pteP := by
  have bound : perm ||| pteP < 2 ^ 12 := Nat.or_lt_two_pow small (by decide)
  rw [pte_eq_add aligned small]
  unfold pteFlags
  unfold pgSize at *
  omega

/-- Page `x` is missing in both directories, or in the copy it is in a frame `f` off the list
that holds what the parent's page held in `k`. -/
def CopyOf (parent d : PgDir ld) (k k' : Kmem ld) (x : Nat) : Prop :=
  if present (parent.pteOf x) = true then
    ∃ f : Frame ld, d.pteOf x = f.pa ||| pteFlags (parent.pteOf x) ||| pteP ∧
      freeCount f.pa k' = 0 ∧ k'.mem f.pa = k.mem (pteAddr (parent.pteOf x))
  else present (d.pteOf x) = false

/-- A copy stays one while frames are taken from the list. -/
theorem CopyOf.later {parent d d' : PgDir ld} {k k1 k2 : Kmem ld} {x : Nat}
    (copy : CopyOf parent d k k1 x) (took : Took k1 k2) (same : d'.pteOf x = d.pteOf x) :
    CopyOf parent d' k k2 x := by
  unfold CopyOf at *
  rw [same]
  split
  · rename_i there
    rw [if_pos there] at copy
    obtain ⟨f, entry, off, content⟩ := copy
    have fewer := took.count f.pa
    exact ⟨f, entry, by omega, by rw [took.outside _ off, content]⟩
  · rename_i missing
    rwa [if_neg missing] at copy

/-- The pages below `i` are copied from `k` to `d'`, which was `d` before. -/
structure CopiedTo (parent d : PgDir ld) (k : Kmem ld) (sz i : Nat) (d' : PgDir ld) (k' : Kmem ld) :
    Prop where
  tabled : Tabled d'
  backed : Backed d'
  took : Took k k'
  outside : ∀ x, IsPage x → ¬(x < i ∧ x < sz) → d'.pteOf x = d.pteOf x
  inside : ∀ x, IsPage x → x < i → x < sz → CopyOf parent d' k k' x

/-- A copy that has failed can be freed. -/
structure GivenUp (k : Kmem ld) (d' : PgDir ld) (k' : Kmem ld) : Prop where
  tabled : Tabled d'
  backed : Backed d'
  unlisted : ∀ a, freeCount a k = 0 → k'.mem a = k.mem a

section Turn
variable {parent d d1 : PgDir ld} {k k1 : Kmem ld} {i sz : Nat}

section Copied
variable (state : CopiedTo parent d k sz i d1 k1)
include state

/-- The next page is copied: it has a frame of the list, which nothing else changes. -/
theorem CopiedTo.next {d2 : PgDir ld} {k2 : Kmem ld} {mem : Frame ld}
    (page : IsPage i) (inside : i < sz) (tabled : Tabled d2)
    (there : present (parent.pteOf i) = true) (took : Took k1 k2) (gone : freeCount mem.pa k2 = 0)
    (content : k2.mem mem.pa = k.mem (pteAddr (parent.pteOf i)))
    (entries : ∀ x, IsPage x → d2.pteOf x =
      if x = i then mem.pa ||| pteFlags (parent.pteOf i) ||| pteP else d1.pteOf x) :
    CopiedTo parent d k sz (i + pgSize) d2 k2 where
  tabled := tabled
  backed := state.backed.enter (c := True) (pteFlags_lt _) (by simpa using entries)
  took := state.took.trans took
  outside x isPage out := by
    rw [entries x isPage, if_neg (by unfold pgSize at out; omega), state.outside x isPage (by omega)]
  inside x isPage below under := by
    by_cases here : x = i
    · subst here
      rw [CopyOf, if_pos there]
      exact ⟨mem, by rw [entries x isPage, if_pos rfl], gone, content⟩
    · have earlier : x < i := by
        have := isPage.2
        have := page.2
        unfold pgSize at *
        omega
      exact (state.inside x isPage earlier under).later took (by rw [entries x isPage, if_neg here])

/-- A page that is not there is skipped. -/
theorem CopiedTo.skip (page : IsPage i) (absent : ¬present (parent.pteOf i) = true)
    (empty : present (d.pteOf i) = false) :
    CopiedTo parent d k sz (i + pgSize) d1 k1 where
  __ := state
  outside x isPage out := state.outside x isPage (by omega)
  inside x isPage below under := by
    by_cases here : x = i
    · subst here
      rw [CopyOf, if_neg absent, state.outside x isPage (by omega)]
      exact empty
    · have := isPage.2
      have := page.2
      exact state.inside x isPage (by unfold pgSize at *; omega) under

theorem wp_copyTurn (page : IsPage i) (inside : i < sz) (once : ∀ a, freeCount a k ≤ 1)
    (empty : present (d.pteOf i) = false)
    (held : present (parent.pteOf i) = true → freeCount (pteAddr (parent.pteOf i)) k = 0) :
    wp (copyTurn parent d1 i) (fun r k2 =>
      if r.2 then CopiedTo parent d k sz (i + pgSize) r.1 k2 else GivenUp k r.1 k2) noStop k1 := by
  unfold copyTurn
  split
  · rename_i there
    rw [wp_bind]
    apply wp_kalloc
    · exact fun _ => wp_ret ⟨state.tabled, state.backed, state.took.outside⟩
    · intro mem rest list
      have taken := Took.fill list (k1.mem (pteAddr (parent.pteOf i)))
      have unlisted := freeCount_taken (fun a => Nat.le_trans (state.took.count a) (once a)) list
        fun p => if p = mem.pa then k1.mem (pteAddr (parent.pteOf i)) else k1.mem p
      rw [wp_bind, copyPage, wp_modify]
      apply wp_seq (wp_mappages_page d1 mem.pa (pteFlags (parent.pteOf i)) _ page fun mapped =>
        absurd mapped (by rw [state.outside i page (by omega), empty]; simp))
      rintro ⟨d2, mapped⟩ k2 ⟨took, -, tabled, -, -, entries⟩
      cases mapped with
      | true =>
        refine wp_ret (state.next page inside (tabled state.tabled) there (taken.trans took)
          (Nat.le_zero.mp (unlisted ▸ took.count mem.pa)) ?_ (by simpa using entries))
        rw [took.outside mem.pa unlisted, ← state.took.outside _ (held there)]
        exact if_pos rfl
      | false =>
        simp only [Bool.false_eq_true, if_false]
        rw [wp_bind]
        apply wp_kfree
        · intro bad
          simp [frameOf_p2v] at bad
        · intro f passed
          have same := frameOf_some mem.pa_lt passed
          refine wp_ret ⟨tabled state.tabled, state.backed.enter (pteFlags_lt _) entries, ?_⟩
          intro a listed
          have fewer := state.took.count a
          have other : a ≠ f.pa := by
            rintro rfl
            simp [freeCount, list, same] at fewer listed
            omega
          rw [← (state.took.trans (taken.trans took)).outside a listed]
          exact if_neg other
  · rename_i absent
    exact wp_ret (state.skip page absent empty)

end Copied

end Turn

/-- The child's directory against the parent's. `others` counts the occurrences of a page in
everything that is neither on the list nor in the child. -/
structure Copied (parent child : PgDir ld) (sz : Nat) (k k' : Kmem ld) (others : Nat → Nat) :
    Prop where
  present : ∀ x, IsPage x → x < sz → present (child.pteOf x) = present (parent.pteOf x)
  flags : ∀ x, IsPage x → x < sz → Mmu.present (parent.pteOf x) = true →
    pteFlags (child.pteOf x) = pteFlags (parent.pteOf x)
  contents : ∀ x, IsPage x → x < sz → Mmu.present (parent.pteOf x) = true →
    k'.mem (pteAddr (child.pteOf x)) = k.mem (pteAddr (parent.pteOf x))
  sole : ∀ x, IsPage x → x < sz → Mmu.present (child.pteOf x) = true →
    others (pteAddr (child.pteOf x)) = 0 ∧ freeCount (pteAddr (child.pteOf x)) k' = 0 ∧
      pagesOf (pteAddr (child.pteOf x)) child = 1
  above : ∀ x, IsPage x → sz ≤ x → x < kernBase → Mmu.present (child.pteOf x) = false
  kernel : ∀ x, IsPage x → kernBase ≤ x → child.pteOf x = kernelPte ld x

/-- `copyuvm` returns. It writes only to pages of the list; the child has the kernel's
mappings and copies of the pages below the size. -/
theorem wp_copyuvm (parent : PgDir ld) {sz : Nat} (k : Kmem ld) (user : sz ≤ kernBase)
    (once : ∀ a, freeCount a k ≤ 1)
    (held : ∀ x, IsPage x → x < sz → present (parent.pteOf x) = true →
      freeCount (pteAddr (parent.pteOf x)) k = 0) :
    wp (copyuvm parent sz) (fun r k' => (∀ a, freeCount a k = 0 → k'.mem a = k.mem a) ∧
      ∀ child, r = some child →
        (∀ x, IsPage x → x < sz → CopyOf parent child k k' x) ∧
        (∀ x, IsPage x → sz ≤ x → x < kernBase → present (child.pteOf x) = false) ∧
        ∀ x, IsPage x → kernBase ≤ x → child.pteOf x = kernelPte ld x) noStop k := by
  apply wp_seq (wp_setupkvm k)
  rintro dir k1 ⟨unlisted, counts, built⟩
  cases dir with
  | none => exact wp_ret ⟨unlisted, by simp⟩
  | some d =>
    obtain ⟨took, only⟩ := built d rfl
    have absent : ∀ x, IsPage x → x < kernBase → present (d.pteOf x) = false := by
      intro x page low
      rw [only.user x page low]
      rfl
    have first : CopiedTo parent d k sz 0 d k1 :=
      ⟨only.tabled, only.backed, took, fun _ _ _ => rfl, fun _ _ below => absurd below (Nat.not_lt_zero _)⟩
    apply wp_seq (wp_also
      (wp_copyFrom (Q := fun r k2 => if r.2 then ∃ j, sz ≤ j ∧ CopiedTo parent d k sz j r.1 k2
          else GivenUp k r.1 k2) user (fun i d1 k2 inside aligned state => by
          have low := Nat.lt_of_lt_of_le inside user
          have page : IsPage i := ⟨Nat.lt_trans low (by decide), aligned⟩
          exact wp_copyTurn state page inside once (absent i page low) (held i page inside))
        (fun j _ _ all state => ⟨j, all, state⟩) _ (.inl (loop_room user)) (Nat.zero_mod _) first)
      (wp_forall fun a => copyFrom_count a d k1 parent _ user (Nat.zero_mod _)))
    rintro ⟨child, done⟩ k2 ⟨copied, kept⟩
    cases done with
    | true =>
      obtain ⟨j, all, copied⟩ := copied
      refine wp_ret ⟨copied.took.outside, ?_⟩
      rintro child' ⟨⟩
      refine ⟨?_, ?_, ?_⟩
      · exact fun x page below => copied.inside x page (Nat.lt_of_lt_of_le below all) below
      · intro x page above low
        rw [copied.outside x page (by omega)]
        exact absent x page low
      · intro x page high
        rw [copied.outside x page (by omega)]
        exact only.kernel x page high
    | false =>
      apply wp_seq (wp_freevm child true k2 copied.tabled fun _ => copied.backed)
      intro _ k3 same
      refine wp_ret ⟨?_, by simp⟩
      intro a listed
      have moved := kept a
      have before := counts a
      unfold Kept at moved
      dsimp only [optPages] at before moved
      rw [same a (by omega), copied.unlisted a listed]

theorem freeCount_frame (f : Frame ld) (k : Kmem ld) : freeCount f.pa k = k.freelist.count f :=
  List.count_map_of_injective _ Frame.pa (fun _ _ same => Frame.ext same) f

/-- Copying an address space. Whatever else is in use, the parent's directory included, is in
`others`; no page is in use twice. Then `copyuvm` returns and changes no page in use, a
directory it returns is a copy of the parent's in pages that nobody else has, and without
one the free pages are those there were. -/
theorem copyuvm_copies {parent : PgDir ld} {sz : Nat} {k : Kmem ld} {others : Nat → Nat}
    (user : sz ≤ kernBase) (owned : ∀ a, freeCount a k + others a ≤ 1)
    (parents : ∀ a, pagesOf a parent ≤ others a) :
    ∃ r k', copyuvm parent sz k = .ok (r, k') ∧ (∀ a, 0 < others a → k'.mem a = k.mem a) ∧
      (∀ child, r = some child → Copied parent child sz k k' others) ∧
      (r = none → k'.freelist.Perm k.freelist) := by
  have once : ∀ a, freeCount a k ≤ 1 := fun a => Nat.le_trans (Nat.le_add_right _ _) (owned a)
  have exclusive : ∀ a, freeCount a k + pagesOf a parent ≤ 1 := by
    intro a
    have bound := owned a
    have part := parents a
    omega
  obtain ⟨r, k', result, ⟨unlisted, copied⟩, counts⟩ := wp_returns (wp_also
    (wp_copyuvm parent k user once fun x page below there =>
      user_unlisted exclusive (Nat.lt_of_lt_of_le below user) there)
    (wp_forall fun a => copyuvm_count a k parent user))
  refine ⟨r, k', result, ?_, ?_, ?_⟩
  · intro a used
    have bound := owned a
    exact unlisted a (by omega)
  · rintro child rfl
    obtain ⟨pages, above, kernel⟩ := copied child rfl
    have page : ∀ x, IsPage x → x < sz → present (parent.pteOf x) = true → ∃ f : Frame ld,
        child.pteOf x = f.pa ||| pteFlags (parent.pteOf x) ||| pteP ∧
          pteAddr (child.pteOf x) = f.pa ∧ k'.mem f.pa = k.mem (pteAddr (parent.pteOf x)) := by
      intro x isPage below there
      have here := pages x isPage below
      rw [CopyOf, if_pos there] at here
      obtain ⟨f, entry, -, same⟩ := here
      exact ⟨f, entry, by rw [entry, pteAddr_pte f.aligned f.pa_lt (pteFlags_lt _)], same⟩
    refine ⟨?_, ?_, ?_, ?_, above, kernel⟩
    · intro x isPage below
      cases there : present (parent.pteOf x) with
      | true =>
        obtain ⟨f, entry, -⟩ := page x isPage below there
        rw [entry, present_pte]
      | false =>
        have here := pages x isPage below
        rwa [CopyOf, if_neg (by simp [there])] at here
    · intro x isPage below there
      obtain ⟨f, entry, -⟩ := page x isPage below there
      rw [entry, pteFlags_pte f.aligned (pteFlags_lt _), pteFlags_or_present there]
    · intro x isPage below there
      obtain ⟨f, -, frame, same⟩ := page x isPage below there
      rw [frame, same]
    · intro x isPage below there
      have holds := hit_le_pagesOf child (pteAddr (child.pteOf x)) (Nat.lt_of_lt_of_le below user)
      have moved := counts (pteAddr (child.pteOf x))
      have bound := owned (pteAddr (child.pteOf x))
      simp only [hit, there, and_self, if_true] at holds
      dsimp only [optPages] at moved
      omega
  · rintro rfl
    rw [List.perm_iff_count]
    intro f
    have same := counts f.pa
    rw [← freeCount_frame, ← freeCount_frame]
    simpa [optPages] using same

/-- A process of which only the first two pages were ever touched; the lower one has the
permissions `perm`. -/
def pairDir (page table lower upper : Frame ld) (perm : Nat) : PgDir ld :=
  ((PgDir.addTable { page, pde := fun _ => 0, pgtab := fun _ _ => 0 } 0 table.pa).setPte 0 0
    (lower.pa ||| perm ||| pteP)).setPte 0 1 (upper.pa ||| (pteW ||| pteU) ||| pteP)

section Pair
variable (page table lower upper : Frame ld) {perm : Nat}

theorem pteOf_pairDir (x : Nat) : (pairDir page table lower upper perm).pteOf x =
    if pdx x = 0 ∧ ptx x = 0 then lower.pa ||| perm ||| pteP
    else if pdx x = 0 ∧ ptx x = 1 then upper.pa ||| (pteW ||| pteU) ||| pteP else 0 := by
  unfold PgDir.pteOf pairDir PgDir.setPte PgDir.addTable
  by_cases dir : pdx x = 0
  · by_cases first : ptx x = 0
    · simp [dir, first]
    · by_cases second : ptx x = 1
      · simp [dir, second]
      · simp [dir, first, second]
  · simp [dir]

theorem table_pairDir (i : Nat) :
    present ((pairDir page table lower upper perm).pde i) = decide (i = 0) := by
  unfold pairDir PgDir.setPte PgDir.addTable
  by_cases here : i = 0
  · simp [here]
  · simp [here]

theorem backed_pairDir (small : perm < pgSize) : Backed (pairDir page table lower upper perm) := by
  intro x _ _ there
  rw [pteOf_pairDir] at there ⊢
  split
  · exact ⟨lower, pteAddr_pte lower.aligned lower.pa_lt small⟩
  · split
    · exact ⟨upper, pteAddr_pte upper.aligned upper.pa_lt (by decide)⟩
    · rename_i first second
      rw [if_neg first, if_neg second] at there
      exact absurd there (by decide)

theorem pagesOf_pairDir (a : Nat) (small : perm < pgSize) :
    pagesOf a (pairDir page table lower upper perm) =
      frameHit a page + frameHit a table + frameHit a lower + frameHit a upper := by
  unfold pairDir
  obtain ⟨d, start⟩ : ∃ d, PgDir.addTable { page, pde := fun _ => 0, pgtab := fun _ _ => 0 : PgDir ld }
    0 table.pa = d := ⟨_, rfl⟩
  have added := pagesOf_addTable a { page, pde := fun _ => 0, pgtab := fun _ _ => 0 : PgDir ld }
    (i := 0) (by decide) present_zero table
  have there : present (d.pde 0) = true := by simp [← start, PgDir.addTable]
  have empty : ∀ j, d.pgtab 0 j = 0 := fun j => by simp [← start, PgDir.addTable]
  rw [start, pagesOf_empty] at added
  have first := pagesOf_setPte a d (i := 0) (j := 0) (by decide) (by decide) there
    (lower.pa ||| perm ||| pteP)
  have second := pagesOf_setPte a (d.setPte 0 0 (lower.pa ||| perm ||| pteP)) (i := 0) (j := 1)
    (by decide) (by decide) there (upper.pa ||| (pteW ||| pteU) ||| pteP)
  have before : (d.setPte 0 0 (lower.pa ||| perm ||| pteP)).pgtab 0 1 = 0 := by
    simp [PgDir.setPte, empty]
  rw [hit_frame a lower small, empty, hit_zero] at first
  rw [hit_frame a upper (by decide), before, hit_zero] at second
  rw [start]
  omega

variable {page table lower upper}

/-- No page of the process is free or in two places. -/
theorem once_pairDir {rest : List (Frame ld)} {m : Nat → Bytes} (small : perm < pgSize)
    (distinct : (page :: table :: lower :: upper :: rest).Nodup) (a : Nat) :
    freeCount a ⟨rest, m⟩ + pagesOf a (pairDir page table lower upper perm) ≤ 1 := by
  have apart := distinct.map fun _ _ same => Frame.ext same
  have bound := List.nodup_iff_count_le_one.mp apart a
  simp only [List.map_cons, List.count_cons, beq_iff_eq] at bound
  rw [pagesOf_pairDir _ _ _ _ _ small]
  unfold freeCount frameHit
  dsimp only
  omega

end Pair

theorem copyuvm_copies_sparse :
    ∃ (page table lower upper : Frame smallLink) (rest : List (Frame smallLink))
      (k' : Kmem smallLink) (r : Option (PgDir smallLink)),
      smallPages = page :: table :: lower :: upper :: rest ∧
      copyuvm (pairDir page table lower upper pteW) 14336 ⟨rest, fun _ _ => 0⟩ = .ok (r, k') ∧
      (∀ child, r = some child → Copied (pairDir page table lower upper pteW) child 14336
        ⟨rest, fun _ _ => 0⟩ k' fun a => pagesOf a (pairDir page table lower upper pteW)) ∧
      (r = none → k'.freelist.Perm rest) := by
  obtain ⟨page, table, lower, upper, rest, list⟩ := Boot.smallPages_cons
  obtain ⟨r, k', result, -, copied, failed⟩ := copyuvm_copies (by decide : 14336 ≤ kernBase)
    (once_pairDir (by decide : pteW < pgSize) (list ▸ smallPages_nodup)) fun a => Nat.le_refl _
  exact ⟨page, table, lower, upper, rest, k', r, list, result, copied, failed⟩

end ColorXv6.Vm.ForkCopy
