import ColorXv6.Vm.PageDir

/-!
Page directories as maps from pages to entries. `mappages` on a range without
present pages does not stop; it enters a prefix of the range, all of it when the
list has the page tables that are missing, and changes no other page. From this
follows that the kernel mappings can be set up, so that processes can exist.
-/
namespace ColorXv6.Vm.Mapping
open Lib.Wp Mmu Kalloc PageDir

variable {ld : Link}

/-- The specification of an operation that always returns. -/
def noStop (_ : Stop) : Prop := False

/-- The start of a page. -/
def IsPage (x : Nat) : Prop := x < 2 ^ 32 ∧ x % pgSize = 0

theorem page_index {x y : Nat} (first : IsPage x) (second : IsPage y) :
    (pdx x = pdx y ∧ ptx x = ptx y) ↔ x = y := by
  constructor
  · rintro ⟨dir, table⟩
    rw [page_eq first.1 first.2, page_eq second.1 second.2, dir, table]
  · rintro rfl
    exact ⟨rfl, rfl⟩

theorem pteOf_addTable (d : PgDir ld) {i : Nat} (page x : Nat) (absent : present (d.pde i) = false) :
    (d.addTable i page).pteOf x = d.pteOf x := by
  unfold PgDir.pteOf PgDir.addTable
  by_cases same : pdx x = i
  · simp [same, absent]
  · simp [same]

theorem pteOf_setPte (d : PgDir ld) {a x : Nat} (value : Nat) (here : IsPage a) (page : IsPage x)
    (table : present (d.pde (pdx a)) = true) :
    (d.setPte (pdx a) (ptx a) value).pteOf x = if x = a then value else d.pteOf x := by
  unfold PgDir.pteOf PgDir.setPte
  by_cases same : x = a
  · simp [same, table]
  · have different : ¬(pdx x = pdx a ∧ ptx x = ptx a) := fun both => same ((page_index page here).mp both)
    simp [same, different]

/-- The page tables that `mappages` may have to allocate between two pages. -/
def tablesNeeded (d : PgDir ld) (a last : Nat) : Nat :=
  (if present (d.pde (pdx a)) then 0 else 1) + (pdx last - pdx a)

/-- Walking with allocation gives the entry, or fails on an empty list. No translation
changes. -/
theorem walkpgdir_alloc (d : PgDir ld) (va : Nat) (k : Kmem ld) :
    wp (walkpgdir d va true) (fun r k' =>
      (∀ x, r.1.pteOf x = d.pteOf x) ∧ (∀ i, present (d.pde i) = true → present (r.1.pde i) = true) ∧
      (r.2 = none ∧ k.freelist = [] ∧ present (d.pde (pdx va)) = false ∨
       r.2 = some (pdx va, ptx va) ∧ present (r.1.pde (pdx va)) = true ∧
        k.freelist.length = k'.freelist.length + if present (d.pde (pdx va)) then 0 else 1))
      noStop k := by
  unfold walkpgdir
  split
  · rename_i table
    exact wp_ret ⟨fun _ => rfl, fun _ => id, Or.inr ⟨rfl, table, by simp⟩⟩
  · rename_i absent
    have missing : present (d.pde (pdx va)) = false := by simpa using absent
    rw [if_neg (by simp), wp_bind]
    apply wp_kalloc
    · intro empty
      exact wp_ret ⟨fun _ => rfl, fun _ => id, Or.inl ⟨rfl, empty, missing⟩⟩
    · intro f rest list
      simp only [memset, wp_bind, wp_modify, wp_pure]
      refine ⟨fun x => pteOf_addTable d f.pa x missing, ?_, Or.inr ⟨True.intro, ?_, ?_⟩⟩
      · intro i table
        unfold PgDir.addTable
        dsimp only
        split
        · exact present_pte _ _
        · exact table
      · simp [PgDir.addTable]
      · simp [list]

/-- One page further, at most the tables after the current one are missing. -/
theorem tablesNeeded_next (d' : PgDir ld) {a last : Nat} (table : present (d'.pde (pdx a)) = true)
    (ordered : a + pgSize ≤ last) (final : IsPage last) :
    tablesNeeded d' (a + pgSize) last ≤ pdx last - pdx a := by
  have small := final.1
  unfold tablesNeeded
  by_cases same : pdx (a + pgSize) = pdx a
  · rw [same, table]
    simp
  · have step : pdx (a + pgSize) = pdx a + 1 ∧ pdx a + 1 ≤ pdx last := by
      unfold pdx at *
      unfold pgSize at *
      omega
    split <;> omega

/-- What a call that entered `n` pages from `a` on has done to the translations. -/
def Entered (d d' : PgDir ld) (a pa perm n : Nat) : Prop :=
  ∀ x, IsPage x → d'.pteOf x =
    if a ≤ x ∧ x < a + n * pgSize then word (pa + (x - a)) ||| perm ||| pteP else d.pteOf x

theorem Entered.none {d d' : PgDir ld} {a pa perm : Nat} (same : ∀ x, d'.pteOf x = d.pteOf x) :
    Entered d d' a pa perm 0 := by
  intro x _
  rw [if_neg (by omega), same x]

/-- A page entered before `n` further ones. -/
theorem Entered.cons {d d1 d' : PgDir ld} {a pa perm n : Nat} (first : IsPage a)
    (frame : pa < 2 ^ 32)
    (written : ∀ x, IsPage x → d1.pteOf x = if x = a then pa ||| perm ||| pteP else d.pteOf x)
    (entered : Entered d1 d' (a + pgSize) (word (pa + pgSize)) perm n) :
    Entered d d' a pa perm (n + 1) := by
  intro x page
  have alignedA := first.2
  have alignedX := page.2
  rw [entered x page, written x page]
  by_cases here : x = a
  · rw [if_neg (by unfold pgSize; omega), if_pos here, if_pos (by unfold pgSize; omega), here,
      Nat.sub_self, Nat.add_zero, word, Nat.mod_eq_of_lt frame]
  · rw [if_neg here]
    by_cases later : a + pgSize ≤ x ∧ x < a + pgSize + n * pgSize
    · have shift : word (word (pa + pgSize) + (x - (a + pgSize))) = word (pa + (x - a)) := by
        unfold word
        omega
      rw [if_pos later, if_pos (by unfold pgSize at *; omega), shift]
    · rw [if_neg later, if_neg (by unfold pgSize at *; omega)]

/-- The loop of `mappages` on a range without present pages. -/
theorem mapFrom_enters (d : PgDir ld) {a last pa : Nat} (perm fuel : Nat) (k : Kmem ld)
    (first : IsPage a) (final : IsPage last) (ordered : a ≤ last) (frame : pa < 2 ^ 32)
    (room : (last - a) / pgSize < fuel)
    (absent : ∀ x, IsPage x → a ≤ x → x ≤ last → present (d.pteOf x) = false) :
    wp (mapFrom d a last pa perm fuel) (fun r k' => ∃ n,
      Entered d r.1 a pa perm n ∧
      (∀ i, present (d.pde i) = true → present (r.1.pde i) = true) ∧
      (r.2 = true → n = (last - a) / pgSize + 1) ∧ (r.2 = false → n ≤ (last - a) / pgSize) ∧
      (tablesNeeded d a last ≤ k.freelist.length → r.2 = true ∧
        k.freelist.length ≤ k'.freelist.length + tablesNeeded d a last)) noStop k := by
  induction fuel generalizing d a pa k with
  | zero => exact absurd room (Nat.not_lt_zero _)
  | succ fuel ih =>
    rw [mapFrom]
    apply wp_seq (walkpgdir_alloc d a k)
    rintro ⟨d1, pte⟩ k1 ⟨same, tables, outcome⟩
    rcases outcome with ⟨rfl, empty, missing⟩ | ⟨rfl, table, used⟩
    · refine wp_ret ⟨0, .none same, tables, by simp, by simp, fun enough => ?_⟩
      simp [tablesNeeded, missing, empty] at enough
    · have entry : d1.pgtab (pdx a) (ptx a) = d1.pteOf a := by
        simp [PgDir.pteOf, table]
      have free : present (d1.pgtab (pdx a) (ptx a)) = false := by
        rw [entry, same]
        exact absent a first (Nat.le_refl a) ordered
      have written : ∀ x, IsPage x → (d1.setPte (pdx a) (ptx a) (pa ||| perm ||| pteP)).pteOf x =
          if x = a then pa ||| perm ||| pteP else d.pteOf x := by
        intro x page
        rw [pteOf_setPte d1 _ first page table, same]
      dsimp only
      rw [if_neg (by simp [free])]
      split
      · rename_i done
        subst done
        refine wp_ret ⟨1, .cons first frame written (.none fun _ => rfl), tables, by simp, by simp,
          fun enough => ?_⟩
        unfold tablesNeeded at enough ⊢
        exact ⟨rfl, by omega⟩
      · rename_i more
        have alignedA := first.2
        have alignedL := final.2
        have small := final.1
        have next : word (a + pgSize) = a + pgSize := by
          unfold word
          unfold pgSize at *
          omega
        have nextPage : IsPage (a + pgSize) := by
          unfold IsPage
          unfold pgSize at *
          omega
        have stride : (last - a) / pgSize = (last - (a + pgSize)) / pgSize + 1 := by
          unfold pgSize at *
          omega
        rw [next]
        apply wp_mono (ih (d1.setPte (pdx a) (ptx a) (pa ||| perm ||| pteP)) k1 nextPage
          (by unfold pgSize at *; omega) (word_lt _) (by omega) ?_)
        · rintro r k2 ⟨n, entered, tables2, full, short, enough2⟩
          refine ⟨n + 1, .cons first frame written entered,
            fun i present => tables2 i (tables i present), ?_, ?_, ?_⟩
          · intro ok
            rw [full ok, stride]
          · intro bad
            have few := short bad
            omega
          · intro enough
            have fewer := tablesNeeded_next (d1.setPte (pdx a) (ptx a) (pa ||| perm ||| pteP))
              table (by unfold pgSize at *; omega) final
            unfold tablesNeeded at enough ⊢
            obtain ⟨ok, left⟩ := enough2 (by omega)
            exact ⟨ok, by omega⟩
        · intro x page after before
          rw [written x page, if_neg (by unfold pgSize at *; omega)]
          exact absent x page (by omega) before

/-- `mappages` on a page-aligned range without present pages. -/
theorem mappages_enters (d : PgDir ld) {va size pa : Nat} (perm : Nat) (k : Kmem ld)
    (first : IsPage va) (nonempty : 1 ≤ size) (bounded : va + size ≤ 2 ^ 32) (frame : pa < 2 ^ 32)
    (absent : ∀ x, IsPage x → va ≤ x → x < va + size → present (d.pteOf x) = false) :
    wp (mappages d va size pa perm) (fun r k' => ∃ n,
      Entered d r.1 va pa perm n ∧
      (∀ i, present (d.pde i) = true → present (r.1.pde i) = true) ∧
      (r.2 = true → n = (size + (pgSize - 1)) / pgSize) ∧
      (r.2 = false → n < (size + (pgSize - 1)) / pgSize) ∧
      (tablesNeeded d va (pgRoundDown (va + size - 1)) ≤ k.freelist.length → r.2 = true ∧
        k.freelist.length ≤
          k'.freelist.length + tablesNeeded d va (pgRoundDown (va + size - 1)))) noStop k := by
  have aligned := first.2
  have last : word (va + size + (2 ^ 32 - 1)) = va + size - 1 := by
    unfold word
    omega
  have final : IsPage (pgRoundDown (va + size - 1)) :=
    ⟨Nat.lt_of_le_of_lt (pgRoundDown_le _) (by omega), pgRoundDown_aligned _⟩
  have ordered : va ≤ pgRoundDown (va + size - 1) := by
    unfold pgRoundDown
    unfold pgSize at *
    omega
  have count : (pgRoundDown (va + size - 1) - va) / pgSize + 1 = (size + (pgSize - 1)) / pgSize := by
    unfold pgRoundDown
    unfold pgSize at *
    omega
  have room : (pgRoundDown (va + size - 1) - va) / pgSize < addressPages + 1 := by
    unfold addressPages
    unfold pgSize at *
    omega
  unfold mappages
  rw [pgRoundDown_of_aligned aligned, last]
  apply wp_mono (mapFrom_enters d perm _ k first final ordered frame room ?_)
  · rintro r k' ⟨n, entered, tables, full, short, enough⟩
    refine ⟨n, entered, tables, ?_, ?_, enough⟩
    · intro ok
      rw [full ok, count]
    · intro bad
      have few := short bad
      omega
  · intro x page after before
    have below := pgRoundDown_le (va + size - 1)
    exact absent x page after (by omega)

/-- Lines in address order, from `low` on. -/
def Layout (low : Nat) : List KMap → Prop
  | [] => True
  | m :: rest => low ≤ m.virt ∧ IsPage m.virt ∧ 1 ≤ m.size ∧ m.virt + m.size ≤ 2 ^ 32 ∧
      m.physStart < 2 ^ 32 ∧ Layout (m.virt + m.size) rest

/-- Page tables enough for all lines. -/
def tablesFor : List KMap → Nat
  | [] => 0
  | m :: rest => 1 + (pdx (pgRoundDown (m.virt + m.size - 1)) - pdx m.virt) + tablesFor rest

theorem tablesNeeded_le (d : PgDir ld) (a last : Nat) :
    tablesNeeded d a last ≤ 1 + (pdx last - pdx a) := by
  unfold tablesNeeded
  split <;> omega

/-- The entry of page `x` that the lines ask for, `other` where no line covers it. -/
def lineEntry (x other : Nat) : List KMap → Nat
  | [] => other
  | m :: rest =>
    if m.virt ≤ x ∧ x < m.virt + m.size then word (m.physStart + (x - m.virt)) ||| m.perm ||| pteP
    else lineEntry x other rest

/-- A line further up does not cover `x`. -/
theorem lineEntry_below {low x : Nat} (other : Nat) (lines : List KMap) (layout : Layout low lines)
    (below : x < low) : lineEntry x other lines = other := by
  induction lines generalizing low with
  | nil => rfl
  | cons m rest ih =>
    obtain ⟨above, -, -, -, -, later⟩ := layout
    rw [lineEntry, if_neg (by omega)]
    exact ih later (by omega)

/-- Lines in order are entered one after the other, and nothing below the first is touched;
with memory for the page tables all of them are. -/
theorem mapKernel_enters (d : PgDir ld) (k : Kmem ld) {low : Nat} (lines : List KMap)
    (layout : Layout low lines)
    (absent : ∀ x, IsPage x → low ≤ x → present (d.pteOf x) = false) :
    wp (mapKernel d lines) (fun r k' =>
      (∀ x, IsPage x → x < low → r.1.pteOf x = d.pteOf x) ∧
      (r.2 = true → ∀ x, IsPage x → r.1.pteOf x = lineEntry x (d.pteOf x) lines) ∧
      (tablesFor lines ≤ k.freelist.length →
        r.2 = true ∧ k.freelist.length ≤ k'.freelist.length + tablesFor lines)) noStop k := by
  induction lines generalizing d k low with
  | nil => exact wp_ret ⟨fun _ _ _ => rfl, fun _ _ _ => rfl, fun _ => ⟨rfl, Nat.le_refl _⟩⟩
  | cons m rest ih =>
    obtain ⟨above, first, nonempty, bounded, frame, later⟩ := layout
    have needed := tablesNeeded_le d m.virt (pgRoundDown (m.virt + m.size - 1))
    have aligned := first.2
    rw [mapKernel]
    apply wp_seq (mappages_enters d m.perm k first nonempty bounded frame fun x page after _ =>
      absent x page (by omega))
    rintro ⟨d', mapped⟩ k' ⟨n, entered, -, full, short, succeeds⟩
    cases mapped with
    | false =>
      refine wp_ret ⟨?_, by simp, ?_⟩
      · intro x page below
        rw [entered x page, if_neg (by omega)]
      · intro enough
        unfold tablesFor at enough
        exact absurd (succeeds (by omega)).1 (by simp)
    | true =>
      have pages := full rfl
      apply wp_mono (ih d' k' later ?_)
      · rintro r k'' ⟨same, entries, left⟩
        refine ⟨?_, ?_, ?_⟩
        · intro x page below
          rw [same x page (by omega), entered x page, if_neg (by omega)]
        · intro done x page
          have alignedX := page.2
          rw [entries done x page, entered x page, lineEntry]
          by_cases here : m.virt ≤ x ∧ x < m.virt + m.size
          · rw [lineEntry_below _ rest later (by omega), if_pos here,
              if_pos (by unfold pgSize at *; omega)]
          · rw [if_neg here, if_neg (by unfold pgSize at *; omega)]
        · intro enough
          unfold tablesFor at enough ⊢
          obtain ⟨done, more⟩ := left (by omega)
          exact ⟨done, by omega⟩
      · intro x page after
        have alignedX := page.2
        rw [entered x page, if_neg (by unfold pgSize at *; omega)]
        exact absent x page (by omega)

theorem kmap_layout : Layout kernBase (kmap ld) := by
  have aligned := ld.data_aligned
  have low := ld.data_low
  have high := ld.data_high
  simp only [kmap, Layout, KMap.size, IsPage, and_true]
  simp only [kernLink, kernBase, extMem, physTop, devSpace, v2p, word, pgSize] at *
  and_intros <;> first | omega | exact True.intro

theorem kmap_tables (ld : Link) : tablesFor (kmap ld) ≤ 66 := by
  have low := ld.data_low
  have high := ld.data_high
  simp only [kmap, tablesFor, KMap.size]
  simp only [kernLink, kernBase, extMem, physTop, devSpace, v2p, word, pgSize, pgRoundDown, pdx] at *
  omega

/-- With 67 free pages a page directory with the kernel mappings is built; no user page is
mapped in it. -/
theorem setupkvm_succeeds (k : Kmem ld) (enough : 67 ≤ k.freelist.length) :
    wp setupkvm (fun r k' => ∃ d, r = some d ∧ k.freelist.length ≤ k'.freelist.length + 67 ∧
      ∀ x, IsPage x → x < kernBase → present (d.pteOf x) = false) noStop k := by
  have tables := kmap_tables ld
  unfold setupkvm
  rw [wp_bind]
  apply wp_kalloc
  · intro empty
    simp [empty] at enough
  · intro page rest list
    have length : k.freelist.length = rest.length + 1 := by simp [list]
    rw [wp_bind, memset, wp_modify, if_neg (by decide)]
    apply wp_seq (mapKernel_enters _ _ (kmap ld) kmap_layout (fun x _ _ => by simp [PgDir.pteOf]))
    rintro ⟨d, mapped⟩ k' ⟨same, -, succeeds⟩
    obtain ⟨ok, left⟩ := succeeds (by dsimp only; omega)
    dsimp only at ok same left
    subst ok
    refine wp_ret ⟨d, rfl, by omega, ?_⟩
    intro x page user
    rw [same x page user]
    simp [PgDir.pteOf]

end ColorXv6.Vm.Mapping
