import ColorXv6.User.HeapOps

/-!
The heap of a program that calls `malloc` and `free` in any order, frees only what
it was given, and writes only there. Whatever `sbrk` answers, the free list stays a
cycle in address order, the blocks tile the heap, and every call returns.
-/
namespace ColorXv6.User.HeapIntegrity
open Lib.Cycle Lib.Row Lib.Runs Malloc FreeList HeapOps

/-- The blocks with these headers follow one another from `a` to `end_`. -/
def Tiles (mem : Nat → Header) (a end_ : Nat) : List Nat → Prop
  | [] => a = end_
  | b :: rest => b = a ∧ 0 < (mem b).size ∧ Tiles mem (a + 8 * (mem b).size) end_ rest

/-- The free list, and the blocks of the heap. `free` are the headers of the free blocks, in the
order of the list; that of a live block is 8 bytes below its pointer. -/
structure Intact (s : State) (free : List Nat) : Prop where
  circular : Linked (Heap.next s.heap) s.heap.base (s.heap.base :: free)
  increasing : (s.heap.base :: free).Pairwise (· < ·)
  freep : s.heap.freep ∈ s.heap.base :: free
  merged : ∀ a ∈ free, a + 8 * (s.heap.mem a).size ∉ free
  tiles : ∃ blocks, blocks.Perm (free ++ s.live.map (· - 8)) ∧
    Tiles s.heap.mem s.heap.start s.heap.brk blocks

/-- The bytes of a block, header included. -/
def Apart (mem : Nat → Header) (a b : Nat) : Prop :=
  a + 8 * (mem a).size ≤ b ∨ b + 8 * (mem b).size ≤ a

/-- `malloc` has returned 0, or a pointer to at least `nbytes` bytes that overlaps no live block. -/
def Served (s : State) (nbytes : Nat) (t : State) : Prop :=
  t.live = s.live ∨ ∃ ap, t.live = ap :: s.live ∧ nbytes ≤ 8 * ((t.heap.mem (ap - 8)).size - 1) ∧
    ∀ other ∈ s.live, Apart t.heap.mem (ap - 8) (other - 8)

/-- The used blocks of a row, as pointers. -/
def pointers (a : Nat) (row : List Block) : List Nat := (useds a row).map fun x => x.1 + 8

/-- The program before its first call, or with a heap that holds a row. -/
inductive Good (s : State) : Prop where
  | fresh (freep : s.heap.freep = 0) (live : s.live = []) (brk : s.heap.brk = s.heap.start)
      (low : 0 < s.heap.base ∧ s.heap.base + 8 ≤ s.heap.start) (high : s.heap.start < 2 ^ 32)
  | holds (row : List Block) (holds : Holds s.heap row) (live : s.live.Perm (pointers s.heap.start row))

section Row
variable {h t : Heap} {row l r : List Block} {a : Nat}

theorem mem_useds {x : Nat × Block} :
    x ∈ useds a row ↔ x ∈ place Block.bytes a row ∧ x.2.used = true := by
  simp [useds]

theorem useds_distinct (positive : ∀ b ∈ row, 0 < b.units) :
    (useds a row).Pairwise fun x y => x.1 ≠ y.1 := by
  have ordered : (place Block.bytes a row).Pairwise fun x y => x.1 + x.2.bytes ≤ y.1 := place_pairwise
  refine (ordered.filter fun x => x.2.used).imp_of_mem ?_
  intro x y member _ apart
  have := positive x.2 (mem_place (List.mem_of_mem_filter member)).1
  dsimp only [Block.bytes] at apart
  omega

/-- Headers that are not touched keep the row. -/
theorem Holds.frame (holds : Holds h row) (base : t.base = h.base) (start : t.start = h.start)
    (brk : t.brk = h.brk) (freep : t.freep = h.freep) (same : t.mem h.base = h.mem h.base)
    (others : ∀ x ∈ place Block.bytes h.start row, t.mem x.1 = h.mem x.1) : Holds t row where
  positive := holds.positive
  merged := holds.merged
  sizes := by
    intro x placed
    rw [start] at placed
    rw [others x placed]
    exact holds.sizes x placed
  baseSize := by
    rw [base, same]
    exact holds.baseSize
  linked := by
    rw [base, start]
    refine holds.linked.congr fun x node => ?_
    rcases List.mem_cons.mp node with rfl | free
    · rw [Heap.next, same]
      rfl
    · obtain ⟨b, placed, -⟩ := mem_frees.mp free
      rw [Heap.next, others _ placed]
      rfl
  freep := by
    rw [base, start, freep]
    exact holds.freep
  brk := by
    rw [brk, start]
    exact holds.brk
  low := by
    rw [base, start]
    exact holds.low
  high := by
    rw [brk]
    exact holds.high

/-- Two blocks of a row that are not the same do not overlap. -/
theorem Holds.apart (holds : Holds h row) {x y : Nat × Block} (first : x ∈ place Block.bytes h.start row)
    (second : y ∈ place Block.bytes h.start row) (different : x.1 ≠ y.1) : Apart h.mem x.1 y.1 := by
  have ordered : (place Block.bytes h.start row).Pairwise fun x y => x.1 + x.2.bytes ≤ y.1 :=
    place_pairwise
  unfold Apart
  rw [holds.sizes x first, holds.sizes y second]
  have cases : x.1 + x.2.bytes ≤ y.1 ∨ y.1 + y.2.bytes ≤ x.1 := by
    obtain ⟨i, hi, rfl⟩ := List.getElem_of_mem first
    obtain ⟨j, hj, rfl⟩ := List.getElem_of_mem second
    rcases Nat.lt_trichotomy i j with before | same | after
    · exact Or.inl (List.pairwise_iff_getElem.mp ordered i j hi hj before)
    · subst same
      exact absurd rfl different
    · exact Or.inr (List.pairwise_iff_getElem.mp ordered j i hj hi after)
  exact cases

/-- A free block does not end at a free block. -/
theorem Holds.unmerged (holds : Holds h row) (free : a ∈ frees h.start row) :
    a + 8 * (h.mem a).size ∉ frees h.start row := by
  obtain ⟨⟨m, used⟩, placed, unused⟩ := mem_frees.mp free
  cases unused
  rw [show (h.mem a).size = m from holds.sizes _ placed]
  obtain ⟨l, r, rfl, at_⟩ := place_split placed
  intro member
  rw [frees_append, frees_cons, ← at_] at member
  have positive : 0 < m := holds.positive ⟨m, false⟩ (by simp)
  rcases List.mem_append.mp member with below | here
  · have high := frees_high (fun b inside => holds.positive b (by simp [inside])) below
    omega
  · rcases List.mem_cons.mp here with same | above
    · omega
    · cases r with
      | nil => cases above
      | cons c r =>
        have chain := List.isChain_append_cons_cons.mp holds.merged
        have isUsed : c.used = true := chain.2.1.resolve_left (by simp)
        have positive' : 0 < c.units := holds.positive c (by simp)
        rw [frees_cons, if_pos isUsed] at above
        have low := frees_low above
        dsimp only [Block.bytes] at low
        omega

theorem tiles_place {end_ : Nat} (positive : ∀ b ∈ row, 0 < b.units)
    (sizes : ∀ x ∈ place Block.bytes a row, (h.mem x.1).size = x.2.units)
    (whole : a + width Block.bytes row = end_) :
    Tiles h.mem a end_ ((place Block.bytes a row).map Prod.fst) := by
  induction row generalizing a with
  | nil => simpa [Tiles] using whole
  | cons b row ih =>
    have size : (h.mem a).size = b.units := sizes (a, b) (by simp)
    rw [width_cons] at whole
    refine ⟨rfl, ?_, ?_⟩
    · rw [size]
      exact positive b (by simp)
    · rw [size]
      refine ih (fun c inside => positive c (by simp [inside]))
        (fun x placed => sizes x (List.mem_cons_of_mem _ placed)) ?_
      dsimp only [Block.bytes] at whole
      omega

end Row

variable {row : List Block} {act : Act}

/-- What a row says about the list and the blocks. -/
theorem intact_of_holds {s : State} (holds : Holds s.heap row)
    (live : s.live.Perm (pointers s.heap.start row)) : Intact s (frees s.heap.start row) where
  circular := holds.linked
  increasing := nodes_sorted holds
  freep := holds.freep
  merged := fun _ free => Holds.unmerged holds free
  tiles := by
    refine ⟨(place Block.bytes s.heap.start row).map Prod.fst, ?_,
      tiles_place holds.positive holds.sizes holds.brk.symm⟩
    have headers : (s.live.map (· - 8)).Perm ((useds s.heap.start row).map Prod.fst) := by
      refine (live.map _).trans (List.Perm.of_eq ?_)
      rw [pointers, List.map_map]
      exact List.map_congr_left fun x _ => Nat.add_sub_cancel ..
    have split := List.filter_append_perm (fun x : Nat × Block => !x.2.used)
      (place Block.bytes s.heap.start row)
    have parts := (split.symm.map Prod.fst)
    rw [List.map_append] at parts
    refine parts.trans (List.Perm.append (List.Perm.refl _) ?_)
    simpa [useds] using headers.symm

/-! The steps. -/

section Steps
variable {s t : State}

theorem malloc_mono {turns nbytes : Nat} {h : Heap} {grant : Bool} {result : Nat × Heap}
    (found : malloc turns h nbytes grant = some result) (extra : Nat) :
    malloc (turns + extra) h nbytes grant = some result :=
  search_mono refill_mono found

theorem perform_mono {turns : Nat} (result : perform turns s act = some t) (extra : Nat) :
    perform (turns + extra) s act = some t := by
  cases act with
  | malloc nbytes grant =>
    obtain ⟨pair, found, rfl⟩ := Option.map_eq_some_iff.mp result
    exact Option.map_eq_some_iff.mpr ⟨pair, malloc_mono found extra, rfl⟩
  | free ap =>
    obtain ⟨heap, freed, rfl⟩ := Option.map_eq_some_iff.mp result
    exact Option.map_eq_some_iff.mpr ⟨heap, free_mono freed extra, rfl⟩
  | store a header => exact result

/-- The number of turns allowed does not matter, once it is enough. -/
theorem perform_unique {turns turns' : Nat} {u : State} (first : perform turns s act = some t)
    (second : perform turns' s act = some u) : t = u := by
  have one := perform_mono first turns'
  have two := perform_mono second turns
  rw [Nat.add_comm, one] at two
  exact Option.some.inj two

theorem nunitsOf_eq {nbytes : Nat} (fits : 8 * ((nbytes + 7) / 8 + 1) < 2 ^ 31) :
    nunitsOf nbytes = (nbytes + 7) / 8 + 1 := by
  unfold nunitsOf
  omega

/-- After the first lines of `malloc` there is a list. -/
theorem prepare_holds (good : Good s) :
    ∃ row, Holds (prepare s.heap) row ∧ (prepare s.heap).start = s.heap.start ∧
      s.live.Perm (pointers s.heap.start row) := by
  unfold prepare
  cases good with
  | fresh freep live brk low high =>
    rw [if_pos freep]
    refine ⟨[], ?_, rfl, by rw [live]; rfl⟩
    have header : (s.heap.write s.heap.base { ptr := s.heap.base, size := 0 }).mem s.heap.base =
        { ptr := s.heap.base, size := 0 } := write_same _ _ _
    constructor
    · simp
    · exact List.isChain_nil
    · simp
    · exact congrArg Header.size header
    · exact ⟨congrArg Header.ptr header, trivial⟩
    · exact List.mem_cons_self
    · exact brk
    · exact low
    · show s.heap.brk < 2 ^ 32
      omega
  | holds row holds live =>
    rw [if_neg (Holds.freep_ne holds)]
    exact ⟨row, holds, rfl, live⟩

theorem pointers_eq {a : Nat} {b : Nat} {block : Block} {first last : List (Nat × Block)}
    (split : useds a row = first ++ (b, block) :: last) :
    pointers a row = first.map (fun x => x.1 + 8) ++ (b + 8) :: last.map fun x => x.1 + 8 := by
  rw [pointers, split, List.map_append, List.map_cons]

/-- The block that was taken is live, of `n` units, below the break, and apart from the others. -/
theorem taken_live {h heap : Heap} {row' : List Block} {n ptr : Nat} {others : List Nat}
    (taken : Taken h row n ptr heap row') (live : others.Perm (pointers h.start row)) :
    (ptr :: others).Perm (pointers heap.start row') ∧ 8 ≤ ptr ∧ (heap.mem (ptr - 8)).size = n ∧
      ptr - 8 + 8 * n ≤ heap.brk ∧ ∀ other ∈ others, Apart heap.mem (ptr - 8) (other - 8) := by
  obtain ⟨b, first, last, rfl, before, after⟩ := taken.useds
  rw [← taken.start] at after
  have old : pointers h.start row = first.map (fun x => x.1 + 8) ++ last.map fun x => x.1 + 8 := by
    rw [pointers, before, List.map_append]
  have here : (b, (⟨n, true⟩ : Block)) ∈ place Block.bytes heap.start row' :=
    (mem_useds.mp (by rw [after]; simp)).1
  rw [Nat.add_sub_cancel]
  refine ⟨?_, Nat.le_add_left _ _, taken.holds.sizes _ here, ?_, ?_⟩
  · rw [pointers_eq after]
    exact ((live.trans (List.Perm.of_eq old)).cons (b + 8)).trans List.perm_middle.symm
  · rw [taken.holds.brk]
    exact (mem_place here).2.2
  · intro other member
    have used := (live.trans (List.Perm.of_eq old)).mem_iff.mp member
    rw [← List.map_append] at used
    obtain ⟨y, inside, rfl⟩ := List.mem_map.mp used
    have there : y ∈ useds heap.start row' := by
      rw [after]
      rcases List.mem_append.mp inside with left | right
      · exact List.mem_append_left _ left
      · exact List.mem_append_right _ (List.mem_cons_of_mem _ right)
    rw [Nat.add_sub_cancel]
    refine Holds.apart taken.holds here (mem_useds.mp there).1 ?_
    have distinct := useds_distinct (a := heap.start) taken.holds.positive
    rw [after, List.pairwise_middle fun apart => Ne.symm apart] at distinct
    exact List.rel_of_pairwise_cons distinct inside

/-- `malloc` returns. -/
theorem malloc_step (good : Good s) {nbytes : Nat} (fits : 8 * ((nbytes + 7) / 8 + 1) < 2 ^ 31)
    (grant : Bool) :
    ∃ turns t row, perform turns s (.malloc nbytes grant) = some t ∧ Holds t.heap row ∧
      t.live.Perm (pointers t.heap.start row) ∧ Served s nbytes t := by
  obtain ⟨row, holds, start, live⟩ := prepare_holds good
  rw [← start] at live
  have units := nunitsOf_eq fits
  obtain ⟨turns, ptr, heap, found, outcome⟩ := search_spec grant holds
    (show 0 < nunitsOf nbytes by omega) (by omega)
  have result : perform turns s (.malloc nbytes grant) =
      some { heap, live := if ptr = 0 then s.live else ptr :: s.live } :=
    Option.map_eq_some_iff.mpr ⟨(ptr, heap), found, rfl⟩
  rcases outcome with ⟨null, same⟩ | ⟨row', taken⟩
  · rw [if_pos null] at result
    exact ⟨turns, _, row, result, same ▸ holds, same ▸ live, Or.inl rfl⟩
  · obtain ⟨perm, address, size, -, apart⟩ := taken_live taken live
    rw [if_neg (by omega)] at result
    refine ⟨turns, _, row', result, taken.holds, perm, Or.inr ⟨ptr, rfl, ?_, apart⟩⟩
    dsimp only
    omega

/-- `free` of a live block returns. -/
theorem free_step (holds : Holds s.heap row) (live : s.live.Perm (pointers s.heap.start row))
    {ap : Nat} (member : ap ∈ s.live) :
    ∃ turns t row', perform turns s (.free ap) = some t ∧ Holds t.heap row' ∧
      t.live.Perm (pointers t.heap.start row') := by
  obtain ⟨⟨b, block⟩, used, rfl⟩ := List.mem_map.mp (live.mem_iff.mp member)
  obtain ⟨placed, isUsed⟩ := mem_useds.mp used
  obtain ⟨l, r, rfl, at_⟩ := place_split placed
  obtain ⟨n, flag⟩ := block
  cases isUsed
  dsimp only at at_ holds live
  obtain ⟨turns, heap, row', freed, facts⟩ := free_spec holds at_
  have result : perform turns s (.free (b + 8)) = some { heap, live := s.live.erase (b + 8) } :=
    Option.map_eq_some_iff.mpr ⟨heap, freed, rfl⟩
  refine ⟨turns, _, row', result, facts.holds, ?_⟩
  have split : useds s.heap.start (l ++ ⟨n, true⟩ :: r) =
      useds s.heap.start l ++ (b, ⟨n, true⟩) :: useds (b + 8 * n) r := by
    rw [useds_append, useds_cons, if_pos rfl, at_]
    rfl
  have before := live.trans (List.Perm.of_eq (pointers_eq split))
  show (s.live.erase (b + 8)).Perm (pointers heap.start row')
  rw [facts.start, pointers, facts.useds, List.map_append]
  refine ((before.trans List.perm_middle).erase (b + 8)).trans ?_
  rw [List.erase_cons_head]

/-- The program writes in a block of its own. -/
theorem store_step (holds : Holds s.heap row) (live : s.live.Perm (pointers s.heap.start row))
    {a : Nat} (owns : Owns s a) (header : Header) :
    Holds (s.heap.write a header) row := by
  obtain ⟨ap, member, low, high⟩ := owns
  obtain ⟨x, used, rfl⟩ := List.mem_map.mp (live.mem_iff.mp member)
  obtain ⟨placed, -⟩ := mem_useds.mp used
  rw [Nat.add_sub_cancel] at high
  have above := (mem_place placed).2.1
  have base := holds.low
  refine Holds.frame holds rfl rfl rfl rfl (write_other _ _ (by omega)) fun y inside => write_other _ _ ?_
  by_cases same : x.1 = y.1
  · omega
  · have apart := Holds.apart holds placed inside same
    unfold Apart at apart
    omega

/-- Every step from a good state leaves a row, and `malloc` keeps its promise. -/
theorem step_row (good : Good s) (allowed : Allowed s act) :
    ∃ turns t row, perform turns s act = some t ∧ Holds t.heap row ∧
      t.live.Perm (pointers t.heap.start row) ∧
      ∀ nbytes grant, act = .malloc nbytes grant → Served s nbytes t := by
  cases act with
  | malloc nbytes grant =>
    obtain ⟨turns, t, row, result, holds, live, served⟩ := malloc_step good allowed grant
    refine ⟨turns, t, row, result, holds, live, ?_⟩
    intro nbytes' grant' same
    cases same
    exact served
  | free ap =>
    cases good with
    | fresh _ live => simp [Allowed, live] at allowed
    | holds row holds live =>
      obtain ⟨turns, t, row', result, holds', live'⟩ := free_step holds live allowed
      exact ⟨turns, t, row', result, holds', live', by simp⟩
  | store a header =>
    cases good with
    | fresh _ live => simp [Allowed, Owns, live] at allowed
    | holds row holds live =>
      exact ⟨0, _, row, rfl, store_step holds live allowed header, live, by simp⟩

theorem good_step (good : Good s) (step : Step s act t) :
    (∃ row, Holds t.heap row ∧ t.live.Perm (pointers t.heap.start row)) ∧
      ∀ nbytes grant, act = .malloc nbytes grant → Served s nbytes t := by
  obtain ⟨allowed, turns, result⟩ := step
  obtain ⟨turns', u, row, result', holds, live, served⟩ := step_row good allowed
  obtain rfl : t = u := perform_unique result result'
  exact ⟨⟨row, holds, live⟩, served⟩

/-- By induction along the run: after at least one step there is a row. -/
theorem run_row {acts : List Act} (run : Run Step s acts t) (good : Good s) :
    (acts = [] ∧ t = s) ∨ ∃ row, Holds t.heap row ∧ t.live.Perm (pointers t.heap.start row) := by
  induction run with
  | nil s => exact Or.inl ⟨rfl, rfl⟩
  | cons first later ih =>
    obtain ⟨row, holds, live⟩ := (good_step good first).1
    right
    rcases ih (.holds row holds live) with ⟨-, rfl⟩ | there
    · exact ⟨row, holds, live⟩
    · exact there

end Steps

/-- Before the first call. Memory holds anything; the static header is below the heap. -/
def fresh (mem : Nat → Header) (base start : Nat) : State where
  heap := { mem, base, freep := 0, start, brk := start }
  live := []

/-- Whatever the program asks for and `sbrk` answers: after every call the list and the blocks are
in order, every call returns, and `malloc` returns 0 or a block that is the caller's alone. -/
theorem heap_integrity (mem : Nat → Header) {base start : Nat} (address : 0 < base)
    (below : base + 8 ≤ start) (inside : start < 2 ^ 32) {acts : List Act} {s : State}
    (run : Run Step (fresh mem base start) acts s) :
    (acts ≠ [] → ∃ free, Intact s free) ∧
    (∀ act, Allowed s act → ∃ t, Step s act t) ∧
    ∀ nbytes grant t, Step s (.malloc nbytes grant) t → Served s nbytes t := by
  have begin_ : Good (fresh mem base start) := .fresh rfl rfl rfl ⟨address, below⟩ inside
  have good : Good s ∧ (acts ≠ [] → ∃ free, Intact s free) := by
    rcases run_row run begin_ with ⟨none, same⟩ | ⟨row, holds, live⟩
    · rw [same]
      exact ⟨begin_, fun some => absurd none some⟩
    · exact ⟨.holds row holds live, fun _ => ⟨_, intact_of_holds holds live⟩⟩
  refine ⟨good.2, ?_, ?_⟩
  · intro act allowed
    obtain ⟨turns, t, -, result, -⟩ := step_row good.1 allowed
    exact ⟨t, allowed, turns, result⟩
  · intro nbytes grant t step
    exact (good_step good.1 step).2 nbytes grant rfl

/-- Three blocks are allocated, the outer two freed, and then the middle one, which joins all. -/
theorem heap_integrity_three :
    ∃ s, Run Step (fresh (fun _ => ⟨7, 7⟩) 64 4096)
        [.malloc 10 true, .malloc 20 true, .malloc 30 true, .free 36848, .free 36776, .free 36816] s ∧
      s.live = [] ∧ s.heap.brk = 4096 + 8 * 4096 ∧ ∃ free, Intact s free := by
  obtain ⟨s, run, test⟩ := execute_exists
    (fun s act => if Allowed s act then perform 10 s act else none) (fresh (fun _ => ⟨7, 7⟩) 64 4096)
    [.malloc 10 true, .malloc 20 true, .malloc 30 true, .free 36848, .free 36776, .free 36816]
    (fun s => s.live = [] ∧ s.heap.brk = 4096 + 8 * 4096) (by decide +kernel)
  have steps : Run Step (fresh (fun _ => ⟨7, 7⟩) 64 4096)
      [.malloc 10 true, .malloc 20 true, .malloc 30 true, .free 36848, .free 36776, .free 36816] s := by
    refine run.mono ?_
    intro s act t step
    by_cases allowed : Allowed s act
    · rw [if_pos allowed] at step
      exact ⟨allowed, 10, step⟩
    · rw [if_neg allowed] at step
      cases step
  obtain ⟨none, brk⟩ : s.live = [] ∧ s.heap.brk = 4096 + 8 * 4096 := by simpa using test
  exact ⟨s, steps, none, brk,
    (heap_integrity _ (by decide) (by decide) (by decide) steps).1 (by simp)⟩

/-- Once the program has given back all it was given, the memory from `sbrk` is one free block. -/
theorem freed_heap_is_one_block (mem : Nat → Header) {base start : Nat} (address : 0 < base)
    (below : base + 8 ≤ start) (inside : start < 2 ^ 32) {acts : List Act} {s : State}
    (run : Run Step (fresh mem base start) acts s) (called : acts ≠ []) (freed : s.live = []) :
    ∃ free, Linked (Heap.next s.heap) s.heap.base (s.heap.base :: free) ∧
      (free = [] ∧ s.heap.start = s.heap.brk ∨
        free = [s.heap.start] ∧ s.heap.start + 8 * (s.heap.mem s.heap.start).size = s.heap.brk) := by
  obtain ⟨row, holds, live⟩ := (run_row run (.fresh rfl rfl rfl ⟨address, below⟩ inside)).resolve_left
    fun none => called none.1
  obtain ⟨circular, -, -, merged, blocks, perm, tiles⟩ := intact_of_holds holds live
  refine ⟨_, circular, ?_⟩
  rw [freed, List.map_nil, List.append_nil] at perm
  cases blocks with
  | nil => exact Or.inl ⟨perm.symm.eq_nil, tiles⟩
  | cons b rest =>
    obtain ⟨rfl, -, later⟩ := tiles
    cases rest with
    | nil => exact Or.inr ⟨List.perm_singleton.mp perm.symm, later⟩
    | cons c rest =>
      -- the second block begins where the first one ends
      obtain ⟨rfl, -⟩ := later
      exact absurd (perm.subset (by simp)) (merged s.heap.start (perm.subset (by simp)))

/-- A block is allocated and freed. -/
theorem freed_heap_is_one_block_again : ∃ s : State, s.live = [] ∧
    Linked (Heap.next s.heap) s.heap.base [s.heap.base, s.heap.start] ∧
    s.heap.start + 8 * (s.heap.mem s.heap.start).size = s.heap.brk := by
  obtain ⟨s, run, test⟩ := execute_exists (fun s act => if Allowed s act then perform 10 s act else none)
    (fresh (fun _ => ⟨7, 7⟩) 64 4096) [.malloc 10 true, .free 36848]
    (fun s => s.live = [] ∧ s.heap.start ≠ s.heap.brk) (by decide +kernel)
  obtain ⟨freed, grown⟩ := of_decide_eq_true test
  obtain ⟨free, linked, ⟨-, none⟩ | ⟨rfl, whole⟩⟩ := freed_heap_is_one_block _ (by decide) (by decide)
    (by decide) (run.mono fun s act t step => by grind [Step]) (by simp) freed
  · exact absurd none grown
  · exact ⟨s, freed, linked, whole⟩

end ColorXv6.User.HeapIntegrity
