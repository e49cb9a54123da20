import ColorXv6.Vm.CopyOut

/-!
The arguments of a new program. `exec` pushes the strings one below the other, then a block with
a return address, argc, argv and the pointers to the strings. A copy that does not fit the stack
page runs through the guard page, which `copyout` refuses.
-/
namespace ColorXv6.Vm.ExecArgs
open Lib.LittleEndian Lib.Wp Param Mmu Kalloc PageDir Footprint Mapping Space Exec CopyOut
open ExecLoad (byteAt fileImage wp_loadPhase userBit_kernelPte userBit_user)
open Boot (smallLink smallPages smallPages_nodup)
open ForkCopy (pairDir pteOf_pairDir)

variable {ld : Link}

/-- An address space with all its pages, of which the last is the stack and the one before it
the guard page. -/
structure StackImage (d : PgDir ld) (sz : Nat) : Prop where
  space : UserSpace d
  tabled : Tabled d
  aligned : sz % pgSize = 0
  two : 2 * pgSize ≤ sz
  small : sz ≤ kernBase
  mapped : ∀ x, IsPage x → x < sz → present (d.pteOf x) = true
  guard : userBit (d.pteOf (sz - 2 * pgSize)) = false
  stack : userBit (d.pteOf (sz - pgSize)) = true

/-- The loading phase of `exec` leaves such an address space, whatever is in the file. -/
theorem stackImage_of_loadPhase {k k' : Kmem ld} {d : PgDir ld} {elf : ElfHdr} {size sz : Nat}
    (once : ∀ a, freeCount a k ≤ 1) (content : Bytes) (fits : size < 2 ^ 32)
    (loaded : loadPhase (fileImage content size) k = .ok (some (elf, d, sz), k')) :
    StackImage d sz := by
  obtain ⟨-, complete⟩ := wp_ok (wp_loadPhase once content fits) loaded elf d sz rfl
  have abandoned := complete.abandoned
  refine ⟨⟨abandoned.backed, complete.exclusive.pages, fun x page high => ?_⟩, abandoned.tabled,
    complete.aligned, complete.two, complete.ready.small, complete.mapped, complete.ready.guard.2,
    complete.ready.stack.2⟩
  rw [abandoned.kernel x page high]
  exact userBit_kernelPte page

/-- `n` rounded up to a multiple of 4. -/
def pad (n : Nat) : Nat := (n + 3) / 4 * 4

/-- The bytes of stack that the strings take. -/
def packed (argv : List (List UInt8)) : Nat := (argv.map fun s => pad (s.length + 1)).sum

/-- Where the strings go. -/
def places (sp : Nat) : List (List UInt8) → List Nat
  | [] => []
  | s :: rest => (sp - pad (s.length + 1)) :: places (sp - pad (s.length + 1)) rest

/-- The string and its terminating zero are at `addr`. -/
def HoldsString (d : PgDir ld) (k : Kmem ld) (addr : Nat) (s : List UInt8) : Prop :=
  ∀ j ≤ s.length, byteAt d k (addr + j) = s.getD j 0

/-- The word at a user address. -/
def wordAt (d : PgDir ld) (k : Kmem ld) (addr : Nat) : Nat := getLE (byteAt d k) addr 4

/-- `argv[i]` of a program whose stack pointer is `esp`. -/
def argPtr (d : PgDir ld) (k : Kmem ld) (esp i : Nat) : Nat :=
  wordAt d k (wordAt d k (esp + 8) + 4 * i)

/-- Start and length of the three words, of the array of pointers and of the strings. -/
def regions (d : PgDir ld) (k : Kmem ld) (argv : List (List UInt8)) (esp : Nat) : List (Nat × Nat) :=
  (esp, 12) :: (wordAt d k (esp + 8), 4 * (argv.length + 1)) ::
    argv.mapIdx fun i s => (argPtr d k esp i, s.length + 1)

/-- What `main` finds on its stack. -/
structure Decodes (d : PgDir ld) (k : Kmem ld) (argv : List (List UInt8)) (esp sz : Nat) : Prop where
  ret : wordAt d k esp = 0xffffffff
  count : wordAt d k (esp + 4) = argv.length
  strings : ∀ i (inside : i < argv.length), HoldsString d k (argPtr d k esp i) argv[i]
  null : argPtr d k esp argv.length = 0
  apart : (regions d k argv esp).Pairwise fun r q => r.1 + r.2 ≤ q.1 ∨ q.1 + q.2 ≤ r.1
  page : ∀ r ∈ regions d k argv esp, sz - pgSize ≤ r.1 ∧ r.1 + r.2 ≤ sz

variable {d : PgDir ld} {sz sp : Nat} {k : Kmem ld}

theorem StackImage.seen {u : Nat} (image : StackImage d sz) (below : u < sz) :
    Seen d u := by
  have small := image.small
  have down := pgRoundDown_le u
  exact ⟨by omega, image.mapped _ ⟨by unfold kernBase at small; omega, pgRoundDown_aligned u⟩ (by omega)⟩

/-- A copy that ends above the start of the guard page succeeds if it starts on the stack page. -/
theorem wp_copyout_stack (image : StackImage d sz) (k : Kmem ld) {n : Nat} (p : Bytes)
    (some : 0 < n) (top : sp + n ≤ sz) (high : sz - 2 * pgSize < sp + n) :
    wp (copyout d sp p n) (fun r k' => Copied d sp p n r k k' ∧ (r = true ↔ sz - pgSize ≤ sp))
      noStop k := by
  have small := image.small
  have aligned := image.aligned
  have fits : sp + n ≤ 2 ^ 32 := by
    unfold kernBase at small
    omega
  have reached : Reached d sp n := by
    intro x meets _
    have page := meets.page fits
    obtain ⟨u, low, last, rfl⟩ := meets
    have down := pgRoundDown_le u
    have there := image.mapped _ page (by omega)
    cases table : present (d.pde (pdx (pgRoundDown u))) with
    | true => rfl
    | false => simp [PgDir.pteOf, table] at there
  refine wp_mono (wp_error (wp_copyoutFrom image.space sp n (n + 1) p k fits (Nat.lt_succ_self n))
    fun e stuck => stuck.1 reached) ?_
  rintro r k' ⟨-, copied⟩
  refine ⟨copied, copied.all.trans ⟨fun all => ?_, fun start x meets => ?_⟩⟩
  · by_contra low
    -- The guard page holds a byte of the range.
    have guard : Meets sp n (sz - 2 * pgSize) := by
      refine ⟨max sp (sz - 2 * pgSize), by omega, by omega, ?_⟩
      unfold pgRoundDown pgSize at *
      omega
    have refused := (all _ guard).2
    rw [image.guard] at refused
    cases refused
  · have page := meets.page fits
    obtain ⟨u, low, last, rfl⟩ := meets
    have here : pgRoundDown u = sz - pgSize := by
      unfold pgRoundDown pgSize at *
      omega
    exact ⟨image.mapped _ page (by omega), here ▸ image.stack⟩

/-- The stack pointer after a string. -/
theorem push_sp {n : Nat} (aligned : sp % 4 = 0) (small : sp < 2 ^ 32) (room : n ≤ sp) :
    wordSub sp n / 4 * 4 = sp - pad n := by
  unfold wordSub word pad
  omega

/-- What the strings leave behind them: their own bytes and nothing else below `sp`. -/
structure Pushed (d : PgDir ld) (sp : Nat) (argv : List (List UInt8)) (k k' : Kmem ld) : Prop where
  strings : List.Forall₂ (HoldsString d k') (places sp argv) argv
  others : ∀ u, Seen d u → sp ≤ u → byteAt d k' u = byteAt d k u

theorem pad_bounds (n : Nat) : n ≤ pad n ∧ pad n < n + 4 ∧ pad n % 4 = 0 := by
  unfold pad
  omega

theorem packed_cons (s : List UInt8) (rest : List (List UInt8)) :
    packed (s :: rest) = pad (s.length + 1) + packed rest := List.sum_cons

/-- A string at its place, with the later ones below it. -/
theorem Pushed.cons {s : List UInt8} {rest : List (List UInt8)} {k1 k2 : Kmem ld}
    (image : StackImage d sz) (top : sp ≤ sz) (room : pad (s.length + 1) ≤ sp)
    (first : Copied d (sp - pad (s.length + 1)) (cString s) (s.length + 1) true k k1)
    (later : Pushed d (sp - pad (s.length + 1)) rest k1 k2) : Pushed d sp (s :: rest) k k2 where
  strings := by
    refine .cons (fun j inside => ?_) later.strings
    have bounds := pad_bounds (s.length + 1)
    have seen : Seen d (sp - pad (s.length + 1) + j) := image.seen (by omega)
    rw [later.others _ seen (by omega), first.stored rfl _ seen,
      putBytes_inside _ _ _ _ _ (by omega)]
    rfl
  others u seen above := by
    have bounds := pad_bounds (s.length + 1)
    rw [later.others u seen (by omega), first.outside u seen (by omega)]

/-- The loop over the strings. -/
theorem wp_pushArgs (image : StackImage d sz) (k : Kmem ld) {argc : Nat} (pointers : List Nat)
    (argv : List (List UInt8)) (aligned : sp % 4 = 0) (top : sp ≤ sz) (base : sz - pgSize ≤ sp)
    (count : argc + argv.length ≤ maxArg) (nowrap : packed argv ≤ sp) :
    wp (pushArgs d argc sp pointers argv) (fun r k' =>
      (∀ a, pagesOf a d = 0 → k'.mem a = k.mem a) ∧
      (r.isSome = true ↔ sz - pgSize + packed argv ≤ sp) ∧
      ∀ out, r = some out → out = (sp - packed argv, pointers ++ places sp argv) ∧
        Pushed d sp argv k k') noStop k := by
  have small := image.small
  induction argv generalizing k argc sp pointers with
  | nil =>
    refine wp_ret ⟨fun _ _ => rfl, ?_, ?_⟩
    · simp [packed, base]
    · rintro out ⟨⟩
      exact ⟨by simp [packed, places], .nil, fun _ _ _ => rfl⟩
  | cons s rest ih =>
    rw [packed_cons] at nowrap ⊢
    rw [List.length_cons] at count
    have bounds := pad_bounds (s.length + 1)
    have next : wordSub sp (s.length + 1) / 4 * 4 = sp - pad (s.length + 1) :=
      push_sp aligned (by unfold kernBase at small; omega) (by omega)
    rw [pushArgs, if_neg (by omega)]
    rw [next]
    apply wp_seq (wp_copyout_stack image k (cString s) (Nat.succ_pos s.length) (by omega)
      (by unfold pgSize at *; omega))
    rintro ok k1 ⟨copied, fits⟩
    have kept : ∀ a, pagesOf a d = 0 → k1.mem a = k.mem a := fun a =>
      copied.elsewhere image.space (by unfold kernBase at small; omega)
    cases ok with
    | false =>
      have short : ¬ sz - pgSize ≤ sp - pad (s.length + 1) := fun start => Bool.noConfusion (fits.mpr start)
      refine wp_ret ⟨kept, ?_, fun _ never => by cases never⟩
      simp only [Option.isSome_none, Bool.false_eq_true, false_iff]
      omega
    | true =>
      have start := fits.mp rfl
      refine wp_mono (ih k1 (pointers ++ [sp - pad (s.length + 1)]) (by omega) (by omega) start
        (by omega) (by omega)) ?_
      rintro r k2 ⟨others, some, done⟩
      refine ⟨fun a other => (others a other).trans (kept a other), some.trans (by omega), ?_⟩
      intro out result
      obtain ⟨rfl, later⟩ := done out result
      refine ⟨?_, .cons image top (by omega) copied later⟩
      rw [Nat.sub_sub, List.append_assoc]
      rfl

/-! The block with the pointers. -/

theorem getLE_wordBytes (words : List Nat) (i : Nat) :
    getLE (wordBytes words) (4 * i) 4 = words.getD i 0 % 2 ^ 32 := by
  rw [getLE_congr _ (putLE (fun _ => 0) (4 * i) 4 (words.getD i 0)) _ _ fun k low high => ?_, getLE_putLE]
  · rfl
  · unfold wordBytes putLE
    rw [if_pos ⟨low, high⟩, show k / 4 = i by omega, show k % 4 = k - 4 * i by omega]

/-- A word of a block that was copied out. -/
theorem wordAt_block {esp : Nat} {words : List Nat} {k' : Kmem ld} (image : StackImage d sz)
    (top : esp + words.length * 4 ≤ sz)
    (copied : Copied d esp (wordBytes words) (words.length * 4) true k k') {i : Nat}
    (inside : i < words.length) : wordAt d k' (esp + 4 * i) = words.getD i 0 % 2 ^ 32 := by
  rw [← getLE_wordBytes]
  refine getLE_moved _ _ _ _ _ fun j low => ?_
  rw [copied.stored rfl _ (image.seen (by omega)), Nat.add_assoc,
    putBytes_inside _ _ _ _ _ (by omega)]

theorem places_length (sp : Nat) (argv : List (List UInt8)) :
    (places sp argv).length = argv.length := by
  induction argv generalizing sp with
  | nil => rfl
  | cons s rest ih => rw [places, List.length_cons, ih, List.length_cons]

/-- Start and length of the strings. -/
def spans (sp : Nat) (argv : List (List UInt8)) : List (Nat × Nat) :=
  List.zipWith (fun a s => (a, s.length + 1)) (places sp argv) argv

theorem spans_cons (sp : Nat) (s : List UInt8) (rest : List (List UInt8)) :
    spans sp (s :: rest) =
      (sp - pad (s.length + 1), s.length + 1) :: spans (sp - pad (s.length + 1)) rest := rfl

theorem spans_bounds {argv : List (List UInt8)} (room : packed argv ≤ sp) {r : Nat × Nat}
    (member : r ∈ spans sp argv) : sp - packed argv ≤ r.1 ∧ r.1 + r.2 ≤ sp := by
  induction argv generalizing sp with
  | nil => cases member
  | cons s rest ih =>
    rw [packed_cons] at room ⊢
    rw [spans_cons] at member
    have bounds := pad_bounds (s.length + 1)
    rcases List.mem_cons.mp member with rfl | later
    · dsimp only
      omega
    · have below := ih (by omega) later
      omega

theorem spans_apart {argv : List (List UInt8)} (room : packed argv ≤ sp) :
    (spans sp argv).Pairwise fun r q => r.1 + r.2 ≤ q.1 ∨ q.1 + q.2 ≤ r.1 := by
  induction argv generalizing sp with
  | nil => exact .nil
  | cons s rest ih =>
    rw [packed_cons] at room
    rw [spans_cons]
    refine .cons (fun q later => .inr ?_) (ih (by omega))
    exact (spans_bounds (by omega) later).2

/-- The words of the block after the first three are the pointers and a zero. -/
theorem ustack_pointer (argc sp : Nat) (pointers : List Nat) (i : Nat) :
    (ustack argc sp pointers).getD (3 + i) 0 = pointers.getD i 0 := by
  rw [Nat.add_comm]
  change (pointers ++ [0]).getD i 0 = pointers.getD i 0
  simp only [List.getD_eq_getElem?_getD]
  by_cases inside : i < pointers.length
  · rw [List.getElem?_append_left inside]
  · rw [List.getElem?_append_right (by omega), List.getElem?_eq_none (l := pointers) (by omega)]
    cases i - pointers.length with
    | zero => rfl
    | succ _ => rfl

theorem places_le (sp i : Nat) (argv : List (List UInt8)) : (places sp argv).getD i 0 ≤ sp := by
  induction argv generalizing sp i with
  | nil => exact Nat.zero_le sp
  | cons s rest ih =>
    cases i with
    | zero => exact Nat.sub_le _ _
    | succ i => exact Nat.le_trans (ih _ i) (Nat.sub_le _ _)

/-- The strings and the block below them are what `main` is to find. -/
theorem decodes_of_pushed {argv : List (List UInt8)} {k1 k2 : Kmem ld}
    (image : StackImage d sz) (fits : packed argv + 4 * (argv.length + 4) ≤ pgSize)
    (pushed : Pushed d sz argv k k1)
    (copied : Copied d (sz - packed argv - 4 * (argv.length + 4))
      (wordBytes (ustack argv.length (sz - packed argv) (places sz argv)))
      (4 * (argv.length + 4)) true k1 k2) :
    Decodes d k2 argv (sz - packed argv - 4 * (argv.length + 4)) sz := by
  have small := image.small
  have two := image.two
  obtain ⟨esp, espEq⟩ : ∃ esp, esp = sz - packed argv - 4 * (argv.length + 4) := ⟨_, rfl⟩
  rw [← espEq] at copied ⊢
  have table : wordSub (sz - packed argv) ((argv.length + 1) * 4) = esp + 12 := by
    unfold wordSub word
    unfold kernBase pgSize at *
    omega
  have length : (ustack argv.length (sz - packed argv) (places sz argv)).length = argv.length + 4 := by
    simp [ustack, places_length]
  have words : ∀ i < argv.length + 4, wordAt d k2 (esp + 4 * i) =
      (ustack argv.length (sz - packed argv) (places sz argv)).getD i 0 % 2 ^ 32 := by
    intro i inside
    rw [Nat.mul_comm, ← length] at copied
    refine wordAt_block image ?_ copied (length ▸ inside)
    omega
  have argvAt : wordAt d k2 (esp + 8) = esp + 12 := by
    rw [words 2 (by omega), show (ustack argv.length (sz - packed argv) (places sz argv)).getD 2 0 =
      wordSub (sz - packed argv) ((argv.length + 1) * 4) from rfl, table]
    unfold kernBase at small
    omega
  have pointers : ∀ i ≤ argv.length, argPtr d k2 esp i = (places sz argv).getD i 0 := by
    intro i inside
    have bound := places_le sz i argv
    unfold argPtr
    rw [argvAt, show esp + 12 + 4 * i = esp + 4 * (3 + i) by omega, words (3 + i) (by omega),
      ustack_pointer]
    unfold kernBase at small
    omega
  have strings : argv.mapIdx (fun i s => (argPtr d k2 esp i, s.length + 1)) = spans sz argv := by
    apply List.ext_getElem
    · simp [spans, places_length]
    · intro i left right
      have inside : i < argv.length := by simpa using left
      simp [spans, pointers i (by omega), places_length, inside]
  have room : packed argv ≤ sz := by
    omega
  constructor
  · exact words 0 (by omega)
  · rw [words 1 (by omega), show (ustack argv.length (sz - packed argv) (places sz argv)).getD 1 0 =
      argv.length from rfl]
    unfold pgSize at fits
    omega
  · intro i inside j short
    have placed : i < (places sz argv).length := by rwa [places_length]
    have holds := (List.forall₂_iff_get.mp pushed.strings).2 i placed inside
    have span : ((places sz argv)[i], argv[i].length + 1) ∈ spans sz argv := by
      refine List.mem_iff_getElem.mpr ⟨i, by simp [spans, places_length, inside], ?_⟩
      simp [spans]
    have bounds := spans_bounds room span
    have address : argPtr d k2 esp i = (places sz argv)[i] := by
      rw [pointers i (by omega), List.getD_eq_getElem?_getD, List.getElem?_eq_getElem placed]
      rfl
    have seen : Seen d ((places sz argv)[i] + j) := image.seen (by omega)
    rw [address, copied.outside _ seen (by omega)]
    exact holds j short
  · rw [pointers _ (Nat.le_refl _), List.getD_eq_getElem?_getD,
      List.getElem?_eq_none (places_length sz argv).le]
    rfl
  · unfold regions
    rw [argvAt, strings]
    refine .cons ?_ (.cons (fun q member => .inl ?_) (spans_apart room))
    · intro q member
      left
      rcases List.mem_cons.mp member with rfl | string
      · exact Nat.le_refl _
      · have above := (spans_bounds room string).1
        omega
    · have above := (spans_bounds room member).1
      omega
  · unfold regions
    rw [argvAt, strings]
    intro r member
    rcases List.mem_cons.mp member with rfl | member
    · dsimp only
      omega
    · rcases List.mem_cons.mp member with rfl | string
      · dsimp only
        omega
      · have bounds := spans_bounds room string
        omega

/-- The strings and the block, on a space with guard and stack pages. -/
theorem wp_pushStack (image : StackImage d sz) (k : Kmem ld) (entry : Nat)
    (argv : List (List UInt8)) (count : argv.length ≤ maxArg) (nowrap : packed argv ≤ sz) :
    wp (pushStack d sz entry argv) (fun r k' => r.1 = d ∧
      (∀ a, pagesOf a d = 0 → k'.mem a = k.mem a) ∧
      (r.2.isSome = true ↔ packed argv + 4 * (argv.length + 4) ≤ pgSize) ∧
      ∀ out, r.2 = some out → out.pgdir = d ∧ out.sz = sz ∧ out.entry = entry ∧
        Decodes d k' argv out.sp sz) noStop k := by
  have small := image.small
  have two := image.two
  have aligned := image.aligned
  apply wp_seq (wp_pushArgs image k [] argv (by unfold pgSize at *; omega) (Nat.le_refl sz)
    (Nat.sub_le _ _) (by omega) nowrap)
  rintro r k1 ⟨others, some, done⟩
  cases r with
  | none =>
    refine wp_ret ⟨rfl, others, ?_, nofun⟩
    simp only [Option.isSome_none, Bool.false_eq_true, false_iff] at some ⊢
    omega
  | some out =>
    obtain ⟨rfl, pushed⟩ := done out rfl
    have start := some.mp rfl
    have short : argv.length ≤ 32 := count
    dsimp only
    rw [List.nil_append, places_length]
    have next : wordSub (sz - packed argv) ((3 + argv.length + 1) * 4) =
        sz - packed argv - 4 * (argv.length + 4) := by
      unfold wordSub word
      unfold kernBase pgSize at *
      omega
    rw [next, show (3 + argv.length + 1) * 4 = 4 * (argv.length + 4) by omega]
    apply wp_seq (wp_copyout_stack image k1 _ (by omega)
      (by unfold pgSize at *; omega) (by unfold pgSize at *; omega))
    rintro ok k2 ⟨copied, fits⟩
    have kept : ∀ a, pagesOf a d = 0 → k2.mem a = k.mem a := by
      intro a other
      rw [copied.elsewhere image.space (by unfold kernBase pgSize at *; omega) other, others a other]
    cases ok with
    | false =>
      have past : ¬ sz - pgSize ≤ sz - packed argv - 4 * (argv.length + 4) :=
        fun start => Bool.noConfusion (fits.mpr start)
      refine wp_ret ⟨rfl, kept, ?_, nofun⟩
      simp only [Option.isSome_none, Bool.false_eq_true, false_iff]
      omega
    | true =>
      have inside := fits.mp rfl
      have whole : packed argv + 4 * (argv.length + 4) ≤ pgSize := by
        unfold pgSize at *
        omega
      refine wp_ret ⟨rfl, kept, by simp [whole], ?_⟩
      rintro out ⟨⟩
      exact ⟨rfl, rfl, rfl, decodes_of_pushed image whole pushed copied⟩

/-- A user address of another address space keeps its byte. -/
theorem byteAt_other {caller : PgDir ld} {k' : Kmem ld} {u : Nat}
    (kept : ∀ a, pagesOf a d = 0 → k'.mem a = k.mem a)
    (separate : ∀ a, pagesOf a caller + pagesOf a d ≤ 1) (seen : Seen caller u) :
    byteAt caller k' u = byteAt caller k u := by
  have down := pgRoundDown_le u
  have counted := hit_le_pagesOf caller (pteAddr (caller.pteOf (pgRoundDown u)))
    (Nat.lt_of_le_of_lt down seen.1)
  have bound := separate (pteAddr (caller.pteOf (pgRoundDown u)))
  simp only [hit, seen.2, and_self, if_true] at counted
  unfold byteAt
  rw [kept _ (by omega)]

/-- The argument phase of `exec`: it succeeds exactly if strings and pointers fit the stack page,
the new program then finds its arguments there, and if it fails the caller's memory is as it
was. -/
theorem exec_arguments_decode {d : PgDir ld} {sz : Nat} (image : StackImage d sz) (k : Kmem ld)
    (elf : ElfHdr) (argv : List (List UInt8)) (count : argv.length ≤ maxArg - 1)
    (nowrap : packed argv ≤ sz) :
    ∃ r k', pushPhase argv (some (elf, d, sz)) k = .ok (r, k') ∧
      (r.isSome = true ↔ packed argv + 4 * (argv.length + 4) ≤ pgSize) ∧
      (∀ out, r = some out → out.pgdir = d ∧ out.sz = sz ∧ out.entry = elf.entry ∧
        Decodes d k' argv out.sp sz) ∧
      (r = none → ∀ caller : PgDir ld, (∀ a, pagesOf a caller + pagesOf a d ≤ 1) →
        ∀ u, Seen caller u → byteAt caller k' u = byteAt caller k u) := by
  apply wp_returns
  apply wp_seq (wp_pushStack image k elf.entry argv (Nat.le_trans count (Nat.sub_le _ _)) nowrap)
  rintro ⟨d', built⟩ k1 ⟨rfl, kept, some, done⟩
  cases built with
  | none =>
    apply wp_seq (wp_freevm d' true k1 image.tabled fun _ => image.space.backed)
    intro _ k2 freed
    refine wp_ret ⟨some, nofun, fun _ caller separate u seen => ?_⟩
    exact byteAt_other (fun a other => (freed a other).trans (kept a other)) separate seen
  | some out => exact wp_ret ⟨some, done, nofun⟩

/-- A program without segments: a guard page at 0 and the stack after it. -/
theorem stackImage_pairDir {page table guard stack : Frame ld} {rest : List (Frame ld)}
    (distinct : (page :: table :: guard :: stack :: rest).Nodup) :
    StackImage (pairDir page table guard stack pteW) 8192 where
  space := userSpace_pairDir (by decide) distinct
  tabled := by
    have none : Tabled { page, pde := fun _ => 0, pgtab := fun _ _ => 0 : PgDir ld } :=
      fun _ there => Bool.noConfusion (present_zero.symm.trans there)
    exact none.addTable 0 table
  aligned := by decide
  two := by decide
  small := by decide
  mapped x page low := by
    have aligned := page.2
    rw [pteOf_pairDir]
    obtain rfl | rfl : x = 0 ∨ x = 4096 := by
      unfold pgSize at aligned
      omega
    · rw [if_pos (by decide), present_pte]
    · rw [if_neg (by decide), if_pos (by decide), present_pte]
  guard := by
    have address : guard.pa.testBit 2 = false := by
      have low : guard.pa % 2 ^ 12 = 0 := guard.aligned
      have bit := Nat.testBit_mod_two_pow guard.pa 12 2
      rw [low] at bit
      simpa using bit.symm
    rw [pteOf_pairDir, if_pos (by decide)]
    unfold userBit
    rw [Nat.testBit_or, Nat.testBit_or, address]
    rfl
  stack := by
    rw [pteOf_pairDir, if_neg (by decide), if_pos (by decide)]
    exact userBit_user stack.pa

/-- `echo hi`: two strings on the stack of a bare program. -/
theorem exec_arguments_decode_bare : ∃ (d : PgDir smallLink) (k k' : Kmem smallLink)
    (out : Loaded smallLink), StackImage d 8192 ∧
    pushPhase [[101, 99, 104, 111], [104, 105]] (some (⟨0, 0, 0, 0⟩, d, 8192)) k = .ok (some out, k') ∧
    Decodes d k' [[101, 99, 104, 111], [104, 105]] out.sp 8192 := by
  obtain ⟨page, table, guard, stack, rest, list⟩ := Boot.smallPages_cons
  have image := stackImage_pairDir (list ▸ smallPages_nodup)
  obtain ⟨r, k', result, some, decodes, -⟩ := exec_arguments_decode image ⟨rest, fun _ _ => 0⟩
    ⟨0, 0, 0, 0⟩ [[101, 99, 104, 111], [104, 105]] (by decide) (by decide)
  obtain ⟨out, rfl⟩ := Option.isSome_iff_exists.mp (some.mpr (by decide))
  exact ⟨_, _, k', out, image, result, (decodes out rfl).2.2.2⟩

end ColorXv6.Vm.ExecArgs
