import ColorXv6.Param
import ColorXv6.Vm.Footprint

/-!
The part of exec.c that builds a new address space: the ELF headers, the
segments, the guard and stack pages and the arguments. The file is known only by
what its `readi` calls return, so regular files, directories and devices are all
covered.
-/
namespace ColorXv6.Vm.Exec
open Lib.LittleEndian Lib.Wp Param Mmu Kalloc PageDir Footprint

/-- The places from which `exec` calls `readi`, one name for each call of a run. -/
inductive ReadCall where
  | header
  /-- Program header `i`. -/
  | program (i : Nat)
  /-- The page of segment `i` at byte `k`. -/
  | segment (i k : Nat)

/-- What `readi` returns, and the bytes it stores. -/
structure Image where
  read : ReadCall → (off n : Nat) → Int × Bytes

def elfMagic : Nat := 0x464C457F
def elfHdrSize : Nat := 52
def progHdrSize : Nat := 32
def elfProgLoad : Nat := 1

structure ElfHdr where
  magic : Nat
  entry : Nat
  phoff : Nat
  phnum : Nat

structure ProgHdr where
  type : Nat
  off : Nat
  vaddr : Nat
  filesz : Nat
  memsz : Nat

/-- The fields of `struct elfhdr` at their offsets. -/
def elfHdr (b : Bytes) : ElfHdr :=
  { magic := getLE b 0 4, entry := getLE b 24 4, phoff := getLE b 28 4, phnum := getLE b 44 2 }

/-- The fields of `struct proghdr` at their offsets. -/
def progHdr (b : Bytes) : ProgHdr :=
  { type := getLE b 0 4, off := getLE b 4 4, vaddr := getLE b 8 4, filesz := getLE b 16 4,
    memsz := getLE b 20 4 }

variable {ld : Link}

section Reader
variable {σ ε : Type} (pages : {α : Type} → Prog (Kmem ld) Stop α → Prog σ ε α)
  (read : ReadCall → (off n : Nat) → Prog σ ε (Int × Bytes))

/-- The loop of `loaduvm` at `i`. -/
def loadFrom (d : PgDir ld) (addr segment offset sz i : Nat) : Nat → Prog σ ε Bool
  | 0 => pages (throw .endless)
  | fuel + 1 => do
    if i < sz then
      let (d, pte) ← pages (walkpgdir d (word (addr + i)) false)
      match pte with
      | none => pages (throw .loaduvmMissing)
      | some (t, j) =>
        let n := min (sz - i) pgSize
        let (count, bytes) ← read (.segment segment i) (word (offset + i)) n
        pages (storeBytes (pteAddr (d.pgtab t j)) 0 (min count.toNat n) bytes)
        if count ≠ n then
          return false
        else
          loadFrom d addr segment offset sz (word (i + pgSize)) fuel
    else
      return true

/-- Returns whether the source returns 0. -/
def loaduvm (d : PgDir ld) (addr segment offset sz : Nat) : Prog σ ε Bool :=
  if addr % pgSize ≠ 0 then
    pages (throw .loaduvmUnaligned)
  else
    loadFrom pages read d addr segment offset sz 0 (addressPages + 1)

/-- The loop over the program headers, with `n` of them left and the next one numbered `i`.
The result has no size where the source goes to `bad`. -/
def loadSegments (d : PgDir ld) (sz off i : Nat) : Nat → Prog σ ε (PgDir ld × Option Nat)
  | 0 => return (d, some sz)
  | n + 1 => do
    let (count, bytes) ← read (.program i) off progHdrSize
    let ph := progHdr bytes
    if count ≠ progHdrSize then
      return (d, none)
    else if ph.type ≠ elfProgLoad ∨ ph.memsz = 0 then
      loadSegments d sz (word (off + progHdrSize)) (i + 1) n
    else if ph.memsz < ph.filesz then
      return (d, none)
    else if word (ph.vaddr + ph.memsz) < ph.vaddr then
      return (d, none)
    else
      let (d, sz) ← pages (allocuvm d sz (word (ph.vaddr + ph.memsz)))
      if sz = 0 then
        return (d, none)
      else if ph.vaddr % pgSize ≠ 0 then
        return (d, none)
      else if ← loaduvm pages read d ph.vaddr i ph.off ph.filesz then
        loadSegments d sz (word (off + progHdrSize)) (i + 1) n
      else
        return (d, none)

theorem progHdr_words (b : Bytes) :
    (progHdr b).vaddr < 2 ^ 32 ∧ (progHdr b).memsz < 2 ^ 32 ∧ (progHdr b).off < 2 ^ 32 := by
  have four : (256 : Nat) ^ 4 = 2 ^ 32 := by decide
  rw [← four]
  exact ⟨getLE_lt b 8 4, getLE_lt b 20 4, getLE_lt b 4 4⟩

variable {pages read}

/-- What holds of directory and size before each program header holds after the last one.
`L` is what is left of it where the source goes to `bad`. -/
theorem wp_loadSegments_inv {I : PgDir ld → Nat → σ → Prop} {L : PgDir ld → σ → Prop}
    {E : ε → Prop} (leave : ∀ {d sz s}, I d sz s → L d s)
    (reads : ∀ {d sz s} call off n, I d sz s → wp (read call off n) (fun _ t => I d sz t) E s)
    (grows : ∀ {d sz s} newsz, I d sz s → wp (pages (allocuvm d sz newsz)) (fun r t =>
      L r.1 t ∧ (r.2 ≠ 0 → newsz ≤ r.2 ∧ I r.1 r.2 t)) E s)
    (loads : ∀ {d sz s addr filesz} segment offset, I d sz s → addr % pgSize = 0 →
      addr + filesz ≤ sz → wp (loadFrom pages read d addr segment offset filesz 0
        (addressPages + 1)) (fun _ t => I d sz t) E s)
    {d : PgDir ld} {sz : Nat} {s : σ} (off i n : Nat) (start : I d sz s) :
    wp (loadSegments pages read d sz off i n) (fun r t => L r.1 t ∧
      ∀ size, r.2 = some size → I r.1 size t) E s := by
  induction n generalizing d sz s off i with
  | zero =>
    refine wp_ret ⟨leave start, ?_⟩
    rintro size ⟨⟩
    exact start
  | succ n ih =>
    have bad : ∀ {d t}, L d t → wp (pure (d, none)) (fun r t => L r.1 t ∧
        ∀ size, r.2 = some size → I r.1 size t) E t := fun left => wp_ret ⟨left, nofun⟩
    rw [loadSegments]
    apply wp_seq (reads _ _ _ start)
    rintro ⟨count, bytes⟩ t start
    dsimp only
    obtain ⟨vaddrSmall, memszSmall, -⟩ := progHdr_words bytes
    generalize progHdr bytes = ph at *
    split
    · exact bad (leave start)
    · split
      · exact ih _ _ start
      · split
        · exact bad (leave start)
        · split
          · exact bad (leave start)
          · rename_i sizes nowrap
            apply wp_seq (grows _ start)
            rintro ⟨d1, sz1⟩ t1 ⟨left, grown⟩
            split
            · exact bad left
            · rename_i nonzero
              obtain ⟨covers, start1⟩ := grown nonzero
              split
              · exact bad left
              · rename_i aligned
                have inside : ph.vaddr + ph.filesz ≤ sz1 := by
                  unfold word at nowrap covers
                  omega
                rw [loaduvm, if_neg aligned]
                apply wp_seq (loads i ph.off start1 (Decidable.not_not.mp aligned) inside)
                intro loaded t2 start2
                cases loaded with
                | false => exact bad (leave start2)
                | true => exact ih _ _ start2

end Reader

/-- Reading a file that is known beforehand. -/
def readImage (img : Image) (call : ReadCall) (off n : Nat) : Prog (Kmem ld) Stop (Int × Bytes) :=
  pure (img.read call off n)

/-- A C string as the bytes of a buffer. -/
def cString (s : List UInt8) : Bytes := fun k => s.getD k 0

/-- An array of words as the bytes of a buffer. -/
def wordBytes (words : List Nat) : Bytes := fun k =>
  UInt8.ofNat (words.getD (k / 4) 0 / 256 ^ (k % 4))

/-- Unsigned subtraction. -/
def wordSub (a b : Nat) : Nat := word (a + (2 ^ 32 - word b))

/-- The loop that pushes the argument strings; `pointers` are the entries of `ustack`
written so far. -/
def pushArgs (d : PgDir ld) (argc sp : Nat) (pointers : List Nat) :
    List (List UInt8) → Prog (Kmem ld) Stop (Option (Nat × List Nat))
  | [] => return some (sp, pointers)
  | s :: rest => do
    if argc ≥ maxArg then
      return none
    else
      let sp := wordSub sp (s.length + 1) / 4 * 4
      if ← copyout d sp (cString s) (s.length + 1) then
        pushArgs d (argc + 1) sp (pointers ++ [sp]) rest
      else
        return none

/-- The stack block below the strings: a fake return address, argc, argv and the pointers. -/
def ustack (argc sp : Nat) (pointers : List Nat) : List Nat :=
  [0xffffffff, argc, wordSub sp ((argc + 1) * 4)] ++ pointers ++ [0]

/-- An address space ready to be committed. -/
structure Loaded (ld : Link) where
  pgdir : PgDir ld
  sz : Nat
  entry : Nat
  sp : Nat

/-- The arguments, once guard and stack pages are there. -/
def pushStack (d : PgDir ld) (sz entry : Nat) (argv : List (List UInt8)) :
    Prog (Kmem ld) Stop (PgDir ld × Option (Loaded ld)) := do
  match ← pushArgs d 0 sz [] argv with
  | none => return (d, none)
  | some (sp, pointers) =>
    let argc := pointers.length
    let block := ustack argc sp pointers
    let sp := wordSub sp ((3 + argc + 1) * 4)
    if ← copyout d sp (wordBytes block) ((3 + argc + 1) * 4) then
      return (d, some { pgdir := d, sz, entry, sp })
    else
      return (d, none)

/-- Segments, guard page and stack page; no size where the source goes to `bad`. -/
def loadSpace (img : Image) (elf : ElfHdr) (d : PgDir ld) :
    Prog (Kmem ld) Stop (PgDir ld × Option Nat) := do
  let (d, loaded) ← loadSegments (fun m => m) (readImage img) d 0 elf.phoff 0 elf.phnum
  match loaded with
  | none => return (d, none)
  | some sz =>
    let (d, sz) ← allocuvm d (pgRoundUp sz) (word (pgRoundUp sz + 2 * pgSize))
    if sz = 0 then
      return (d, none)
    else
      let d ← clearpteu d (wordSub sz (2 * pgSize))
      return (d, some sz)

/-- `exec` up to the arguments: the headers, the directory and the size. -/
def loadPhase (img : Image) : Prog (Kmem ld) Stop (Option (ElfHdr × PgDir ld × Nat)) := do
  let (count, bytes) := img.read .header 0 elfHdrSize
  let elf := elfHdr bytes
  if count ≠ elfHdrSize then
    return none
  else if elf.magic ≠ elfMagic then
    return none
  else
    match ← setupkvm with
    | none => return none
    | some d =>
      let (d, loaded) ← loadSpace img elf d
      match loaded with
      | none =>
        freevm (some d) true
        return none
      | some sz => return some (elf, d, sz)

/-- The arguments, on what the loading phase left. -/
def pushPhase (argv : List (List UInt8)) :
    Option (ElfHdr × PgDir ld × Nat) → Prog (Kmem ld) Stop (Option (Loaded ld))
  | none => return none
  | some (elf, d, sz) => do
    let (d, built) ← pushStack d sz elf.entry argv
    match built with
    | none =>
      freevm (some d) true
      return none
    | some image => return some image

/-- `exec` up to the point where it commits to the new image. -/
def buildImage (img : Image) (argv : List (List UInt8)) :
    Prog (Kmem ld) Stop (Option (Loaded ld)) :=
  loadPhase img >>= pushPhase argv

section Counts
variable (a : Nat) (k : Kmem ld)

theorem loadFrom_count (img : Image) (d : PgDir ld) (addr segment offset sz i fuel : Nat) :
    wp (loadFrom (fun m => m) (readImage img) d addr segment offset sz i fuel)
      (fun _ k' => freeCount a k' = freeCount a k) anyStop k := by
  induction fuel generalizing k i with
  | zero => exact wp_fail True.intro
  | succ fuel ih =>
    rw [loadFrom]
    split
    · rw [walkpgdir_find, pure_bind]
      cases present (d.pde (pdx (word (addr + i)))) with
      | false => exact wp_fail True.intro
      | true =>
        rw [if_pos rfl]
        dsimp only [readImage]
        rw [pure_bind]
        apply wp_seq (storeBytes_count a k _ _ _ _)
        intro _ k1 same
        rw [← same]
        split
        · exact wp_ret rfl
        · exact ih k1 _
    · exact wp_ret rfl

theorem pushStack_keeps {d : PgDir ld} {I : Kmem ld → Prop} {k : Kmem ld} (stable : Stable d I)
    (sz entry : Nat) (argv : List (List UInt8)) (start : I k) :
    wp (pushStack d sz entry argv) (fun r k' => I k' ∧ r.1 = d ∧
      ∀ image, r.2 = some image → image.pgdir = d ∧ image.sz = sz) anyStop k := by
  have small : ∀ sp n, wordSub sp n < 2 ^ 32 := fun sp n => Nat.mod_lt _ (by decide)
  have strings : ∀ (argc sp : Nat) (pointers : List Nat) (k : Kmem ld), I k →
      wp (pushArgs d argc sp pointers argv) (fun _ k' => I k') anyStop k := by
    intro argc sp pointers k start
    induction argv generalizing argc sp pointers k with
    | nil => exact wp_ret start
    | cons s rest ih =>
      rw [pushArgs]
      split
      · exact wp_ret start
      · have next := small sp (s.length + 1)
        apply wp_seq (stable.copyout _ _ (by omega) start)
        intro copied k1 kept
        cases copied with
        | false => exact wp_ret kept
        | true => exact ih _ _ _ k1 kept
  apply wp_seq (strings 0 sz [] k start)
  intro pushed k1 kept
  cases pushed with
  | none => exact wp_ret ⟨kept, rfl, by simp⟩
  | some result =>
    apply wp_seq (stable.copyout _ _ (small _ _) kept)
    intro copied k2 kept
    cases copied with
    | false => exact wp_ret ⟨kept, rfl, by simp⟩
    | true =>
      refine wp_ret ⟨kept, rfl, ?_⟩
      rintro image ⟨⟩
      exact ⟨rfl, rfl⟩

theorem stable_count (d : PgDir ld) : Stable d fun k' => freeCount a k' = freeCount a k :=
  fun k' _ _ _ _ _ _ _ _ start => wp_mono (storeBytes_count a k' _ _ _ _) fun _ _ same => same.trans start

/-- Whatever the file says, loading takes pages from the list into the new directory, and the
size stays below KERNBASE. -/
theorem loadSpace_count (img : Image) (elf : ElfHdr) (d : PgDir ld) :
    wp (loadSpace img elf d) (fun r k' => Kept a d k k' r.1 ∧
      ∀ sz, r.2 = some sz → sz < kernBase) anyStop k := by
  have segments : wp (loadSegments (fun m => m) (readImage img) d 0 elf.phoff 0 elf.phnum) _ anyStop k :=
    wp_loadSegments_inv (I := fun d' sz k' => Kept a d k k' d' ∧ sz < kernBase)
    (L := fun d' k' => Kept a d k k' d') (fun start => start.1) (fun _ _ _ start => wp_ret start)
    (fun {d1 _ k1} newsz start => by
      apply wp_mono (allocuvm_count a d1 k1 _ newsz)
      rintro r k2 ⟨kept, sizes⟩
      unfold Kept at *
      exact ⟨by omega, fun nonzero => ⟨by omega, by omega, by omega⟩⟩)
    (fun {d1 _ k1 _ _} segment offset start _ _ => by
      apply wp_mono (loadFrom_count a k1 img d1 _ segment offset _ 0 _)
      intro _ k2 same
      unfold Kept at *
      exact ⟨by omega, start.2⟩)
    _ _ _ ⟨rfl, by decide⟩
  apply wp_seq segments
  rintro ⟨d1, loaded⟩ k1 ⟨kept, bound⟩
  cases loaded with
  | none => exact wp_ret ⟨kept, by simp⟩
  | some sz =>
    have small := (bound sz rfl).2
    apply wp_seq (allocuvm_count a d1 k1 _ _)
    rintro ⟨d2, size⟩ k2 ⟨kept2, sizes⟩
    have room : word (pgRoundUp sz + 2 * pgSize) = pgRoundUp sz + 2 * pgSize := by
      rw [pgRoundUp_eq (Nat.le_of_lt small)]
      unfold word
      unfold kernBase pgSize at *
      omega
    rw [room] at sizes
    dsimp only at kept sizes kept2 ⊢
    unfold Kept at *
    split
    · exact wp_ret ⟨by dsimp only; omega, by simp⟩
    · have guard : wordSub size (2 * pgSize) < kernBase := by
        unfold wordSub word
        omega
      apply wp_seq (clearpteu_count a d2 k2 guard)
      intro d3 k3 kept3
      unfold Kept at kept3
      refine wp_ret ⟨by dsimp only; omega, ?_⟩
      rintro sz ⟨⟩
      omega

/-- Occurrences of `a` in an address space that may not have been built. -/
def optLoaded (a : Nat) : Option (Loaded ld) → Nat
  | none => 0
  | some image => pagesOf a image.pgdir

theorem pushPhase_count (argv : List (List UInt8)) (elf : ElfHdr) (d : PgDir ld) (sz : Nat) :
    wp (pushPhase argv (some (elf, d, sz))) (fun r k' =>
      freeCount a k' + optLoaded a r = freeCount a k + pagesOf a d ∧
      ∀ image, r = some image → image.pgdir = d ∧ image.sz = sz) anyStop k := by
  apply wp_seq (pushStack_keeps (stable_count a k d) sz elf.entry argv rfl)
  rintro ⟨d', built⟩ k1 ⟨same, rfl, image⟩
  cases built with
  | none =>
    apply wp_seq (freevm_count a d' k1 (by simp))
    intro _ k2 freed
    refine wp_ret ⟨?_, by simp⟩
    simp only [optLoaded]
    omega
  | some loaded =>
    refine wp_ret ⟨?_, ?_⟩
    · simp only [optLoaded, (image loaded rfl).1]
      omega
    · rintro image' ⟨⟩
      exact image loaded rfl

/-- The new image is made of pages of the list; a failed attempt returns them. -/
theorem buildImage_count (img : Image) (argv : List (List UInt8)) :
    wp (buildImage img argv) (fun r k' => freeCount a k' + optLoaded a r = freeCount a k ∧
      ∀ image, r = some image → image.sz < kernBase) anyStop k := by
  have loads : wp (loadPhase img) (fun r k' =>
      freeCount a k' + optPages a (r.map fun found => found.2.1) = freeCount a k ∧
      ∀ found, r = some found → found.2.2 < kernBase) anyStop k := by
    unfold loadPhase
    dsimp only
    split
    · exact wp_ret ⟨rfl, by simp⟩
    · split
      · exact wp_ret ⟨rfl, by simp⟩
      · apply wp_seq (setupkvm_count a k)
        rintro r k1 ⟨count, -⟩
        cases r with
        | none => exact wp_ret ⟨count, by simp⟩
        | some d =>
          apply wp_seq (loadSpace_count a k1 img _ d)
          rintro ⟨d', loaded⟩ k2 ⟨kept, small⟩
          unfold Kept at kept
          simp only [optPages] at count kept
          cases loaded with
          | none =>
            apply wp_seq (freevm_count a d' k2 (by simp))
            intro _ k3 freed
            refine wp_ret ⟨?_, by simp⟩
            simp only [Option.map_none, optPages]
            omega
          | some sz =>
            refine wp_ret ⟨?_, ?_⟩
            · simp only [Option.map_some, optPages]
              omega
            · rintro found ⟨⟩
              exact small sz rfl
  apply wp_seq loads
  rintro r k1 ⟨count, small⟩
  cases r with
  | none => exact wp_ret ⟨count, by simp⟩
  | some found =>
    obtain ⟨elf, d, sz⟩ := found
    apply wp_mono (pushPhase_count a k1 argv elf d sz)
    rintro r k2 ⟨count2, image⟩
    simp only [Option.map_some, optPages] at count
    refine ⟨by omega, fun loaded here => ?_⟩
    rw [(image loaded here).2]
    exact small _ rfl

end Counts

end ColorXv6.Vm.Exec
