import ColorXv6.Vm.Boot
import ColorXv6.Vm.Space

/-!
The loading phase of exec.c, from the ELF header to the guard page, on a file of
arbitrary bytes. All pages below the size reached so far are mapped and none
above, whatever the order of the segments; that keeps `loaduvm` on mapped pages
and `allocuvm` on unmapped ones. The contents of the new address space are those
of an all-zero memory on which the segments are laid one after the other.
-/
namespace ColorXv6.Vm.ExecLoad
open Lib.LittleEndian Lib.Wp Mmu Kalloc PageDir Footprint Mapping Exec Space Boot

/-- `readi` on a file of `size` bytes, for every call. -/
def fileImage (content : Bytes) (size : Nat) : Image where
  read _ off n :=
    if off > size ∨ word (off + n) < off then (-1, fun _ => 0)
    else if word (off + n) > size then ((size - off : Nat), fun k => content (off + k))
    else (n, fun k => content (off + k))

variable {size sz x : Nat} {v : Bytes}

/-- A read that returned all it was asked for is inside the file. -/
theorem fileImage_full (content : Bytes) {off n : Nat} (call : ReadCall) (fits : size < 2 ^ 32)
    (small : n < 2 ^ 32) (full : ((fileImage content size).read call off n).1 = n) :
    off + n ≤ size ∧ ((fileImage content size).read call off n).2 = fun k => content (off + k) := by
  unfold fileImage word at *
  dsimp only at *
  split at full
  · simp at full
  · rename_i inside
    rw [if_neg inside]
    split at full
    · dsimp only at full
      omega
    · rename_i whole
      rw [if_neg whole]
      exact ⟨by omega, rfl⟩

variable {ld : Link}

/-- Every page below `sz` is mapped for the user and no other; the kernel's part is in
place. -/
structure Filled (d : PgDir ld) (sz : Nat) : Prop where
  tabled : Tabled d
  small : sz ≤ kernBase
  below : ∀ x, IsPage x → x < sz → ∃ f : Frame ld, d.pteOf x = f.pa ||| (pteW ||| pteU) ||| pteP
  above : ∀ x, IsPage x → sz ≤ x → x < kernBase → present (d.pteOf x) = false
  kernel : ∀ x, IsPage x → kernBase ≤ x → d.pteOf x = kernelPte ld x

/-- What is left when the source goes to `bad`. -/
structure Abandoned (d : PgDir ld) : Prop where
  tabled : Tabled d
  backed : Backed d
  kernel : ∀ x, IsPage x → kernBase ≤ x → d.pteOf x = kernelPte ld x

variable {d : PgDir ld} {k : Kmem ld}

theorem Filled.there (filled : Filled d sz) (page : IsPage x)
    (below : x < sz) : present (d.pteOf x) = true := by
  obtain ⟨f, entry⟩ := filled.below x page below
  rw [entry, present_pte]

theorem Filled.backed (filled : Filled d sz) : Backed d := by
  intro x page user there
  by_cases below : x < sz
  · obtain ⟨f, entry⟩ := filled.below x page below
    exact ⟨f, by rw [entry, pteAddr_pte f.aligned f.pa_lt (by decide)]⟩
  · simp [filled.above x page (by omega) user] at there

theorem Filled.abandoned (filled : Filled d sz) : Abandoned d :=
  ⟨filled.tabled, filled.backed, filled.kernel⟩

/-- A directory without user pages. -/
theorem Filled.empty (only : KernelOnly d) : Filled d 0 where
  tabled := only.tabled
  small := Nat.zero_le _
  below x _ low := absurd low (Nat.not_lt_zero x)
  above x page _ low := by
    rw [only.user x page low]
    rfl
  kernel := only.kernel

/-- The byte at a user address. -/
def byteAt (d : PgDir ld) (k : Kmem ld) (va : Nat) : UInt8 :=
  k.mem (pteAddr (d.pteOf (pgRoundDown va))) (va % pgSize)

/-- The mapped pages below `sz` show the bytes of `v`, which is zero from `sz` on. -/
structure Shows (d : PgDir ld) (k : Kmem ld) (sz : Nat) (v : Bytes) : Prop where
  bytes : ∀ va, pgRoundDown va < sz → byteAt d k va = v va
  zero : ∀ va, sz ≤ va → v va = 0

/-- No page is in two places. -/
def Exclusive (d : PgDir ld) (k : Kmem ld) : Prop := ∀ a, freeCount a k + pagesOf a d ≤ 1

theorem Exclusive.pages (exclusive : Exclusive d k) (a : Nat) :
    pagesOf a d ≤ 1 := Nat.le_trans (Nat.le_add_left _ _) (exclusive a)

/-- Memory with the first `n` bytes of page `pa` replaced. -/
def fillPage (k : Kmem ld) (pa n : Nat) (src : Bytes) : Kmem ld := { k with
  mem := fun p => if p = pa then putBytes (k.mem pa) 0 n src else k.mem p }

/-- Storing into one mapped page. -/
theorem Shows.store {n : Nat} (shows : Shows d k sz v) (src : Bytes) (filled : Filled d sz)
    (exclusive : Exclusive d k) (page : IsPage x) (inside : x + n ≤ sz) (nonempty : 0 < n)
    (small : n ≤ pgSize) :
    Shows d (fillPage k (pteAddr (d.pteOf x)) n src) sz (putBytes v x n src) := by
  have user := filled.small
  have aligned := page.2
  constructor
  · intro va below
    have old := shows.bytes va below
    have isPage : IsPage (pgRoundDown va) :=
      ⟨by unfold kernBase at user; omega, pgRoundDown_aligned va⟩
    unfold byteAt fillPage at *
    by_cases here : pgRoundDown va = x
    · have place : va = x + va % pgSize := by
        rw [← here]
        unfold pgRoundDown pgSize
        omega
      rw [here] at old ⊢
      dsimp only
      rw [if_pos rfl]
      by_cases low : va % pgSize < n
      · rw [place, putBytes_inside v x n _ src low, ← place]
        simpa using putBytes_inside (k.mem (pteAddr (d.pteOf x))) 0 n (va % pgSize) src low
      · rw [putBytes_outside _ 0 n _ src (by omega), putBytes_outside v x n va src (by omega), old]
    · have other : pteAddr (d.pteOf (pgRoundDown va)) ≠ pteAddr (d.pteOf x) := by
        intro same
        exact here (frames_distinct exclusive.pages page isPage (by omega) (by omega)
          (filled.there page (by omega)) (filled.there isPage below) same)
      have outside : va < x ∨ x + n ≤ va := by
        unfold pgRoundDown at here
        unfold pgSize at *
        omega
      dsimp only
      rw [if_neg other, putBytes_outside v x n va src outside, old]
  · intro va high
    rw [putBytes_outside v x n va src (by omega)]
    exact shows.zero va high

/-- Two stores that follow each other are one. -/
theorem putBytes_append (v : Bytes) {n m : Nat} (src : Bytes) :
    putBytes (putBytes v x n src) (x + n) m (fun j => src (n + j)) = putBytes v x (n + m) src := by
  funext va
  simp only [putBytes]
  by_cases second : x + n ≤ va ∧ va < x + n + m
  · rw [if_pos second, if_pos (by omega)]
    congr 1
    omega
  · rw [if_neg second]
    by_cases first : x ≤ va ∧ va < x + n
    · rw [if_pos first, if_pos (by omega)]
    · rw [if_neg first, if_neg (by omega)]

/-- The loop of `loaduvm` at byte `i` of a segment inside the mapped pages. -/
theorem wp_loadFrom {content : Bytes} (fits : size < 2 ^ 32) {addr segment offset filesz i : Nat}
    (fuel : Nat) (k : Kmem ld) (filled : Filled d sz) (exclusive : Exclusive d k)
    (shows : Shows d k sz v) (aligned : addr % pgSize = 0) (step : i % pgSize = 0)
    (inside : addr + filesz ≤ sz) (room : (filesz - i + (pgSize - 1)) / pgSize < fuel)
    (started : i < filesz → offset + i < 2 ^ 32) :
    wp (loadFrom (fun m => m) (readImage (fileImage content size)) d addr segment offset filesz i
        fuel) (fun r k' =>
      k'.freelist = k.freelist ∧ (r = true → Shows d k' sz
        (putBytes v (addr + i) (filesz - i) fun j => content (offset + i + j)))) noStop k := by
  have user := filled.small
  induction fuel generalizing k i v with
  | zero => exact absurd room (Nat.not_lt_zero _)
  | succ fuel ih =>
    rw [loadFrom]
    split
    · rename_i more
      have wordAddr : word (addr + i) = addr + i := by
        unfold word
        unfold kernBase at user
        omega
      have wordOff : word (offset + i) = offset + i := Nat.mod_eq_of_lt (started more)
      have page : IsPage (addr + i) := by
        unfold kernBase at user
        unfold IsPage
        unfold pgSize at *
        omega
      have table : present (d.pde (pdx (addr + i))) = true := by
        cases there : present (d.pde (pdx (addr + i))) with
        | true => rfl
        | false =>
          have mapped := filled.there page (by omega)
          simp [PgDir.pteOf, there] at mapped
      have same : d.pgtab (pdx (addr + i)) (ptx (addr + i)) = d.pteOf (addr + i) := by
        simp [PgDir.pteOf, table]
      rw [wordAddr, wordOff, walkpgdir_find, pure_bind, if_pos table]
      dsimp only [readImage]
      rw [pure_bind, same, wp_bind, storeBytes, wp_modify]
      split
      · exact wp_ret ⟨rfl, by simp⟩
      · rename_i full
        have count : ((fileImage content size).read (.segment segment i) (offset + i)
            (min (filesz - i) pgSize)).1 = (min (filesz - i) pgSize : Nat) := by simpa using full
        obtain ⟨end_, bytes⟩ := fileImage_full content _ fits
          (Nat.lt_of_le_of_lt (Nat.min_le_right _ _) (by decide)) count
        have stored := shows.store (fun j => content (offset + i + j)) filled exclusive page
          (n := min (filesz - i) pgSize) (by unfold pgSize at *; omega) (by unfold pgSize; omega)
          (Nat.min_le_right _ _)
        have next : word (i + pgSize) = i + pgSize := word_next (by omega)
        have nextStep : (i + pgSize) % pgSize = 0 := by simp [step]
        rw [next, count, bytes, Int.toNat_natCast, Nat.min_self]
        apply wp_mono (ih (fillPage k (pteAddr (d.pteOf (addr + i))) (min (filesz - i) pgSize) _)
          exclusive stored nextStep (by unfold pgSize at *; omega) (by unfold pgSize at *; omega))
        rintro r k' ⟨list, loaded⟩
        refine ⟨list, fun ok => ?_⟩
        have result := loaded ok
        by_cases last : filesz ≤ i + pgSize
        · have none : filesz - (i + pgSize) = 0 := by omega
          have all : min (filesz - i) pgSize = filesz - i := by omega
          rw [none, all] at result
          have nothing : ∀ (w : Bytes) (o : Nat) (s : Bytes), putBytes w o 0 s = w := by
            intro w o s
            funext a
            exact putBytes_outside w o 0 a s (by omega)
          rwa [nothing] at result
        · have whole : min (filesz - i) pgSize = pgSize := by omega
          rw [whole] at result
          have joined := putBytes_append v (x := addr + i) (n := pgSize) (m := filesz - (i + pgSize))
            fun j => content (offset + i + j)
          have total : pgSize + (filesz - (i + pgSize)) = filesz - i := by omega
          rw [total] at joined
          rw [← joined]
          simpa [Nat.add_assoc] using result
    · rename_i done
      have none : filesz - i = 0 := by omega
      refine wp_ret ⟨rfl, fun _ => ?_⟩
      rw [none]
      have nothing : putBytes v (addr + i) 0 (fun j => content (offset + i + j)) = v := by
        funext a
        exact putBytes_outside v _ 0 a _ (by omega)
      rwa [nothing]

/-- Extending the mapped part, or giving up. -/
theorem wp_extend (newsz : Nat) (k : Kmem ld) (filled : Filled d sz) (exclusive : Exclusive d k) :
    wp (allocuvm d sz newsz) (fun r k' => Abandoned r.1 ∧ (r.2 ≠ 0 → sz ≤ r.2 ∧ newsz ≤ r.2 ∧
      (r.2 = newsz ∨ newsz < sz) ∧ Filled r.1 r.2 ∧ Exclusive r.1 k' ∧
      (Took k k' ∧ Grown d r.1 k' (pgRoundUp sz) r.2 ∨ r.1 = d ∧ k' = k ∧ r.2 = sz)))
      noStop k := by
  have user := filled.small
  have up := pgRoundUp_eq user
  apply wp_mono (wp_also (wp_allocuvm d newsz k ?_
    fun bad => bad filled.backed) (wp_forall fun a => allocuvm_count a d k sz newsz))
  · rintro ⟨d', size⟩ k' ⟨⟨tabled, -, outcome⟩, kept⟩
    have still : Exclusive d' k' := by
      intro a
      have moved := kept a
      have bound := exclusive a
      unfold Kept at moved
      dsimp only at moved
      omega
    rcases outcome with ⟨rfl, small, grows, took, grown⟩ | ⟨rfl, less, rfl, rfl⟩ | ⟨rfl, gone⟩
    · have filled' : Filled d' size := by
        refine ⟨tabled filled.tabled, Nat.le_of_lt small, ?_, ?_, ?_⟩
        · intro x page below
          have aligned := page.2
          by_cases before : x < sz
          · rw [grown.outside x page (by omega)]
            exact filled.below x page before
          · obtain ⟨f, entry, -⟩ := grown.inside x page (by unfold pgSize at *; omega) below
            exact ⟨f, entry⟩
        · intro x page above low
          rw [grown.outside x page (by omega)]
          exact filled.above x page (by omega) low
        · intro x page high
          rw [grown.outside x page (by omega)]
          exact filled.kernel x page high
      exact ⟨filled'.abandoned, fun _ => ⟨grows, Nat.le_refl _, Or.inl rfl, filled', still,
        Or.inl ⟨took, grown⟩⟩⟩
    · exact ⟨filled.abandoned, fun _ => ⟨Nat.le_refl _, Nat.le_of_lt less, Or.inr less, filled, still,
        Or.inr ⟨rfl, rfl, rfl⟩⟩⟩
    · refine ⟨?_, by simp⟩
      rcases gone with rfl | ⟨small, unmapped⟩
      · exact filled.abandoned
      · refine ⟨tabled filled.tabled, unmapped.backed filled.backed, ?_⟩
        intro x page high
        rw [unmapped.outside x page (by omega)]
        exact filled.kernel x page high
  · rintro small ⟨x, page, above, below, there⟩
    simp [filled.above x page (by omega) (by omega)] at there

/-- New pages are zeros, old ones show what they did. -/
theorem Shows.grown {d' : PgDir ld} {k' : Kmem ld} (shows : Shows d k sz v) (filled : Filled d sz)
    (exclusive : Exclusive d k) (grows : sz ≤ size) (small : size ≤ kernBase) (took : Took k k')
    (grown : Grown d d' k' (pgRoundUp sz) size) : Shows d' k' size v := by
  have user := filled.small
  have up := pgRoundUp_eq user
  constructor
  · intro va below
    have page : IsPage (pgRoundDown va) :=
      ⟨by unfold kernBase at small; omega, pgRoundDown_aligned va⟩
    by_cases before : pgRoundDown va < sz
    · have unlisted := user_unlisted exclusive (Nat.lt_of_lt_of_le before user)
        (filled.there page before)
      rw [← shows.bytes va before]
      unfold byteAt
      rw [grown.outside _ page (by omega), took.outside _ unlisted]
    · have aligned := page.2
      have later := pgRoundDown_le va
      obtain ⟨f, entry, zero⟩ := grown.inside _ page (by unfold pgSize at *; omega) below
      unfold byteAt
      rw [entry, pteAddr_pte f.aligned f.pa_lt (by decide), zero, shows.zero va (by omega)]
  · intro va high
    exact shows.zero va (by omega)

/-- Growing the mapped part, or giving up. -/
theorem wp_grow (newsz : Nat) (k : Kmem ld) (filled : Filled d sz) (exclusive : Exclusive d k)
    (shows : Shows d k sz v) :
    wp (allocuvm d sz newsz) (fun r k' => Abandoned r.1 ∧ (r.2 ≠ 0 → sz ≤ r.2 ∧ newsz ≤ r.2 ∧
      (r.2 = newsz ∨ newsz < sz) ∧ Filled r.1 r.2 ∧ Exclusive r.1 k' ∧ Shows r.1 k' r.2 v))
      noStop k := by
  apply wp_mono (wp_extend newsz k filled exclusive)
  rintro ⟨d', size⟩ k' ⟨abandoned, done⟩
  refine ⟨abandoned, fun nonzero => ?_⟩
  obtain ⟨grows, covers, exact_, filled', exclusive', outcome⟩ := done nonzero
  refine ⟨grows, covers, exact_, filled', exclusive', ?_⟩
  rcases outcome with ⟨took, grown⟩ | ⟨rfl, rfl, rfl⟩
  · exact shows.grown filled exclusive grows filled'.small took grown
  · exact shows

/-- The program headers of a file, `n` of them from offset `off` on. -/
def headers (content : Bytes) (off : Nat) : Nat → List ProgHdr
  | 0 => []
  | n + 1 => progHdr (fun k => content (off + k)) :: headers content (word (off + progHdrSize)) n

/-- The headers that `exec` loads. -/
def isLoad (ph : ProgHdr) : Bool := ph.type = elfProgLoad ∧ ph.memsz ≠ 0

/-- A memory with one more segment laid on it. -/
def lay (content : Bytes) (v : Bytes) (ph : ProgHdr) : Bytes :=
  putBytes v ph.vaddr ph.filesz fun j => content (ph.off + j)

/-- What `exec` checks of a segment, in an address space of `sz` bytes. -/
def Placed (sz : Nat) (ph : ProgHdr) : Prop :=
  ph.vaddr % pgSize = 0 ∧ ph.filesz ≤ ph.memsz ∧ ph.vaddr + ph.memsz ≤ sz

theorem Placed.mono {sz' : Nat} {ph : ProgHdr} (placed : Placed sz ph) (grows : sz ≤ sz') :
    Placed sz' ph := ⟨placed.1, placed.2.1, Nat.le_trans placed.2.2 grows⟩

/-- The loop over the program headers. -/
theorem wp_loadSegments {content : Bytes} (fits : size < 2 ^ 32) (off i n : Nat) (k : Kmem ld)
    (filled : Filled d sz) (exclusive : Exclusive d k) (shows : Shows d k sz v) :
    wp (loadSegments (fun m => m) (readImage (fileImage content size)) d sz off i n) (fun r k' =>
      Abandoned r.1 ∧ ∀ sz', r.2 = some sz' → sz ≤ sz' ∧ Filled r.1 sz' ∧ Exclusive r.1 k' ∧
        Shows r.1 k' sz' (((headers content off n).filter isLoad).foldl (lay content) v) ∧
        ∀ ph ∈ (headers content off n).filter isLoad, Placed sz' ph) noStop k := by
  induction n generalizing d k sz v off i with
  | zero =>
    refine wp_ret ⟨filled.abandoned, ?_⟩
    rintro sz' ⟨⟩
    exact ⟨Nat.le_refl _, filled, exclusive, shows, by simp [headers]⟩
  | succ n ih =>
    have bad : ∀ (d : PgDir ld) (k : Kmem ld), Abandoned d →
        wp (pure (d, none) : Prog (Kmem ld) Stop (PgDir ld × Option Nat))
          (fun r k' => Abandoned r.1 ∧ ∀ sz', r.2 = some sz' → sz ≤ sz' ∧ Filled r.1 sz' ∧
            Exclusive r.1 k' ∧
            Shows r.1 k' sz' (((headers content off (n + 1)).filter isLoad).foldl (lay content) v) ∧
            ∀ ph ∈ (headers content off (n + 1)).filter isLoad, Placed sz' ph) noStop k :=
      fun d k abandoned => wp_ret ⟨abandoned, by simp⟩
    rw [loadSegments, readImage, pure_bind]
    dsimp only
    split
    · exact bad d k filled.abandoned
    · rename_i full
      obtain ⟨-, bytes⟩ := fileImage_full content (.program i) fits
        (by decide : progHdrSize < 2 ^ 32) (Decidable.not_not.mp full)
      rw [bytes]
      have whole : headers content off (n + 1) =
        progHdr (fun k => content (off + k)) :: headers content (word (off + progHdrSize)) n := rfl
      obtain ⟨vaddrSmall, memszSmall, offSmall⟩ := progHdr_words fun k => content (off + k)
      generalize progHdr (fun k => content (off + k)) = ph at *
      split
      · rename_i skipped
        have other : isLoad ph = false := by
          simp only [isLoad, decide_eq_false_iff_not]
          tauto
        rw [whole, List.filter_cons_of_neg (by simp [other])]
        exact ih _ _ k filled exclusive shows
      · rename_i loads
        have load : isLoad ph = true := by
          simp only [isLoad, decide_eq_true_eq]
          tauto
        split
        · exact bad d k filled.abandoned
        · split
          · exact bad d k filled.abandoned
          · rename_i sizes nowrap
            have top : word (ph.vaddr + ph.memsz) = ph.vaddr + ph.memsz := by
              unfold word at nowrap ⊢
              omega
            rw [top]
            apply wp_seq (wp_grow (ph.vaddr + ph.memsz) k filled exclusive shows)
            rintro ⟨d1, sz1⟩ k1 ⟨abandoned, grown⟩
            split
            · exact bad d1 k1 abandoned
            · rename_i nonzero
              obtain ⟨grows, covers, -, filled1, exclusive1, shows1⟩ := grown nonzero
              split
              · exact bad d1 k1 abandoned
              · rename_i aligned
                have start : ph.vaddr % pgSize = 0 := Decidable.not_not.mp aligned
                have placed : Placed sz1 ph := ⟨start, by omega, covers⟩
                have user := filled1.small
                unfold loaduvm
                rw [if_neg aligned]
                apply wp_seq (wp_loadFrom fits _ k1 filled1 exclusive1 shows1 start (Nat.zero_mod _)
                  (by omega) (loop_room (by omega)) (fun _ => by omega))
                rintro loaded k2 ⟨list, shown⟩
                have exclusive2 : Exclusive d1 k2 := by
                  intro a
                  have bound := exclusive1 a
                  unfold freeCount at bound ⊢
                  rwa [list]
                cases loaded with
                | false => exact bad d1 k2 abandoned
                | true =>
                  have shows2 := shown rfl
                  apply wp_mono (ih _ _ k2 filled1 exclusive2 shows2)
                  rintro r k3 ⟨abandoned3, done⟩
                  refine ⟨abandoned3, ?_⟩
                  intro sz' found
                  obtain ⟨more, filled3, exclusive3, shows3, others⟩ := done sz' found
                  rw [whole, List.filter_cons_of_pos load]
                  refine ⟨Nat.le_trans grows more, filled3, exclusive3, shows3, ?_⟩
                  intro other member
                  rcases List.mem_cons.mp member with rfl | later
                  · exact placed.mono more
                  · exact others other later

/-- A directory is filled up to the end of its last page. -/
theorem Filled.roundUp (filled : Filled d sz) :
    Filled d (pgRoundUp sz) := by
  have user := filled.small
  have up := pgRoundUp_eq user
  refine ⟨filled.tabled, ?_, ?_, ?_, filled.kernel⟩
  · unfold kernBase at *
    omega
  · intro x page below
    have aligned := page.2
    exact filled.below x page (by unfold pgSize at *; omega)
  · intro x page above low
    exact filled.above x page (by omega) low

theorem Shows.roundUp (shows : Shows d k sz v)
    (user : sz ≤ kernBase) : Shows d k (pgRoundUp sz) v := by
  have up := pgRoundUp_eq user
  constructor
  · intro va below
    have aligned := pgRoundDown_aligned va
    exact shows.bytes va (by unfold pgSize at *; omega)
  · intro va high
    exact shows.zero va (by omega)

theorem userBit_clear (pte : Nat) : userBit (pte &&& (2 ^ 32 - 1 - pteU)) = false := by
  have mask : (2 ^ 32 - 1 - pteU).testBit 2 = false := by decide
  unfold userBit
  rw [Nat.testBit_and, mask, Bool.and_false]

theorem userBit_user (pa : Nat) : userBit (pa ||| (pteW ||| pteU) ||| pteP) = true := by
  have flags : (pteW ||| pteU).testBit 2 = true := by decide
  unfold userBit
  rw [Nat.testBit_or, Nat.testBit_or, flags, Bool.or_true, Bool.true_or]

/-- The kernel's pages are not accessible to the user. -/
theorem userBit_lineEntry (page : IsPage x) (lines : List KMap)
    (known : ∀ m ∈ lines, m.virt % pgSize = 0 ∧ m.physStart % pgSize = 0 ∧
      m.perm.testBit 2 = false) : userBit (lineEntry x 0 lines) = false := by
  induction lines with
  | nil => exact Nat.zero_testBit 2
  | cons m rest ih =>
    obtain ⟨virt, phys, perm⟩ := known m List.mem_cons_self
    have aligned := page.2
    rw [lineEntry]
    split
    · have address : (word (m.physStart + (x - m.virt))).testBit 2 = false := by
        have low : word (m.physStart + (x - m.virt)) % 2 ^ 12 = 0 := by
          unfold word
          unfold pgSize at *
          omega
        have bit := Nat.testBit_mod_two_pow (word (m.physStart + (x - m.virt))) 12 2
        rw [low] at bit
        simpa using bit.symm
      have flag : pteP.testBit 2 = false := by decide
      unfold userBit
      rw [Nat.testBit_or, Nat.testBit_or, address, perm, flag]
      rfl
    · exact ih fun m member => known m (List.mem_cons_of_mem _ member)

theorem userBit_kernelPte (page : IsPage x) : userBit (kernelPte ld x) = false := by
  apply userBit_lineEntry page
  have aligned := ld.data_aligned
  intro m member
  simp only [kmap, List.mem_cons, List.not_mem_nil, or_false] at member
  have flag : pteW.testBit 2 = false := by decide
  simp only [kernLink, kernBase, extMem, physTop, devSpace, v2p, word, pgSize] at *
  rcases member with rfl | rfl | rfl | rfl <;> dsimp only
  · exact ⟨by omega, by omega, flag⟩
  · exact ⟨by omega, by omega, Nat.zero_testBit 2⟩
  · exact ⟨aligned, by omega, flag⟩
  · exact ⟨by omega, by omega, flag⟩

/-- The address space after the loading phase: guard page, stack page and contents. -/
structure Ready (d : PgDir ld) (k : Kmem ld) (sz : Nat) (v : Bytes) : Prop where
  small : sz ≤ kernBase
  guard : present (d.pteOf (sz - 2 * pgSize)) = true ∧ userBit (d.pteOf (sz - 2 * pgSize)) = false
  stack : present (d.pteOf (sz - pgSize)) = true ∧ userBit (d.pteOf (sz - pgSize)) = true
  bytes : ∀ va, pgRoundDown va < sz → byteAt d k va = v va

/-- Clearing the user bit of a mapped page. -/
theorem wp_clearpteu (k : Kmem ld) (page : IsPage x) (there : present (d.pteOf x) = true) :
    wp (clearpteu d x) (fun d' k' => k' = k ∧ d'.pde = d.pde ∧ ∀ y, IsPage y →
      d'.pteOf y = if y = x then d.pteOf x &&& (2 ^ 32 - 1 - pteU) else d.pteOf y) noStop k := by
  have table : present (d.pde (pdx x)) = true := by
    cases found : present (d.pde (pdx x)) with
    | true => rfl
    | false => simp [PgDir.pteOf, found] at there
  have entry : d.pgtab (pdx x) (ptx x) = d.pteOf x := by simp [PgDir.pteOf, table]
  unfold clearpteu
  rw [walkpgdir_find, pure_bind, if_pos table]
  refine wp_ret ⟨rfl, rfl, ?_⟩
  intro y other
  rw [pteOf_setPte d _ page other table, entry]

/-- Which pages are where does not depend on the user bit. -/
theorem clear_addr {d' : PgDir ld} (entries : ∀ y, IsPage y →
      d'.pteOf y = if y = x then d.pteOf x &&& (2 ^ 32 - 1 - pteU) else d.pteOf y)
    {y : Nat} (page : IsPage y) : pteAddr (d'.pteOf y) = pteAddr (d.pteOf y) ∧
      present (d'.pteOf y) = present (d.pteOf y) := by
  rw [entries y page]
  split
  · rename_i here
    rw [here]
    exact ⟨pteAddr_clear _, present_clear _⟩
  · exact ⟨rfl, rfl⟩

theorem Abandoned.clear {d' : PgDir ld} (abandoned : Abandoned d) (user : x < kernBase)
    (tables : d'.pde = d.pde) (entries : ∀ y, IsPage y →
      d'.pteOf y = if y = x then d.pteOf x &&& (2 ^ 32 - 1 - pteU) else d.pteOf y) :
    Abandoned d' where
  tabled i table := by
    rw [tables] at table ⊢
    exact abandoned.tabled i table
  backed y page low there := by
    rw [(clear_addr entries page).2] at there
    rw [(clear_addr entries page).1]
    exact abandoned.backed y page low there
  kernel y page high := by
    rw [entries y page, if_neg (by omega)]
    exact abandoned.kernel y page high

/-- An address space that was loaded from a file. -/
structure Complete (content : Bytes) (elf : ElfHdr) (d : PgDir ld) (k : Kmem ld) (sz : Nat) :
    Prop where
  ready : Ready d k sz
    (((headers content elf.phoff elf.phnum).filter isLoad).foldl (lay content) fun _ => 0)
  placed : ∀ ph ∈ (headers content elf.phoff elf.phnum).filter isLoad, Placed (sz - 2 * pgSize) ph
  exclusive : Exclusive d k
  aligned : sz % pgSize = 0
  two : 2 * pgSize ≤ sz
  mapped : ∀ x, IsPage x → x < sz → present (d.pteOf x) = true
  abandoned : Abandoned d

/-- The whole loading, from a directory without user pages. -/
theorem wp_loadSpace (content : Bytes) (fits : size < 2 ^ 32) (elf : ElfHdr) (k : Kmem ld)
    (only : KernelOnly d) (exclusive : Exclusive d k) :
    wp (loadSpace (fileImage content size) elf d) (fun r k' => Abandoned r.1 ∧
      ∀ sz, r.2 = some sz → Complete content elf r.1 k' sz) noStop k := by
  have start : Filled d 0 := .empty only
  have nothing : Shows d k 0 fun _ => 0 := ⟨fun va below => by omega, fun _ _ => rfl⟩
  apply wp_seq (wp_loadSegments fits elf.phoff 0 elf.phnum k start exclusive nothing)
  rintro ⟨d1, loaded⟩ k1 ⟨abandoned, done⟩
  cases loaded with
  | none => exact wp_ret ⟨abandoned, by simp⟩
  | some sz =>
    obtain ⟨-, filled, exclusive1, shows, placed⟩ := done sz rfl
    have user := filled.small
    have up := pgRoundUp_eq user
    have upAligned := pgRoundUp_aligned sz
    have room : word (pgRoundUp sz + 2 * pgSize) = pgRoundUp sz + 2 * pgSize := by
      unfold word
      unfold kernBase pgSize at *
      omega
    dsimp only
    rw [room]
    apply wp_seq (wp_grow (pgRoundUp sz + 2 * pgSize) k1 filled.roundUp exclusive1
      (shows.roundUp user))
    rintro ⟨d2, sz2⟩ k2 ⟨abandoned2, grown⟩
    dsimp only at abandoned2 grown ⊢
    split
    · exact wp_ret ⟨abandoned2, by simp⟩
    · rename_i nonzero
      obtain ⟨-, -, size, filled2, exclusive2, shows2⟩ := grown nonzero
      have exact2 : sz2 = pgRoundUp sz + 2 * pgSize := by omega
      have small2 := filled2.small
      have guardPlace : wordSub sz2 (2 * pgSize) = pgRoundUp sz := by
        unfold wordSub word
        unfold kernBase pgSize at *
        omega
      have guardPage : IsPage (pgRoundUp sz) := ⟨pgRoundUp_lt sz, upAligned⟩
      have stackPage : IsPage (sz2 - pgSize) := by
        unfold IsPage
        unfold kernBase pgSize at *
        omega
      have below : pgRoundUp sz < sz2 := by
        unfold pgSize at exact2
        omega
      have stackBelow : sz2 - pgSize < sz2 ∧ sz2 - pgSize ≠ pgRoundUp sz := by
        omega
      rw [guardPlace]
      apply wp_seq (wp_also (wp_clearpteu k2 guardPage (filled2.there guardPage below))
        (wp_forall fun a => clearpteu_count a d2 k2 (by omega)))
      rintro d3 k3 ⟨⟨rfl, tables, entries⟩, counts⟩
      have addr : ∀ y, IsPage y → pteAddr (d3.pteOf y) = pteAddr (d2.pteOf y) ∧
          present (d3.pteOf y) = present (d2.pteOf y) := fun y page => clear_addr entries page
      have cleared := abandoned2.clear (by omega) tables entries
      refine wp_ret ⟨cleared, ?_⟩
      · rintro sz3 ⟨⟩
        have guardAt : sz2 - 2 * pgSize = pgRoundUp sz := by omega
        refine ⟨⟨small2, ?_, ?_, ?_⟩, ?_, fun a => ?_, ?_, by omega, fun x page low => ?_, cleared⟩
        · rw [guardAt]
          refine ⟨by rw [(addr _ guardPage).2]; exact filled2.there guardPage below, ?_⟩
          rw [entries _ guardPage, if_pos rfl]
          exact userBit_clear _
        · refine ⟨by rw [(addr _ stackPage).2]; exact filled2.there stackPage stackBelow.1, ?_⟩
          obtain ⟨f, entry⟩ := filled2.below _ stackPage stackBelow.1
          rw [entries _ stackPage, if_neg stackBelow.2, entry]
          exact userBit_user f.pa
        · intro va inside
          have page : IsPage (pgRoundDown va) :=
            ⟨by unfold kernBase at small2; omega, pgRoundDown_aligned va⟩
          rw [← shows2.bytes va inside]
          unfold byteAt
          rw [(addr _ page).1]
        · intro ph member
          rw [guardAt]
          exact (placed ph member).mono (by omega)
        · have kept := counts a
          unfold Kept at kept
          have bound := exclusive2 a
          dsimp only
          omega
        · rw [exact2, Nat.add_mod, upAligned]
          rfl
        · rw [(addr x page).2]
          exact filled2.there page low

/-- Page `x` has bytes of the segment. -/
def Occupies (ph : ProgHdr) (x : Nat) : Prop :=
  IsPage x ∧ pgRoundDown ph.vaddr ≤ x ∧ x < ph.vaddr + ph.memsz

/-- No two of the segments share a page. -/
def DisjointPages (segments : List ProgHdr) : Prop :=
  segments.Pairwise fun p q => ∀ x, ¬(Occupies p x ∧ Occupies q x)

theorem lay_outside (content v : Bytes) {ph : ProgHdr} {va : Nat}
    (outside : ¬(ph.vaddr ≤ va ∧ va < ph.vaddr + ph.filesz)) : lay content v ph va = v va :=
  putBytes_outside v _ _ va _ (by omega)

theorem foldl_lay_outside (content v : Bytes) (segments : List ProgHdr) {va : Nat}
    (outside : ∀ ph ∈ segments, ¬(ph.vaddr ≤ va ∧ va < ph.vaddr + ph.filesz)) :
    segments.foldl (lay content) v va = v va := by
  induction segments generalizing v with
  | nil => rfl
  | cons ph rest ih =>
    rw [List.foldl_cons, ih _ fun q member => outside q (List.mem_cons_of_mem _ member)]
    exact lay_outside content v (outside ph List.mem_cons_self)

/-- An address of one segment is in no segment on other pages. -/
theorem outside_of_disjoint {p q : ProgHdr} {i : Nat} (small : sz ≤ kernBase) (placed : Placed sz p)
    (sizes : q.filesz ≤ q.memsz) (inside : i < p.memsz)
    (disjoint : ∀ x, ¬(Occupies p x ∧ Occupies q x)) :
    ¬(q.vaddr ≤ p.vaddr + i ∧ p.vaddr + i < q.vaddr + q.filesz) := by
  rintro ⟨above, below⟩
  have below' := placed.2.2
  have down := pgRoundDown_le (p.vaddr + i)
  have mono : ∀ {a b : Nat}, a ≤ b → pgRoundDown a ≤ pgRoundDown b := fun h =>
    Nat.mul_le_mul_right _ (Nat.div_le_div_right h)
  have page : IsPage (pgRoundDown (p.vaddr + i)) :=
    ⟨by unfold kernBase at small; omega, pgRoundDown_aligned _⟩
  exact disjoint _ ⟨⟨page, mono (Nat.le_add_right _ _), by omega⟩, page, mono above, by omega⟩

/-- Segments on different pages do not disturb each other. -/
theorem foldl_lay_segment (content v : Bytes) (segments : List ProgHdr) (small : sz ≤ kernBase)
    (placed : ∀ ph ∈ segments, Placed sz ph) (disjoint : DisjointPages segments) {ph : ProgHdr}
    (member : ph ∈ segments) {i : Nat} (inside : i < ph.memsz) :
    segments.foldl (lay content) v (ph.vaddr + i) =
      if i < ph.filesz then content (ph.off + i) else v (ph.vaddr + i) := by
  induction segments generalizing v with
  | nil => simp at member
  | cons p rest ih =>
    obtain ⟨apart, later⟩ := List.pairwise_cons.mp disjoint
    rw [List.foldl_cons]
    rcases List.mem_cons.mp member with rfl | found
    · rw [foldl_lay_outside content _ rest fun q inRest =>
        outside_of_disjoint small (placed ph List.mem_cons_self)
          (placed q (List.mem_cons_of_mem _ inRest)).2.1 inside (apart q inRest)]
      split
      · rename_i stored
        exact putBytes_inside v ph.vaddr ph.filesz i _ stored
      · exact putBytes_outside v _ _ _ _ (by omega)
    · rw [ih (lay content v p) (fun q inRest => placed q (List.mem_cons_of_mem _ inRest)) later found]
      have clear := outside_of_disjoint small (placed ph member) (placed p List.mem_cons_self).2.1
        inside fun x both => apart ph found x ⟨both.2, both.1⟩
      rw [lay_outside content v clear]

/-- What `exec` has loaded when it goes on to the arguments. -/
structure LoadedFrom (content : Bytes) (elf : ElfHdr) (d : PgDir ld) (k : Kmem ld) (sz : Nat) :
    Prop where
  elf_eq : elf = elfHdr content
  guard : present (d.pteOf (sz - 2 * pgSize)) = true ∧ userBit (d.pteOf (sz - 2 * pgSize)) = false
  stack : present (d.pteOf (sz - pgSize)) = true ∧ userBit (d.pteOf (sz - pgSize)) = true
  segments : DisjointPages ((headers content elf.phoff elf.phnum).filter isLoad) →
    ∀ ph ∈ (headers content elf.phoff elf.phnum).filter isLoad,
      (∀ i < ph.filesz, byteAt d k (ph.vaddr + i) = content (ph.off + i)) ∧
      ∀ i, ph.filesz ≤ i → i < ph.memsz → byteAt d k (ph.vaddr + i) = 0

theorem Complete.loadedFrom {content : Bytes} {elf : ElfHdr} (complete : Complete content elf d k sz)
    (header : elf = elfHdr content) : LoadedFrom content elf d k sz := by
  obtain ⟨ready, placed, -⟩ := complete
  refine ⟨header, ready.guard, ready.stack, ?_⟩
  intro disjoint ph member
  have small : sz - 2 * pgSize ≤ kernBase := Nat.le_trans (Nat.sub_le _ _) ready.small
  obtain ⟨-, sizes, top⟩ := placed ph member
  have shown : ∀ i < ph.memsz, byteAt d k (ph.vaddr + i) =
      if i < ph.filesz then content (ph.off + i) else 0 := by
    intro i inside
    have down := pgRoundDown_le (ph.vaddr + i)
    rw [ready.bytes _ (by omega)]
    exact foldl_lay_segment content _ _ small placed disjoint member inside
  refine ⟨fun i inFile => ?_, fun i after inside => ?_⟩
  · rw [shown i (by omega), if_pos inFile]
  · rw [shown i inside, if_neg (by omega)]

theorem exclusive_of_counts {k1 : Kmem ld} (once : ∀ a, freeCount a k ≤ 1)
    (counts : ∀ a, freeCount a k1 + optPages a (some d) = freeCount a k) : Exclusive d k1 :=
  fun a => counts a ▸ once a

theorem wp_loadPhase (once : ∀ a, freeCount a k ≤ 1) (content : Bytes) (fits : size < 2 ^ 32) :
    wp (loadPhase (fileImage content size)) (fun r k' => ∀ elf d sz, r = some (elf, d, sz) →
      elf = elfHdr content ∧ Complete content elf d k' sz) noStop k := by
  unfold loadPhase
  dsimp only
  split
  · exact wp_ret (by simp)
  · rename_i full
    obtain ⟨-, bytes⟩ := fileImage_full content .header fits
      (by decide : elfHdrSize < 2 ^ 32) (Decidable.not_not.mp full)
    have header : (fun k => content (0 + k)) = content := by
      funext a
      rw [Nat.zero_add]
    rw [bytes, header]
    split
    · exact wp_ret (by simp)
    · apply wp_seq (wp_setupkvm k)
      rintro dir k1 ⟨-, counts, built⟩
      cases dir with
      | none => exact wp_ret (by simp)
      | some d =>
        apply wp_seq (wp_loadSpace content fits (elfHdr content) k1 (built d rfl).2
          (exclusive_of_counts once counts))
        rintro ⟨d', loaded⟩ k2 ⟨abandoned, done⟩
        cases loaded with
        | none =>
          apply wp_seq (wp_freevm d' true k2 abandoned.tabled fun _ => abandoned.backed)
          intro _ k3 _
          exact wp_ret (by simp)
        | some sz =>
          refine wp_ret ?_
          rintro elf d1 sz1 ⟨⟩
          exact ⟨rfl, done sz rfl⟩

/-- `exec` on a file of arbitrary bytes: the loading phase returns, so it reaches no panic.
It maps nothing for the user in the kernel's half, also when it gives up, and what it leaves
when it succeeds are the segments, zeros after them, and a guard page below the stack. -/
theorem exec_loads_any_file {k : Kmem ld} (once : ∀ a, freeCount a k ≤ 1) (content : Bytes)
    {size : Nat} (fits : size < 2 ^ 32) :
    (∃ r k', loadPhase (fileImage content size) k = .ok (r, k') ∧
      ∀ elf d sz, r = some (elf, d, sz) → LoadedFrom content elf d k' sz) ∧
    ∀ (d : PgDir ld) k1 elf, setupkvm k = .ok (some d, k1) → ∃ d' loaded k2,
      loadSpace (fileImage content size) elf d k1 = .ok ((d', loaded), k2) ∧
      ∀ x, IsPage x → kernBase ≤ x → userBit (d'.pteOf x) = false := by
  constructor
  · obtain ⟨r, k', result, loads⟩ := wp_returns (wp_loadPhase once content fits)
    refine ⟨r, k', result, fun elf d sz found => ?_⟩
    obtain ⟨header, complete⟩ := loads elf d sz found
    exact complete.loadedFrom header
  · intro d k1 elf result
    obtain ⟨-, counts, built⟩ := wp_ok (wp_setupkvm k) result
    obtain ⟨r, k2, loads, abandoned, -⟩ := wp_returns
      (wp_loadSpace content fits elf k1 (built d rfl).2 (exclusive_of_counts once counts))
    refine ⟨r.1, r.2, k2, loads, ?_⟩
    intro x page high
    rw [abandoned.kernel x page high]
    exact userBit_kernelPte page

/-- A file with one program header: three bytes of text at address 0 and one of bss. -/
def tinyElf : Bytes := fun k =>
  ([0x7F, 0x45, 0x4C, 0x46, 1, 1, 1, 0, 0, 0, 0, 0, 0, 0, 0, 0, 2, 0, 3, 0, 1, 0, 0, 0,
    0, 0, 0, 0, 52, 0, 0, 0, 0, 0, 0, 0, 0, 0, 0, 0, 52, 0, 32, 0, 1, 0, 0, 0, 0, 0, 0, 0,
    1, 0, 0, 0, 84, 0, 0, 0, 0, 0, 0, 0, 0, 0, 0, 0, 3, 0, 0, 0, 4, 0, 0, 0, 7, 0, 0, 0,
    0, 16, 0, 0, 0xB0, 0x2A, 0xC3] : List UInt8).getD k 0

theorem exec_loads_any_file_tiny :
    ∃ r k', loadPhase (fileImage tinyElf 87) ⟨smallPages, fun _ _ => 0⟩ = .ok (r, k') ∧
      ∀ elf d sz, r = some (elf, d, sz) → LoadedFrom tinyElf elf d k' sz := by
  exact (exec_loads_any_file (k := ⟨smallPages, fun _ _ => 0⟩)
    (List.nodup_iff_count_le_one.mp Boot.smallPages_pa) tinyElf (by decide : 87 < 2 ^ 32)).1

end ColorXv6.Vm.ExecLoad
