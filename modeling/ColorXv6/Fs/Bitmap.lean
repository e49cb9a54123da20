import ColorXv6.Fs.Regions

/-!
`balloc` and `bfree` on the free map as it lies on the disk, over any number of
bitmap blocks. Neither tests that the block it is about is no bitmap block: `balloc`
clears the block it returns, after it has marked it.
-/
namespace ColorXv6.Fs.Bitmap
open Lib.LittleEndian Lib.Wp Layout BlockMap Inode ReadBlocks Regions
open Logging.Commit (Block Disk diskWrite diskWrite_same diskWrite_other)

/-- The free map marks its own blocks and the superblock, as mkfs leaves it. -/
structure SelfMarked (s : Fs) : Prop where
  /-- `balloc` counts blocks in an int. -/
  small : s.sb.size ≤ 2 ^ 31
  super : getSb (s.disk 1) = s.sb
  after : 1 < s.sb.bmapstart
  one : 1 < s.sb.size → inUse s 1 = true
  own : ∀ c < s.sb.size, bblock s.sb c < s.sb.size → inUse s (bblock s.sb c) = true

/-- In the blocks of the free map the bit of `b` became `v`, and no other bit changed. -/
def Flipped (s t : Fs) (b : Nat) (v : Bool) : Prop :=
  ∀ c < s.sb.size, ∀ i < bpb, testBit (t.disk (bblock s.sb c)) i =
    if bblock s.sb c = bblock s.sb b ∧ i = b % bpb then v else testBit (s.disk (bblock s.sb c)) i

/-- The blocks of the free map hold the same bits. -/
def SameMap (s t : Fs) : Prop :=
  ∀ c < s.sb.size, ∀ i < bpb, testBit (t.disk (bblock s.sb c)) i = testBit (s.disk (bblock s.sb c)) i

theorem flipped_of_store {s t : Fs} {b : Nat} {v : Bool} {data : Block}
    (here : t.disk (bblock s.sb b) = buffer data)
    (other : ∀ c < s.sb.size, bblock s.sb c ≠ bblock s.sb b →
      t.disk (bblock s.sb c) = s.disk (bblock s.sb c))
    (bits : ∀ i, testBit data i =
      if i = b % bpb then v else testBit (s.disk (bblock s.sb b)) i) : Flipped s t b v := by
  intro c inside i inBlock
  by_cases block : bblock s.sb c = bblock s.sb b
  · rw [block, here, testBit_buffer _ inBlock, bits]
    simp only [true_and]
  · rw [other c inside block, if_neg fun both => block both.1]

variable {b : Nat}

theorem Flipped.bit {s t : Fs} {v : Bool} (flipped : Flipped s t b v) (same : t.sb = s.sb)
    (inside : b < s.sb.size) : inUse t b = v := by
  unfold inUse
  rw [same, flipped b inside _ (Nat.mod_lt _ (by decide)), if_pos ⟨rfl, rfl⟩]

theorem Flipped.back {s t u : Fs} {v w : Bool} (there : Flipped s t b v) (back : Flipped t u b w)
    (same : t.sb = s.sb) (bit : inUse s b = w) : SameMap s u := by
  intro c inside i inBlock
  have last := back c (same ▸ inside) i inBlock
  rw [same] at last
  rw [last, there c inside i inBlock]
  split
  · rename_i here
    rw [here.1, here.2]
    exact bit.symm
  · rfl

section Calls
variable {s : Fs}

/-- The stores of `balloc` reach the bit and the block, and leave the bit set. -/
theorem wp_marking (marked : SelfMarked s) (first : First s b) {E : Halt → Prop} :
    wp (marking b) (fun _ t => t.sb = s.sb ∧ Flipped s t b true ∧ t.disk b = zeroBlock ∧
      ∀ c, c ≠ b → c ≠ bblock s.sb b → t.disk c = s.disk c) E s := by
  -- the block is free, and the free map says its own blocks are not
  have apart : ∀ c < s.sb.size, bblock s.sb c ≠ b := by
    intro c inside same
    have used := marked.own c inside (same ▸ first.inside)
    rw [same, first.clear] at used
    cases used
  unfold marking bzero logWrite
  simp only [wp_bind, wp_get, wp_modify]
  refine ⟨trivial, @flipped_of_store _ _ _ _ (setBit (s.disk (bblock s.sb b)) (b % bpb)) ?_ ?_ ?_,
    ?_, ?_⟩
  · dsimp only
    rw [diskWrite_other _ _ _ (apart b first.inside), diskWrite_same]
  · intro c inside block
    dsimp only
    rw [diskWrite_other _ _ _ (apart c inside), diskWrite_other _ _ _ block]
  · intro i
    rw [testBit_setBit]
    by_cases here : i = b % bpb
    · rw [if_pos here, decide_eq_true here, Bool.true_or]
    · rw [if_neg here, decide_eq_false here, Bool.false_or]
  · rw [diskWrite_same, buffer_zeroBlock]
  · intro c other block
    rw [diskWrite_other _ _ _ other, diskWrite_other _ _ _ block]

theorem wp_balloc_marks (marked : SelfMarked s) :
    wp balloc (fun b t => First s b ∧ t.sb = s.sb ∧ Flipped s t b true ∧ t.disk b = zeroBlock ∧
        ∀ c, c ≠ b → c ≠ bblock s.sb b → t.disk c = s.disk c)
      (fun e => e = .ballocOutOfBlocks ∧ ∀ c < s.sb.size, inUse s c = true) s := by
  apply wp_balloc_first
  · intro b first
    exact wp_mono (wp_marking marked first) fun _ t spec => ⟨first, spec⟩
  · exact fun full => ⟨rfl, full⟩

theorem wp_bfree_clears (super : getSb (s.disk 1) = s.sb) (used : inUse s b = true) :
    wp (bfree b) (fun _ t => Flipped s t b false ∧
      ∀ c, c ≠ bblock s.sb b → t.disk c = s.disk c) (fun _ => False) s := by
  have test : testBit (s.disk (bblock s.sb b)) (b % bpb) = true := used
  unfold bfree readsb bread logWrite
  simp only [wp_bind, wp_get, wp_pure, wp_modify, super]
  rw [if_pos test]
  simp only [wp_modify]
  have other : ∀ c, c ≠ bblock s.sb b → diskWrite s.disk (bblock s.sb b,
      buffer (clearBit (s.disk (bblock s.sb b)) (b % bpb))) c = s.disk c :=
    fun c block => diskWrite_other _ _ _ block
  refine ⟨flipped_of_store (diskWrite_same _ _ _) (fun c _ => other _) ?_, other⟩
  intro i
  rw [testBit_clearBit]
  by_cases here : i = b % bpb
  · rw [if_pos here, decide_eq_true here, Bool.not_true, Bool.false_and]
  · rw [if_neg here, decide_eq_false here, Bool.not_false, Bool.true_and]

end Calls

/-- `balloc` returns the first free block, marked and cleared, and panics only if there is none;
`bfree` clears the bit of its block, and undoes the mark of `balloc`. -/
theorem balloc_bfree_exact (s : Fs) (marked : SelfMarked s) :
    (∀ b t, balloc s = .ok (b, t) → First s b ∧ Flipped s t b true ∧ t.disk b = zeroBlock ∧
      (∀ c, c ≠ b → c ≠ bblock s.sb b → t.disk c = s.disk c) ∧
      ∃ u, bfree b t = .ok ((), u) ∧ SameMap s u) ∧
    (∀ e, balloc s = .error e ↔
      e = .ballocOutOfBlocks ∧ ∀ c < s.sb.size, inUse s c = true) ∧
    ∀ b < s.sb.size, inUse s b = true → ∃ t, bfree b s = .ok ((), t) ∧ Flipped s t b false ∧
      ∀ c, c ≠ bblock s.sb b → t.disk c = s.disk c := by
  have spec := wp_balloc_marks marked
  refine ⟨?_, ?_, ?_⟩
  · intro b t result
    obtain ⟨first, same, flipped, zeroed, other⟩ := wp_ok spec result
    refine ⟨first, flipped, zeroed, other, ?_⟩
    have super : getSb (t.disk 1) = t.sb := by
      rw [same, ← marked.super, other 1]
      · rintro rfl
        have used := marked.one first.inside
        rw [first.clear] at used
        cases used
      · have after := marked.after
        exact Nat.ne_of_lt (Nat.lt_of_lt_of_le after (Nat.le_add_left _ _))
    obtain ⟨_, u, freed, back, -⟩ :=
      wp_returns (wp_bfree_clears super (flipped.bit same first.inside))
    exact ⟨u, freed, flipped.back back same first.clear⟩
  · intro e
    constructor
    · intro result
      have stopped := wp_stopped spec result
      exact stopped
    · rintro ⟨rfl, full⟩
      cases result : balloc s with
      | error e => rw [(wp_stopped spec result).1]
      | ok r =>
        obtain ⟨first, -⟩ := wp_ok spec result
        have used := full r.1 first.inside
        rw [first.clear] at used
        cases used
  · intro b _ used
    obtain ⟨_, t, result, spec⟩ := wp_returns (wp_bfree_clears marked.super used)
    exact ⟨t, result, spec⟩

/-- A file system of 5000 blocks with its free map in blocks 3 and 4, whose first bytes are
`mask` and 1. -/
def tiny (mask : UInt8) : Fs where
  disk := fun b => match b with
    | 1 => fun k => if k = 0 then 136 else if k = 1 then 19 else if k = 24 then 3 else 0
    | 3 => fun k => if k = 0 then mask else 0
    | 4 => fun k => if k = 0 then 1 else 0
    | _ => zeroBlock
  sb := ⟨5000, 0, 0, 0, 0, 0, 3⟩
  inode := fun _ => {}
  file := fun _ => {}
  proc := fun _ => {}
  console := fun _ => (0, zeroBlock)
  logged := []

/-- The first free block is 5. Block 4096 has the first bit of the second block of the map. -/
theorem balloc_bfree_exact_tiny : SelfMarked (tiny 31) ∧
    (∃ t, balloc (tiny 31) = .ok (5, t) ∧ Flipped (tiny 31) t 5 true ∧ t.disk 5 = zeroBlock) ∧
    ∃ t, bfree 4096 (tiny 31) = .ok ((), t) ∧ Flipped (tiny 31) t 4096 false := by
  have marked : SelfMarked (tiny 31) := by
    refine ⟨by decide, by decide, by decide, fun _ => by decide, fun c inside _ => ?_⟩
    have half : c / bpb < 2 := Nat.div_lt_of_lt_mul (Nat.lt_trans inside (by decide))
    unfold bblock
    generalize c / bpb = half at *
    decide +revert
  have result : ∃ t, balloc (tiny 31) = .ok (5, t) := ⟨_, rfl⟩
  obtain ⟨t, result⟩ := result
  obtain ⟨given, -, freed⟩ := balloc_bfree_exact (tiny 31) marked
  obtain ⟨u, freed, cleared, -⟩ := freed 4096 (by decide) (by decide)
  have spec := given 5 t result
  exact ⟨marked, ⟨t, result, spec.2.1, spec.2.2.1⟩, u, freed, cleared⟩

/-- A free map that does not mark its own block is cleared as soon as that block is found. -/
theorem balloc_clears_its_map : ∃ t, balloc (tiny 7) = .ok (3, t) ∧ inUse (tiny 7) 0 = true ∧
    inUse t 0 = false ∧ inUse t 3 = false ∧ ¬ Flipped (tiny 7) t 3 true := by
  refine ⟨_, rfl, by decide, by decide +kernel, by decide +kernel, fun flipped => ?_⟩
  have bit := flipped.bit rfl (by decide)
  revert bit
  decide +kernel

end ColorXv6.Fs.Bitmap
