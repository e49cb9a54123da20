import ColorXv6.Fs.Layout

/-!
The block numbers of an inode. Position `k` up to `NDIRECT` is word `k` of the address
array, the last of which points to the indirect block; the positions after it are the
entries of that block. Each store that changes one of these numbers changes no other.
-/
namespace ColorXv6.Fs.BlockMap
open Lib.LittleEndian Param Logging.Commit Layout

def slot (disk : Disk) (d : Dinode) (pos : Nat) : Nat :=
  if pos ≤ ndirect then d.word pos
  else if pos ≤ maxFile ∧ d.word ndirect ≠ 0 then getAddr (disk (d.word ndirect)) (pos - ndirect - 1)
  else 0

/-- The position of the number of block `bn` of the file. -/
def dataPos (bn : Nat) : Nat := if bn < ndirect then bn else bn + 1

/-- The block that holds block `bn` of the file, if not zero. -/
def fileBlock (disk : Disk) (d : Dinode) (bn : Nat) : Nat := slot disk d (dataPos bn)

theorem dataPos_ne_ndirect (bn : Nat) : dataPos bn ≠ ndirect := by
  unfold dataPos
  split <;> omega

variable {bn : Nat} {d : Dinode} {disk : Disk}

theorem dataPos_inj {other : Nat} (same : dataPos bn = dataPos other) : bn = other := by
  unfold dataPos at same
  split at same <;> split at same <;> omega

section Slots
variable (disk : Disk)

theorem slot_ndirect (d : Dinode) : slot disk d ndirect = d.word ndirect := by
  unfold slot
  rw [if_pos (Nat.le_refl _)]

/-- A zeroed inode has no blocks. -/
theorem slot_empty (pos : Nat) : slot disk {} pos = 0 := by
  have words : ∀ k, Dinode.word {} k = 0 := by
    intro k
    unfold Dinode.word
    split <;> rfl
  unfold slot
  rw [words, words]
  split
  · rfl
  · rw [if_neg (by omega)]

theorem slot_past (d : Dinode) {pos : Nat} (past : maxFile < pos) :
    slot disk d pos = 0 := by
  have direct : ¬ pos ≤ ndirect := by
    unfold maxFile at past
    omega
  unfold slot
  rw [if_neg direct, if_neg (by omega)]

theorem fileBlock_past (d : Dinode) (past : maxFile ≤ bn) :
    fileBlock disk d bn = 0 := by
  apply slot_past
  unfold dataPos
  unfold maxFile at *
  split <;> omega

theorem fileBlock_direct (d : Dinode) (direct : bn < ndirect) :
    fileBlock disk d bn = d.word bn := by
  unfold fileBlock dataPos slot
  rw [if_pos direct, if_pos (Nat.le_of_lt direct)]

theorem fileBlock_indirect (past : ndirect ≤ bn) (inside : bn < maxFile)
    (present : d.word ndirect ≠ 0) :
    fileBlock disk d bn = getAddr (disk (d.word ndirect)) (bn - ndirect) := by
  have pos : dataPos bn = bn + 1 := if_neg (by omega)
  unfold fileBlock slot
  rw [pos, if_neg (by omega), if_pos ⟨by omega, present⟩]
  congr 1

end Slots

theorem word_setAddr (d : Dinode) {n : Nat} (inside : n ≤ ndirect) (addr k : Nat) :
    (d.setAddr n addr).word k = if k = n then addr else d.word k := by
  unfold Dinode.word Dinode.setAddr
  by_cases here : k = n
  · rw [if_pos here, dif_pos (by omega)]
    simp only
    rw [if_pos here]
  · rw [if_neg here]
    split
    · simp only
      rw [if_neg here]
    · rfl

theorem getAddr_buffer (b : Block) {j : Nat} (inside : j < nindirect) :
    getAddr (buffer b) j = getAddr b j := by
  apply getLE_congr
  intro k _ below
  have size : 4 * nindirect = bsize := rfl
  rw [buffer_apply, if_pos (by omega)]

theorem testBit_buffer (b : Block) {bi : Nat} (inside : bi < bpb) :
    testBit (buffer b) bi = testBit b bi := by
  have bits : bpb = bsize * 8 := rfl
  unfold testBit
  rw [buffer_apply, if_pos (by omega)]

theorem buffer_zeroBlock : buffer zeroBlock = zeroBlock := by
  funext k
  rw [buffer_apply]
  split <;> rfl

/-- A direct address changes. -/
theorem slot_setAddr (disk : Disk) (d : Dinode) {n : Nat} (direct : n < ndirect) (addr pos : Nat) :
    slot disk (d.setAddr n addr) pos = if pos = n then addr else slot disk d pos := by
  unfold slot
  rw [word_setAddr d (by omega), word_setAddr d (by omega), if_neg (by omega : ¬ ndirect = n)]
  by_cases here : pos = n
  · rw [if_pos here, if_pos here, if_pos (by omega)]
  · rw [if_neg here, if_neg here]

/-- An indirect block without entries is added, or one whose entries do not matter removed. -/
theorem slot_setAddr_indirect {addr : Nat}
    (before : ∀ j < nindirect, d.word ndirect ≠ 0 → getAddr (disk (d.word ndirect)) j = 0)
    (after : ∀ j < nindirect, addr ≠ 0 → getAddr (disk addr) j = 0) (pos : Nat) :
    slot disk (d.setAddr ndirect addr) pos = if pos = ndirect then addr else slot disk d pos := by
  unfold slot
  rw [word_setAddr d (Nat.le_refl _), word_setAddr d (Nat.le_refl _), if_pos (rfl : ndirect = ndirect)]
  unfold maxFile
  by_cases here : pos = ndirect
  · rw [if_pos here, if_pos here, if_pos (by omega)]
  · rw [if_neg here, if_neg here]
    by_cases direct : pos ≤ ndirect
    · rw [if_pos direct, if_pos direct]
    · rw [if_neg direct, if_neg direct]
      split <;> split
      · rename_i new old
        rw [after _ (by omega) new.2, before _ (by omega) old.2]
      · rename_i new old
        exact after _ (by omega) new.2
      · rename_i new old
        exact (before _ (by omega) old.2).symm
      · rfl

/-- An entry of the indirect block changes. -/
theorem slot_putAddr {j addr : Nat} (inside : j < nindirect) (present : d.word ndirect ≠ 0)
    (small : addr < 2 ^ 32) (pos : Nat) :
    slot (diskWrite disk (d.word ndirect, buffer (putAddr (disk (d.word ndirect)) j addr))) d pos =
      if pos = ndirect + 1 + j then addr else slot disk d pos := by
  unfold slot diskWrite maxFile
  by_cases direct : pos ≤ ndirect
  · rw [if_pos direct, if_pos direct, if_neg (by omega)]
  · rw [if_neg direct, if_neg direct]
    by_cases reach : pos ≤ ndirect + nindirect
    · have indirect : pos ≤ ndirect + nindirect ∧ d.word ndirect ≠ 0 := ⟨reach, present⟩
      rw [if_pos indirect, if_pos indirect, if_pos rfl, getAddr_buffer _ (by omega),
        getAddr_putAddr _ _ small]
      by_cases here : pos = ndirect + 1 + j
      · rw [if_pos (by omega), if_pos here]
      · rw [if_neg (by omega), if_neg here]
    · rw [if_neg (by omega), if_neg (by omega), if_neg (by omega)]

/-- A store outside the indirect block changes nothing. -/
theorem slot_diskWrite {b : Nat} (data : Block) (apart : d.word ndirect ≠ 0 → d.word ndirect ≠ b)
    (pos : Nat) :
    slot (diskWrite disk (b, data)) d pos = slot disk d pos := by
  unfold slot diskWrite
  by_cases direct : pos ≤ ndirect
  · rw [if_pos direct, if_pos direct]
  · rw [if_neg direct, if_neg direct]
    split
    · rename_i present
      rw [if_neg (apart present.2)]
    · rfl

/-! The inodes on the disk. -/

def dinodeAt (sb : Superblock) (disk : Disk) (i : Nat) : Dinode :=
  getDinode (disk (iblock sb i)) (inodeOff i)

theorem getDinode_buffer (b : Block) (i : Nat) :
    getDinode (buffer b) (inodeOff i) = getDinode b (inodeOff i) := by
  apply getDinode_congr
  intro k _ below
  have size : ipb * dinodeSize = bsize := rfl
  have inside : i % ipb < ipb := Nat.mod_lt _ (by decide)
  unfold inodeOff at below
  have fits : (i % ipb + 1) * dinodeSize ≤ ipb * dinodeSize := Nat.mul_le_mul_right _ inside
  rw [Nat.add_mul] at fits
  rw [buffer_apply, if_pos (by omega)]

/-- Storing an inode in its block changes no other inode. -/
theorem dinodeAt_putDinode (sb : Superblock) (disk : Disk) (i j : Nat) (fits : d.Fits) :
    dinodeAt sb (diskWrite disk
      (iblock sb i, buffer (putDinode (disk (iblock sb i)) (inodeOff i) d))) j =
      if j = i then d else dinodeAt sb disk j := by
  unfold dinodeAt diskWrite
  by_cases same : j = i
  · rw [if_pos same, same, if_pos rfl, getDinode_buffer, getDinode_putDinode _ _ fits]
  · rw [if_neg same]
    split
    · rename_i block
      have together : i / ipb = j / ipb := by
        unfold iblock at block
        omega
      rw [getDinode_buffer, getDinode_putDinode_other _ _ (inodeOff_apart together (Ne.symm same)).symm,
        block]
    · rfl

theorem dinodeAt_diskWrite {sb : Superblock} {b j : Nat} (data : Block)
    (apart : iblock sb j ≠ b) : dinodeAt sb (diskWrite disk (b, data)) j = dinodeAt sb disk j := by
  unfold dinodeAt diskWrite
  rw [if_neg apart]

end ColorXv6.Fs.BlockMap
