import ColorXv6.Fs.BlockMap
import ColorXv6.Fs.Inode

/-!
Reading an inode whose blocks are mapped: `bmap` allocates nothing, so `readi` leaves the
state as it is and returns the bytes of the blocks.
-/
namespace ColorXv6.Fs.ReadBlocks
open Lib.LittleEndian Lib.Wp Param Layout BlockMap Inode
open Logging.Commit (Block Disk)

/-- Byte `k` of the file with this inode. -/
def byteAt (disk : Disk) (d : Dinode) (k : Nat) : UInt8 :=
  disk (fileBlock disk d (k / bsize)) (k % bsize)

variable {s : Fs} {ip : Nat} {E : Halt → Prop}

theorem wp_bread (b : Nat) (Q : Block → Fs → Prop) : wp (bread b) Q E s ↔ Q (s.disk b) s := by
  unfold bread
  rw [wp_read, wp_pure]

theorem wp_mapAddr_mapped {n : Nat} (mapped : (s.inode ip).din.word n ≠ 0) {Q : Nat → Fs → Prop}
    (after : Q ((s.inode ip).din.word n) s) : wp (mapAddr ip n) Q E s := by
  unfold mapAddr
  rw [wp_read]
  rw [if_neg mapped, wp_pure]
  exact after

theorem wp_bmap_mapped {bn : Nat} (mapped : fileBlock s.disk (s.inode ip).din bn ≠ 0)
    {Q : Nat → Fs → Prop} (after : Q (fileBlock s.disk (s.inode ip).din bn) s) :
    wp (bmap ip bn) Q E s := by
  have inside : bn < maxFile := by
    by_contra past
    exact mapped (fileBlock_past _ _ (Nat.le_of_not_lt past))
  unfold bmap
  by_cases direct : bn < ndirect
  · rw [if_pos direct]
    rw [fileBlock_direct _ _ direct] at mapped after
    exact wp_mapAddr_mapped mapped after
  · have present : (s.inode ip).din.word ndirect ≠ 0 := by
      intro none
      apply mapped
      unfold fileBlock dataPos slot
      rw [if_neg direct, if_neg (by omega), if_neg fun both => both.2 none]
    rw [fileBlock_indirect _ (Nat.le_of_not_lt direct) inside present] at mapped after
    unfold maxFile at inside
    rw [if_neg direct, if_pos (by omega), wp_bind]
    apply wp_mapAddr_mapped present
    rw [wp_bind, wp_bread, if_neg mapped, wp_pure]
    exact after

/-- The loop of `readi`, when the blocks it reads are mapped. -/
theorem wp_readBlocks (fuel n off tot : Nat) (dst : Bytes)
    (mapped : ∀ bn, bn * bsize < off + (n - tot) → fileBlock s.disk (s.inode ip).din bn ≠ 0)
    (enough : (n - tot = 0 ∨ off % bsize + (n - tot) ≤ (fuel - 1) * bsize) ∧ 0 < fuel) :
    wp (readBlocks ip n off tot dst fuel)
      (fun r t => t = s ∧ (∀ k < tot, r k = dst k) ∧
        ∀ k, tot ≤ k → k < n → r k = byteAt s.disk (s.inode ip).din (off + (k - tot))) E s := by
  induction fuel generalizing off tot dst with
  | zero => omega
  | succ fuel ih =>
    unfold readBlocks
    split
    · rename_i more
      have whole : off = off / bsize * bsize + off % bsize := (Nat.div_add_mod' off bsize).symm
      rw [wp_bind]
      apply wp_bmap_mapped (mapped _ (by omega))
      rw [wp_bind, wp_bread]
      obtain ⟨m, count⟩ : ∃ m, chunk off n tot = m := ⟨_, rfl⟩
      rw [count]
      unfold chunk at count
      have rounds : (n - (tot + m) = 0 ∨ (off + m) % bsize + (n - (tot + m)) ≤ (fuel - 1) * bsize) ∧
          0 < fuel := by
        unfold bsize at *
        omega
      apply wp_mono (ih (off + m) (tot + m) _ (fun bn inside => mapped bn (by omega)) rounds)
      rintro r t ⟨rfl, before, after⟩
      refine ⟨rfl, fun k inside => ?_, fun k lo hi => ?_⟩
      · rw [before k (by omega), putBytes_outside _ _ _ _ _ (by omega)]
      · by_cases now : k < tot + m
        · have same : (off + (k - tot)) / bsize = off / bsize ∧
              (off + (k - tot)) % bsize = off % bsize + (k - tot) := by
            unfold bsize at *
            omega
          have place : k = tot + (k - tot) := by omega
          rw [before k now]
          unfold byteAt
          rw [same.1, same.2]
          conv => lhs; rw [place]
          rw [putBytes_inside _ _ _ _ _ (by omega)]
        · rw [after k (by omega) hi]
          congr 1
          omega
    · exact wp_ret ⟨rfl, fun _ _ => rfl, fun k lo hi => by omega⟩

/-- `readi` of a file, when the blocks it reads are mapped. -/
theorem wp_readi_mapped {off n : Nat} (file : (s.inode ip).din.type ≠ tDev)
    (inside : off ≤ (s.inode ip).din.size) (count : off + n < 2 ^ 32)
    (mapped : ∀ bn, bn * bsize < min (off + n) (s.inode ip).din.size →
      fileBlock s.disk (s.inode ip).din bn ≠ 0) :
    wp (readi ip off n)
      (fun r t => t = s ∧ r.1 = (min n ((s.inode ip).din.size - off) : Nat) ∧
        ∀ k < min n ((s.inode ip).din.size - off),
          r.2 k = byteAt s.disk (s.inode ip).din (off + k)) E s := by
  unfold readi
  rw [wp_read]
  rw [if_neg file, Nat.mod_eq_of_lt count, if_neg (by omega)]
  have trimmed : (if off + n > (s.inode ip).din.size then (s.inode ip).din.size - off else n) =
      min n ((s.inode ip).din.size - off) := by
    split <;> omega
  rw [trimmed]
  obtain ⟨m, count⟩ : ∃ m, min n ((s.inode ip).din.size - off) = m := ⟨_, rfl⟩
  rw [count]
  have rounds : (m - 0 = 0 ∨ off % bsize + (m - 0) ≤ (blockFuel m - 1) * bsize) ∧ 0 < blockFuel m := by
    unfold blockFuel bsize
    omega
  apply wp_seq (wp_readBlocks (blockFuel m) m off 0 zeroBlock
    (fun bn below => mapped bn (by omega)) rounds)
  rintro r t ⟨rfl, -, bytes⟩
  exact wp_ret ⟨rfl, rfl, fun k below => bytes k (Nat.zero_le k) below⟩

/-- A request past the end of the file, or past the end of the numbers. -/
theorem wp_readi_past {off n : Nat} (file : (s.inode ip).din.type ≠ tDev) (off32 : off < 2 ^ 32)
    (n32 : n < 2 ^ 32) (past : ¬ (off ≤ (s.inode ip).din.size ∧ off + n < 2 ^ 32)) :
    wp (readi ip off n) (fun r t => t = s ∧ r = (-1, zeroBlock)) E s := by
  unfold readi
  rw [wp_read]
  rw [if_neg file, if_pos (by omega), wp_pure]
  exact ⟨rfl, rfl⟩

end ColorXv6.Fs.ReadBlocks
