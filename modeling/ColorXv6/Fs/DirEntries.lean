import ColorXv6.Fs.CacheOps
import ColorXv6.Fs.SysFile
import ColorXv6.Lib.SlotMap

/-!
The contents of a directory as a row of slots, and what the loops over the entries do on it:
`dirlookup`, `dirlink`, `isdirempty` and the removal of an entry.
-/
namespace ColorXv6.Fs.DirEntries
open Function Lib.LittleEndian Lib.Slots Lib.Wp Lib.SlotMap Param Layout Inode Directory SysFile
open Regions Growth Writes Store CacheOps

/-- What an entry says: nothing, or a name and an inode number. -/
def entryOf (de : Bytes) : Option (List UInt8 × Nat) :=
  if direntInum de = 0 then none else some (nameOf (direntName de), direntInum de)

/-- The bytes of entry `i`. -/
def raw (n : Node) (i : Nat) : Bytes := fun k => n.bytes (direntSize * i + k)

/-- A directory as a row of slots. -/
def dir (n : Node) : Table (List UInt8) Nat where
  len := n.size / direntSize
  slot i := entryOf (raw n i)

theorem entryOf_congr {de de' : Bytes} (same : ∀ k < direntSize, de k = de' k) :
    entryOf de = entryOf de' := by
  have inum : direntInum de = direntInum de' :=
    getLE_congr _ _ _ _ fun k _ high => same k (by unfold direntSize; omega)
  have name : nameOf (direntName de) = nameOf (direntName de') := by
    apply nameFrom_congr
    intro k _ high
    exact same _ (by unfold direntSize; unfold dirSiz at high; omega)
  unfold entryOf
  rw [inum, name]

theorem entryOf_makeDirent (name : Bytes) {inum : Nat} (nonzero : inum ≠ 0) (small : inum < 2 ^ 16) :
    entryOf (makeDirent name inum) = some (nameOf name, inum) := by
  unfold entryOf
  rw [direntInum_makeDirent name small, nameOf_makeDirent, if_neg nonzero]

theorem entryOf_zeroBlock : entryOf zeroBlock = none := rfl

/-- Writing entry `i` sets slot `i`. -/
theorem dir_write (n : Node) (i : Nat) (de : Bytes) (whole : n.size % direntSize = 0) :
    dir (n.write (direntSize * i) direntSize de) = (dir n).set i (entryOf de) := by
  have len : max n.size (direntSize * i + direntSize) / direntSize =
      max (n.size / direntSize) (i + 1) := by
    unfold direntSize at *
    omega
  unfold dir Table.set Node.write
  rw [len]
  congr 1
  funext j
  rw [update_apply]
  split
  · rename_i here
    apply entryOf_congr
    intro k inside
    unfold raw patch
    dsimp only
    rw [here, if_pos (by omega), Nat.add_sub_cancel_left]
  · rename_i other
    apply entryOf_congr
    intro k inside
    unfold raw patch
    dsimp only
    rw [if_neg (by unfold direntSize at *; omega)]

/-- The tests of `dirlookup` and `dirlink` on an entry. -/
theorem matches_iff (name de : Bytes) :
    (direntInum de ≠ 0 ∧ namecmp name (direntName de) = 0) ↔
      (entryOf de).map Prod.fst = some (nameOf name) := by
  unfold entryOf
  rw [namecmp_eq_zero]
  by_cases zero : direntInum de = 0
  · simp [zero]
  · simp [zero, eq_comm]

theorem empty_iff (de : Bytes) : direntInum de = 0 ↔ (entryOf de).isNone = true := by
  unfold entryOf
  by_cases zero : direntInum de = 0
  · simp [zero]
  · simp [zero]

/-- Inode `i` is locked. -/
def Busy (s : Fs) (i : Nat) : Prop :=
  ∃ k, 0 < (s.inode k).ref ∧ (s.inode k).inum = i ∧ (s.inode k).locked = true

/-- A directory that its user has locked. -/
structure Held (s : Fs) (dp d : Nat) : Prop where
  good : Consistent s
  loaded : Loaded s dp
  inum : (s.inode dp).inum = d
  type : (node s d).type = tDir
  mine : (s.inode dp).locked = true
  locks : ∀ k, (s.inode k).locked = true → 0 < (s.inode k).ref

/-- Its size is a number of entries. -/
structure Opened (s : Fs) (dp d : Nat) : Prop extends Held s dp d where
  whole : (node s d).size % direntSize = 0

section Opened
variable {s : Fs} {dp d : Nat} {E : Halt → Prop} (dir_ : Opened s dp d)
include dir_

theorem Opened.din : (s.inode dp).din = (region s).dino d := by
  rw [← dir_.inum]
  exact dir_.good.din_eq dir_.loaded

theorem Opened.size : (s.inode dp).din.size = (node s d).size := by
  rw [dir_.din]
  rfl

theorem Opened.isDir : (s.inode dp).din.type = tDir := by
  rw [dir_.din]
  exact dir_.type

theorem Opened.size_le : (node s d).size ≤ maxFile * bsize := dir_.good.size_le d

theorem Opened.len : (node s d).size = direntSize * (dir (node s d)).len := by
  have whole := dir_.whole
  unfold dir
  dsimp only
  unfold direntSize at *
  omega

/-- The scan of the entries from `i` on, with a test that looks at the entry only. -/
theorem wp_scanEntries (stop : Bytes → Bool) (test : Option (List UInt8 × Nat) → Bool)
    (means : ∀ de, stop de = test (entryOf de)) (short : Halt) {i fuel : Nat}
    (start : i ≤ (dir (node s d)).len) (enough : (dir (node s d)).len - i < fuel) :
    wp (scanEntries dp stop short (direntSize * i) fuel) (fun r t => t = s ∧
      ((∃ j de, i ≤ j ∧ j < (dir (node s d)).len ∧ r = (direntSize * j, some de) ∧
          entryOf de = (dir (node s d)).slot j ∧ test ((dir (node s d)).slot j) = true ∧
          ∀ l, i ≤ l → l < j → test ((dir (node s d)).slot l) = false) ∨
        r = (direntSize * (dir (node s d)).len, none) ∧
          ∀ l, i ≤ l → l < (dir (node s d)).len → test ((dir (node s d)).slot l) = false)) E s := by
  have size := dir_.size
  have bound := dir_.size_le
  have limit : maxFile * bsize < 2 ^ 32 - 16 := by decide
  have len := dir_.len
  induction fuel generalizing i with
  | zero => exact absurd enough (Nat.not_lt_zero _)
  | succ fuel ih =>
    rw [scanEntries, wp_read]
    by_cases inside : i < (dir (node s d)).len
    · rw [if_pos (by rw [size, len]; unfold direntSize; omega), wp_bind]
      apply wp_mono (dir_.good.wp_readi dir_.loaded (by rw [dir_.isDir]; decide)
        (by rw [size, len]; unfold direntSize; omega) (by unfold direntSize at *; omega))
      rintro ⟨r, de⟩ t ⟨rfl, count, bytes⟩
      have full : min direntSize ((t.inode dp).din.size - direntSize * i) = direntSize := by
        rw [size, len]
        unfold direntSize
        omega
      dsimp only at count bytes ⊢
      rw [full] at count bytes
      rw [dir_.inum] at bytes
      have entry : entryOf de = (dir (node t d)).slot i := entryOf_congr bytes
      rw [if_neg (by simp [count])]
      by_cases found : stop de = true
      · rw [if_pos found, wp_pure]
        refine ⟨rfl, .inl ⟨i, de, Nat.le_refl i, inside, rfl, entry, ?_, fun l low high => by omega⟩⟩
        rw [← entry, ← means, found]
      · have miss : test ((dir (node t d)).slot i) = false := by
          rw [← entry, ← means]
          exact Bool.eq_false_iff.mpr found
        rw [if_neg found]
        have next : direntSize * i + direntSize = direntSize * (i + 1) := by
          rw [Nat.mul_succ]
        rw [next]
        apply wp_mono (ih (by omega) (by omega))
        rintro r t ⟨rfl, ⟨j, de, low, high, result, here, passes, before⟩ | ⟨result, before⟩⟩
        · refine ⟨rfl, .inl ⟨j, de, by omega, high, result, here, passes, fun l low below => ?_⟩⟩
          by_cases first : l = i
          · rw [first]
            exact miss
          · exact before l (by omega) below
        · refine ⟨rfl, .inr ⟨result, fun l low below => ?_⟩⟩
          by_cases first : l = i
          · rw [first]
            exact miss
          · exact before l (by omega) below
    · have last : i = (dir (node s d)).len := by omega
      rw [if_neg (by rw [size, len, last]; exact Nat.lt_irrefl _), wp_pure]
      refine ⟨rfl, .inr ⟨by rw [last], fun l low below => by omega⟩⟩

theorem Opened.fuel : (dir (node s d)).len < entryFuel := by
  have bound := dir_.size_le
  exact Nat.lt_succ_of_le (Nat.div_le_div_right bound)

/-- `dirlookup` finds the slot of the name and takes a reference to its inode. -/
theorem wp_dirlookup (name : Bytes)
    (full : ∀ i, (dir (node s d)).get (nameOf name) = some i → ¬ CanGet s i → E .igetNoInodes) :
    wp (dirlookup dp name) (fun r t =>
      r = none ∧ t = s ∧ (dir (node s d)).get (nameOf name) = none ∨
      ∃ ip j i, r = some (ip, direntSize * j) ∧ (dir (node s d)).find (nameOf name) = some j ∧
        (dir (node s d)).get (nameOf name) = some i ∧ Got s t ip i) E s := by
  unfold dirlookup
  rw [wp_read, if_neg (by simp [dir_.isDir]), wp_bind]
  apply wp_mono (wp_scanEntries dir_ _ (fun e => e.map Prod.fst = some (nameOf name))
    (fun de => decide_eq_decide.mpr (matches_iff name de)) .dirlookupRead (Nat.zero_le _) dir_.fuel)
  rintro r t ⟨rfl, ⟨j, de, -, inside, rfl, entry, passes, before⟩ | ⟨rfl, before⟩⟩
  · have found : (dir (node t d)).find (nameOf name) = some j := by
      unfold Table.find firstSlot
      rw [List.find?_range_eq_some]
      exact ⟨passes, List.mem_range.mpr inside, fun l below => by simpa using before l (Nat.zero_le l) below⟩
    obtain ⟨-, i, slot⟩ := find_some found
    have bound := get_of_slot found slot
    have inum : direntInum de = i := by
      rw [slot] at entry
      unfold entryOf at entry
      split at entry
      · cases entry
      · exact (Prod.mk.inj (Option.some.inj entry)).2
    rw [wp_bind, inum]
    apply wp_mono (wp_iget i (full i bound))
    intro ip u got
    rw [wp_pure]
    exact .inr ⟨ip, j, i, rfl, found, bound, got⟩
  · dsimp only
    rw [wp_pure]
    refine .inl ⟨rfl, rfl, get_eq_none.mpr ?_⟩
    exact firstSlot_none.mpr fun l inside => before l (Nat.zero_le l) inside

/-- The entry that `iget` returned is locked if the inode is. -/
theorem Opened.locked_iff {t : Fs} {ip i : Nat} (got : Got s t ip i) :
    (s.inode ip).locked = true ↔ Busy s i := by
  cases got with
  | shared _ ref cached _ =>
    refine ⟨fun held => ⟨ip, ref, cached, held⟩, ?_⟩
    rintro ⟨k, ref', cached', held⟩
    rwa [← dir_.good.single k ip ref' ref (cached'.trans cached.symm)]
  | fresh _ free alone _ =>
    constructor
    · intro held
      have ref := dir_.locks ip held
      omega
    · rintro ⟨k, ref, cached, -⟩
      exact absurd cached (alone k (dir_.good.entries k ref).1 ref)

theorem Opened.unlocked {t : Fs} {ip i : Nat} (got : Got s t ip i) (idle : ¬ Busy s i) :
    (s.inode ip).locked = false := by
  rw [Bool.eq_false_iff]
  exact fun held => idle ((dir_.locked_iff got).mp held)

/-- The loop of `dirlink` stops at the first empty entry, or at the end. -/
theorem wp_scanEmpty :
    wp (scanEntries dp (fun de => direntInum de = 0) .dirlinkRead 0 entryFuel) (fun r t => t = s ∧
      r.1 = direntSize * (dir (node s d)).vacant) E s := by
  apply wp_mono (wp_scanEntries dir_ _ (fun e => e.isNone)
    (fun de => Bool.eq_iff_iff.mpr (decide_eq_true_iff.trans (empty_iff de))) .dirlinkRead
    (Nat.zero_le _) dir_.fuel)
  rintro r t ⟨rfl, ⟨j, de, -, inside, rfl, -, passes, before⟩ | ⟨rfl, before⟩⟩
  · refine ⟨rfl, ?_⟩
    have found : (firstSlot (dir (node t d)).len fun i => ((dir (node t d)).slot i).isNone) = some j := by
      unfold firstSlot
      rw [List.find?_range_eq_some]
      exact ⟨passes, List.mem_range.mpr inside, fun l below => by simpa using before l (Nat.zero_le l) below⟩
    unfold Table.vacant
    rw [found]
    rfl
  · refine ⟨rfl, ?_⟩
    unfold Table.vacant
    rw [firstSlot_none.mpr fun l inside => before l (Nat.zero_le l) inside]
    rfl

/-- A new entry was written. -/
structure Linked (s t : Fs) (dp d : Nat) (name : Bytes) (inum : Nat) : Prop where
  wrote : Wrote s t dp (direntSize * (dir (node s d)).vacant) direntSize (makeDirent name inum)
    (cover (direntSize * (dir (node s d)).vacant) direntSize)
  good : Consistent t
  nodes : node t = update (node s) d ((node s d).write (direntSize * (dir (node s d)).vacant)
    direntSize (makeDirent name inum))

/-- `dirlink` refuses a name that is there, and otherwise writes the entry. -/
theorem wp_dirlink (name : Bytes) (inum : Nat) {P : Finset Nat}
    (covers : Covers P (direntSize * (dir (node s d)).vacant) direntSize)
    (full : ∀ i, (dir (node s d)).get (nameOf name) = some i → ¬ CanGet s i → E .igetNoInodes)
    (busy : ∀ i, (dir (node s d)).get (nameOf name) = some i → Busy s i → E .deadlock)
    (limit : (dir (node s d)).get (nameOf name) = none →
      maxFile * bsize < direntSize * (dir (node s d)).vacant + direntSize → E .dirlink)
    (blocks : (dir (node s d)).get (nameOf name) = none → room P s dp < 0 → E .ballocOutOfBlocks) :
    wp (dirlink dp name inum) (fun r t =>
      (∃ i, (dir (node s d)).get (nameOf name) = some i ∧ ¬ Busy s i ∧ CanGet s i ∧ r = -1 ∧
        Idle s t) ∨
      (dir (node s d)).get (nameOf name) = none ∧ r = 0 ∧ Linked s t dp d name inum ∧
        room P t dp = room P s dp) E s := by
  apply wp_seq (wp_dirlookup dir_ name full)
  rintro r t (⟨rfl, rfl, absent⟩ | ⟨ip, j, i, rfl, -, bound, got⟩)
  · dsimp only
    apply wp_seq (wp_scanEmpty dir_)
    rintro ⟨off, found⟩ u ⟨rfl, start⟩
    dsimp only at start ⊢
    have notDev : (u.inode dp).din.type ≠ tDev := by
      rw [dir_.isDir]
      decide
    have inside : off ≤ (u.inode dp).din.size := by
      rw [dir_.size, dir_.len, start]
      exact Nat.mul_le_mul_left _ (vacant_le _)
    subst start
    by_cases fits : direntSize * (dir (node u d)).vacant + direntSize ≤ maxFile * bsize
    · apply wp_seq (dir_.good.wp_writei dir_.loaded (makeDirent name inum) notDev inside fits covers
        (blocks absent))
      rintro r v ⟨rfl, wrote, good, nodes, count⟩
      rw [if_neg (by simp), wp_pure]
      rw [dir_.inum] at nodes
      exact .inr ⟨absent, rfl, ⟨wrote, good, nodes⟩, count⟩
    · have small : maxFile * bsize < 2 ^ 32 - 16 := by decide
      have bound := dir_.size_le
      rw [dir_.size] at inside
      apply wp_seq (wp_writei_past (makeDirent name inum) notDev (by omega) (by decide)
        fun both => fits both.2)
      rintro r v ⟨rfl, rfl⟩
      rw [if_pos (by decide), wp_throw]
      exact limit absent (by omega)
  · dsimp only
    by_cases held : Busy s i
    · unfold iput acquiresleep
      simp only [wp_bind, wp_get]
      rw [if_pos (by rw [got.locked_eq]; exact (dir_.locked_iff got).mpr held), wp_throw]
      exact busy i bound held
    · apply wp_seq (got.put (dir_.unlocked got held))
      intro _ u idle
      rw [wp_pure]
      exact .inl ⟨i, bound, held, got.canGet, rfl, idle⟩

/-- `isdirempty` looks at the slots after the first two. -/
theorem wp_isdirempty :
    wp (isdirempty dp) (fun r t => t = s ∧
      (r = true ↔ ∀ j, 2 ≤ j → j < (dir (node s d)).len → (dir (node s d)).slot j = none)) E s := by
  unfold isdirempty
  by_cases two : 2 ≤ (dir (node s d)).len
  · rw [Nat.mul_comm]
    apply wp_seq (wp_scanEntries dir_ _ (fun e => e.isSome) (fun de => ?_) .isdiremptyReadi two
      (Nat.lt_of_le_of_lt (Nat.sub_le _ _) dir_.fuel))
    · rintro r t ⟨rfl, ⟨j, de, low, inside, rfl, -, passes, -⟩ | ⟨rfl, before⟩⟩
      · rw [wp_pure]
        refine ⟨rfl, ⟨fun no => Bool.noConfusion no, fun empty => ?_⟩⟩
        rw [empty j low inside] at passes
        cases passes
      · rw [wp_pure]
        refine ⟨rfl, ⟨fun _ j low inside => ?_, fun _ => rfl⟩⟩
        simpa using before j low inside
    · have empty := empty_iff de
      rw [Bool.eq_iff_iff, decide_eq_true_iff, Ne, empty]
      cases entryOf de <;> simp
  · have short : ¬ 2 * direntSize < (s.inode dp).din.size := by
      rw [dir_.size, dir_.len]
      unfold direntSize
      omega
    unfold entryFuel
    rw [scanEntries, wp_bind, wp_read, if_neg short, wp_pure, wp_pure]
    exact ⟨rfl, fun _ j late inside => by omega, fun _ => rfl⟩

end Opened

end ColorXv6.Fs.DirEntries
