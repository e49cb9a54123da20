import ColorXv6.Fs.MkfsImage

/-!
Which images mkfs leaves consistent. Nothing checks that an inode number is below
`NINODES`, and the size of the root directory is rounded up by a whole block when its
entries fill their last block, so that the directory then ends in a hole.
-/
namespace ColorXv6.Fs.MkfsConsistency
open Function Lib.LittleEndian Lib.Wp Param Logging.Commit Layout BlockMap Mkfs MkfsAppend MkfsImage

/-- Position `pos` of inode `i` of the image. -/
def stored (s : Image) (i pos : Nat) : Nat := slot s.disk (dinodeAt sb s.disk i) pos

structure Consistent (s : Image) : Prop where
  range : ∀ i < sb.ninodes, ∀ pos, stored s i pos ≠ 0 →
    nmeta ≤ stored s i pos ∧ stored s i pos < fsSize
  once : ∀ i < sb.ninodes, ∀ j < sb.ninodes, ∀ p q, stored s i p ≠ 0 →
    stored s i p = stored s j q → i = j ∧ p = q
  bitmap : ∀ b < bpb, testBit (s.disk sb.bmapstart) b = true ↔
    b < nmeta ∨ ∃ i < sb.ninodes, ∃ pos, stored s i pos = b
  /-- The numbers `ialloc` gave out. -/
  inodes : ∀ i, 1 ≤ i → i < s.freeinode → i < sb.ninodes
  mapped : ∀ i < sb.ninodes, ∀ bn, bn * bsize < (dinodeAt sb s.disk i).size →
    fileBlock s.disk (dinodeAt sb s.disk i) bn ≠ 0

section Finished
variable {files : List HostFile} {tab : Nat → Dinode} {s : Image}

theorem consistent_of_finished (finished : Finished files tab s)
    (few : files.length + 2 ≤ ninodes) (partly : (files.length + 2) % 32 ≠ 0) : Consistent s := by
  have slots : ninodes < inodeSlots := by decide
  have count : sb.ninodes = ninodes := rfl
  have maps := finished.stored.built.maps
  have limit := finished.stored.built.limit
  have inodes := finished.inodes
  have table : ∀ i < sb.ninodes, dinodeAt sb s.disk i = tab i := fun i inside =>
    finished.stored.table i (by omega)
  have same : ∀ i < sb.ninodes, ∀ pos, stored s i pos = slot s.disk (tab i) pos := by
    intro i inside pos
    unfold stored
    rw [table i inside]
  constructor
  case range =>
    intro i inside pos nonzero
    rw [same i inside] at *
    have range := maps.range nonzero
    omega
  case once =>
    intro i left j right p q nonzero equal
    rw [same i left] at nonzero equal
    rw [same j right] at equal
    exact maps.once nonzero equal
  case bitmap =>
    intro b inside
    rw [finished.bitmap b inside, decide_eq_true_iff]
    constructor
    · intro used
      by_cases metadata : b < nmeta
      · exact .inl metadata
      · obtain ⟨⟨i, pos⟩, holds⟩ := maps.exact.held b ⟨by omega, used⟩
        have free : ¬ (i = 0 ∨ s.freeinode ≤ i) := by
          intro free
          have positive : 0 < nmeta := by decide
          rw [(finished.stored.free i free).1, slot_empty] at holds
          omega
        have inside : i < sb.ninodes := by omega
        exact .inr ⟨i, inside, pos, (same i inside pos).trans holds⟩
    · rintro (metadata | ⟨i, used, pos, rfl⟩)
      · have first := maps.first
        omega
      · rw [same i used]
        by_cases zero : slot s.disk (tab i) pos = 0
        · have first := maps.first
          have positive : 0 < nmeta := by decide
          omega
        · exact (maps.range zero).2
  case inodes =>
    intro i _ below
    omega
  case mapped =>
    intro i inside bn below
    rw [table i inside] at *
    rw [finished.stored.size i] at below
    apply (maps.mapped i bn).mpr
    rw [update_apply] at below
    split at below
    · rename_i root
      rw [root, contents_root]
      rw [rootDir_length] at below ⊢
      unfold rootSize at below
      unfold blockCount
      unfold direntSize bsize at *
      omega
    · unfold blockCount
      unfold bsize at *
      omega

/-- A root directory that fills its last block gets a block more than it has. -/
theorem root_hole (finished : Finished files tab s) (filled : (files.length + 2) % 32 = 0) :
    ¬ Consistent s := by
  intro consistent
  have maps := finished.stored.built.maps
  have table := finished.stored.table rootIno (by decide)
  have size := finished.stored.size rootIno
  have last := consistent.mapped rootIno (by decide) ((files.length + 2) / 32)
  rw [table, size, update_self, maps.mapped, contents_root, rootDir_length] at last
  unfold rootSize blockCount at last
  unfold direntSize bsize at last
  omega

end Finished

/-! The counter `freeinode`, and that the loop of `iappend` ends, whatever the image holds. -/

/-- The program ends, and gives out `n` inode numbers if it returns. -/
def Counts {α : Type} (n : Nat) (m : MkM α) : Prop :=
  ∀ s, wp m (fun _ t => t.freeinode = s.freeinode + n) (fun e => e ≠ .endless) s

section Counts
variable {α β : Type}

theorem counts_pure (a : α) : Counts 0 (pure a : MkM α) := fun _ => wp_ret rfl

theorem counts_get : Counts 0 (get : MkM Image) := fun _ => (wp_get _ _ _).mpr rfl

theorem counts_throw {e : Fail} (other : e ≠ .endless) (n : Nat) : Counts n (throw e : MkM α) :=
  fun _ => wp_fail other

theorem counts_bind {m : MkM α} {f : α → MkM β} {k n : Nat} (first : Counts k m)
    (rest : ∀ a, Counts n (f a)) : Counts (k + n) (m >>= f) := by
  intro s
  apply wp_seq (first s)
  intro a t before
  apply wp_mono (rest a t)
  intro _ u after
  omega

theorem counts_seq {m : MkM α} {f : α → MkM β} {n : Nat} (first : Counts 0 m)
    (rest : ∀ a, Counts n (f a)) : Counts n (m >>= f) := by
  have both := counts_bind first rest
  rwa [Nat.zero_add] at both

theorem counts_rsect (sec : Nat) : Counts 0 (rsect sec) :=
  counts_seq counts_get fun s => by
    split
    · exact counts_pure _
    · exact counts_throw (by decide) _

theorem counts_wsect (sec : Nat) (buf : Block) : Counts 0 (wsect sec buf) :=
  fun _ => (wp_modify _ _ _ _).mpr rfl

theorem counts_winode (inum : Nat) (din : Dinode) : Counts 0 (winode inum din) :=
  counts_seq (counts_rsect _) fun _ => counts_wsect _ _

theorem counts_rinode (inum : Nat) : Counts 0 (rinode inum) :=
  counts_seq (counts_rsect _) fun _ => counts_pure _

theorem counts_nextBlock : Counts 0 nextBlock := fun _ => (wp_nextBlock _).mpr rfl

theorem counts_allocAddr (din : Dinode) (k : Nat) : Counts 0 (allocAddr din k) := by
  unfold allocAddr
  split
  · exact counts_seq counts_nextBlock fun _ => counts_pure _
  · exact counts_pure _

theorem counts_mapBlock (din : Dinode) (fbn : Nat) : Counts 0 (mapBlock din fbn) := by
  unfold mapBlock
  split
  · exact counts_seq (counts_allocAddr _ _) fun _ => counts_pure _
  · refine counts_seq (counts_allocAddr _ _) fun din => counts_seq (counts_rsect _) fun indirect => ?_
    split
    · exact counts_seq counts_nextBlock fun _ => counts_seq (counts_wsect _ _) fun _ => counts_pure _
    · exact counts_pure _

theorem counts_appendFrom (p : Bytes) (fuel : Nat) (din : Dinode) (off done n : Nat)
    (enough : (n = 0 ∨ off % bsize + n ≤ (fuel - 1) * bsize) ∧ 0 < fuel) :
    Counts 0 (appendFrom p din off done n fuel) := by
  induction fuel generalizing din off done n with
  | zero => omega
  | succ fuel ih =>
    unfold appendFrom
    split
    · dsimp only
      split
      · refine counts_seq (counts_mapBlock _ _) fun r => counts_seq (counts_rsect _) fun buf =>
          counts_seq (counts_wsect _ _) fun _ => ih _ _ _ _ ?_
        unfold bsize at *
        omega
      · exact counts_throw (by decide) _
    · exact counts_pure _

theorem counts_iappend (inum : Nat) (p : Bytes) (n : Nat) : Counts 0 (iappend inum p n) := by
  refine counts_seq (counts_rinode _) fun din => counts_seq (counts_appendFrom _ _ _ _ _ _ ?_)
    fun _ => counts_winode _ _
  unfold bsize
  omega

theorem counts_copyReads (inum : Nat) (reads : List (List UInt8)) :
    Counts 0 (copyReads inum reads) := by
  induction reads with
  | nil => exact counts_pure _
  | cons r rest ih => exact counts_seq (counts_iappend _ _ _) fun _ => ih

theorem counts_zeroSectors (n : Nat) : Counts 0 (zeroSectors n) := by
  induction n with
  | zero => exact counts_pure _
  | succ n ih => exact counts_seq ih fun _ => counts_wsect _ _

theorem counts_roundRoot (rootino : Nat) : Counts 0 (roundRoot rootino) :=
  counts_seq (counts_rinode _) fun _ => counts_winode _ _

theorem counts_balloc (used : Nat) : Counts 0 (balloc used) := by
  unfold balloc
  split
  · exact counts_wsect _ _
  · exact counts_throw (by decide) _

theorem counts_ialloc (type : Int) : Counts 1 (ialloc type) := by
  intro s
  unfold ialloc
  rw [wp_read, wp_bind, wp_set]
  apply wp_seq (counts_winode _ _ _)
  intro _ t same
  exact wp_ret same

theorem counts_makeRoot : Counts 1 makeRoot := by
  refine counts_bind (n := 0) (counts_ialloc tDir) fun rootino => ?_
  split
  · exact counts_seq (counts_iappend _ _ _) fun _ => counts_seq (counts_iappend _ _ _) fun _ =>
      counts_pure _
  · exact counts_throw (by decide) _

theorem counts_addFiles (rootino : Nat) (files : List HostFile) :
    Counts files.length (addFiles rootino files) := by
  induction files with
  | nil => exact counts_pure _
  | cons f rest ih =>
    have one : Counts (1 + 0) (addFile rootino f) :=
      counts_bind (counts_ialloc tFile) fun _ => counts_seq (counts_iappend _ _ _) fun _ =>
        counts_copyReads _ _
    have both := counts_bind one fun _ => ih
    rw [Nat.add_zero, Nat.add_comm] at both
    exact both

/-- Every argument gets an inode number, and so does the root directory. -/
theorem counts_mkfs (files : List HostFile) : Counts (1 + (files.length + 0)) (mkfs files) :=
  counts_seq (counts_zeroSectors _) fun _ => counts_seq (counts_wsect _ _) fun _ =>
    counts_bind counts_makeRoot fun _ => counts_bind (counts_addFiles _ _) fun _ =>
      counts_seq (counts_roundRoot _) fun _ => counts_seq counts_get fun _ => counts_balloc _

end Counts

/-- When mkfs exits successfully the image is consistent if and only if the inodes fit below
`NINODES` and the entries of the root directory do not fill its last block. -/
theorem mkfs_consistent_iff (files : List HostFile) (image : Image)
    (success : mkfs files start = .ok ((), image)) :
    Consistent image ↔ files.length + 2 ≤ ninodes ∧ (files.length + 2) % 32 ≠ 0 := by
  have inodes := wp_ok (counts_mkfs files start) success
  have first : start.freeinode = 1 := rfl
  have finished : files.length + 2 ≤ ninodes → ∃ tab, Finished files tab image := by
    intro few
    have slots : ninodes < inodeSlots := by decide
    have spec := wp_mkfs (E := fun _ => True) files (by omega) (fun _ => trivial) fun _ _ _ => trivial
    have image := wp_ok spec success
    exact image
  constructor
  · intro consistent
    have few : files.length + 2 ≤ ninodes := by
      by_contra many
      have past := consistent.inodes ninodes (by decide) (by omega)
      exact absurd past (Nat.lt_irrefl _)
    obtain ⟨tab, finished⟩ := finished few
    exact ⟨few, fun filled => root_hole finished filled consistent⟩
  · rintro ⟨few, partly⟩
    obtain ⟨tab, finished⟩ := finished few
    exact consistent_of_finished finished few partly

/-- A file of two bytes. -/
def shortFile : HostFile := ⟨[102], [[104, 105]], by decide⟩

theorem mkfs_shortFiles {n : Nat} (few : n + 2 ≤ inodeSlots) :
    ∃ tab image, mkfs (List.replicate n shortFile) start = .ok ((), image) ∧
      Finished (List.replicate n shortFile) tab image := by
  have blocks : blocksFor (List.replicate n shortFile) =
      pages (blockCount (direntSize * (n + 2))) + n := by
    unfold blocksFor
    rw [List.length_replicate, List.map_replicate, List.sum_replicate_nat]
    have one : pages (blockCount shortFile.content.length) = 1 := by decide
    rw [one, Nat.mul_one]
  have fits : ¬ fsSize < nmeta + blocksFor (List.replicate n shortFile) := by
    have slots : inodeSlots = 208 := rfl
    have metadata : nmeta = 59 := rfl
    rw [blocks, metadata]
    unfold pages blockCount
    unfold direntSize bsize fsSize
    split <;> omega
  have spec := wp_mkfs (E := fun _ => False) (List.replicate n shortFile)
    (by rwa [List.length_replicate]) fits fun f member => by
      rw [List.eq_of_mem_replicate member]
      decide
  obtain ⟨⟨⟩, image, success, tab, finished⟩ := wp_returns spec
  exact ⟨tab, image, success, finished⟩

theorem mkfs_consistent_iff_files :
    ∃ image, mkfs (List.replicate 3 shortFile) start = .ok ((), image) ∧ Consistent image := by
  obtain ⟨-, image, success, -⟩ := mkfs_shortFiles (n := 3) (by decide)
  exact ⟨image, success, (mkfs_consistent_iff _ image success).mpr (by decide)⟩

/-- As many files as the Makefile passes, and one file more than there are inodes. -/
theorem mkfs_inconsistent :
    (∃ image, mkfs (List.replicate 30 shortFile) start = .ok ((), image) ∧ ¬ Consistent image) ∧
    (∃ image, mkfs (List.replicate 199 shortFile) start = .ok ((), image) ∧ ¬ Consistent image) := by
  constructor
  · obtain ⟨tab, image, success, finished⟩ := mkfs_shortFiles (n := 30) (by decide)
    exact ⟨image, success, root_hole finished (by decide)⟩
  · obtain ⟨tab, image, success, finished⟩ := mkfs_shortFiles (n := 199) (by decide)
    refine ⟨image, success, fun consistent => ?_⟩
    have past := consistent.inodes 200 (by decide) (by rw [finished.inodes, List.length_replicate]; decide)
    exact absurd past (by decide)

end ColorXv6.Fs.MkfsConsistency
