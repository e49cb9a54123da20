import ColorXv6.Fs.SysFile

/-!
What the programs of the file system leave alone: who refers to which inode. Everything
that works on the contents of inodes keeps this view of the state, and so do the system
calls that only read and write open files.
-/
namespace ColorXv6.Fs.Frame
open Lib.LittleEndian Lib.Wp Param Logging.Commit Layout Inode Directory SysFile

/-- What can refer to an entry of the inode cache: open files and processes. -/
structure Users where
  fileRef : Nat → Int
  fileType : Nat → FdType
  fileIp : Nat → Nat
  cwd : Nat → Option Nat
  live : Nat → Bool

def users (s : Fs) : Users :=
  { fileRef := fun i => (s.file i).ref, fileType := fun i => (s.file i).type,
    fileIp := fun i => (s.file i).ip, cwd := fun p => (s.proc p).cwd,
    live := fun p => (s.proc p).live }

/-- The references to inodes: counts, what is cached, and the users. -/
def view (s : Fs) : (Nat → Int × Nat) × Users :=
  (fun k => ((s.inode k).ref, (s.inode k).inum), users s)

theorem keeps_bread (b : Nat) : Keeps view (bread b) :=
  keeps_read fun _ => keeps_pure _

theorem keeps_logWrite (b : Nat) (data : Block) : Keeps view (logWrite b data) :=
  keeps_modify fun _ => rfl

theorem keeps_modifyInode (ip : Nat) {f : Inode → Inode}
    (same : ∀ i, ((f i).ref, (f i).inum) = (i.ref, i.inum)) : Keeps view (modifyInode ip f) := by
  apply keeps_modify
  intro s
  refine Prod.ext (funext fun k => ?_) rfl
  dsimp only [view]
  split
  · exact same _
  · rfl

theorem keeps_modifyDin (ip : Nat) (f : Dinode → Dinode) : Keeps view (modifyDin ip f) :=
  keeps_modifyInode ip fun _ => rfl

theorem keeps_ballocFrom (b n : Nat) : Keeps view (ballocFrom b n) := by
  induction n generalizing b with
  | zero => exact keeps_throw _
  | succ n ih =>
    rw [ballocFrom]
    apply keeps_read
    intro s
    split
    · apply keeps_bind (keeps_bread _)
      intro data
      split
      · apply keeps_bind (keeps_logWrite _ _)
        intro _
        exact keeps_bind (keeps_logWrite _ _) fun _ => keeps_pure _
      · exact ih _
    · exact keeps_throw _

theorem keeps_balloc : Keeps view balloc :=
  keeps_read fun _ => keeps_ballocFrom _ _

theorem keeps_bfree (b : Nat) : Keeps view (bfree b) := by
  refine keeps_bind (keeps_bind (keeps_bread _) fun _ => keeps_modify ?_) fun _ => ?_
  · exact fun _ => rfl
  apply keeps_read
  intro s
  apply keeps_bind (keeps_bread _)
  intro data
  split
  · exact keeps_logWrite _ _
  · exact keeps_throw _

theorem keeps_acquiresleep (ip : Nat) : Keeps view (acquiresleep ip) := by
  apply keeps_read
  intro s
  split
  · exact keeps_throw _
  · exact keeps_modifyInode ip fun _ => rfl

theorem keeps_releasesleep (ip : Nat) : Keeps view (releasesleep ip) :=
  keeps_modifyInode ip fun _ => rfl

theorem keeps_iupdate (ip : Nat) : Keeps view (iupdate ip) := by
  apply keeps_read
  intro s
  exact keeps_bind (keeps_bread _) fun _ => keeps_logWrite _ _

theorem keeps_ilock (ip : Nat) : Keeps view (ilock ip) := by
  apply keeps_read
  intro s
  split
  · exact keeps_throw _
  · apply keeps_bind (keeps_acquiresleep ip)
    intro _
    split
    · exact keeps_pure _
    · apply keeps_bind (keeps_bread _)
      intro data
      refine keeps_bind (keeps_modifyInode ip ?_) fun _ => ?_
      · exact fun _ => rfl
      split
      · exact keeps_throw _
      · exact keeps_pure _

theorem keeps_iunlock (ip : Nat) : Keeps view (iunlock ip) := by
  apply keeps_read
  intro s
  split
  · exact keeps_throw _
  · exact keeps_releasesleep ip

theorem keeps_mapAddr (ip n : Nat) : Keeps view (mapAddr ip n) := by
  apply keeps_read
  intro s
  dsimp only
  split
  · apply keeps_bind keeps_balloc
    intro addr
    exact keeps_bind (keeps_modifyDin _ _) fun _ => keeps_pure _
  · exact keeps_pure _

theorem keeps_bmap (ip bn : Nat) : Keeps view (bmap ip bn) := by
  unfold bmap
  split
  · exact keeps_mapAddr ip bn
  · split
    · apply keeps_bind (keeps_mapAddr ip _)
      intro indirect
      apply keeps_bind (keeps_bread _)
      intro a
      split
      · apply keeps_bind keeps_balloc
        intro addr
        exact keeps_bind (keeps_logWrite _ _) fun _ => keeps_pure _
      · exact keeps_pure _
    · exact keeps_throw _

theorem keeps_truncDirect (ip n : Nat) : Keeps view (truncDirect ip n) := by
  induction n with
  | zero => exact keeps_pure _
  | succ n ih =>
    rw [truncDirect]
    apply keeps_bind ih
    intro _
    apply keeps_read
    intro s
    dsimp only
    split
    · exact keeps_pure _
    · exact keeps_bind (keeps_bfree _) fun _ => keeps_modifyDin _ _

theorem keeps_truncIndirect (a : Block) (n : Nat) : Keeps view (truncIndirect a n) := by
  induction n with
  | zero => exact keeps_pure _
  | succ n ih =>
    rw [truncIndirect]
    apply keeps_bind ih
    intro _
    split
    · exact keeps_pure _
    · exact keeps_bfree _

theorem keeps_itrunc (ip : Nat) : Keeps view (itrunc ip) := by
  apply keeps_bind (keeps_truncDirect ip _)
  intro _
  apply keeps_read
  intro s
  dsimp only
  split
  · apply keeps_bind (keeps_bread _)
    intro a
    apply keeps_bind (keeps_truncIndirect a _)
    intro _
    apply keeps_bind (keeps_bfree _)
    intro _
    apply keeps_bind (keeps_modifyDin _ _)
    intro _
    exact keeps_bind (keeps_modifyDin _ _) fun _ => keeps_iupdate ip
  · exact keeps_bind (keeps_modifyDin _ _) fun _ => keeps_iupdate ip

theorem keeps_readBlocks (ip n off tot : Nat) (dst : Bytes) (fuel : Nat) :
    Keeps view (readBlocks ip n off tot dst fuel) := by
  induction fuel generalizing off tot dst with
  | zero => exact keeps_throw _
  | succ fuel ih =>
    rw [readBlocks]
    split
    · apply keeps_bind (keeps_bmap ip _)
      intro b
      apply keeps_bind (keeps_bread b)
      intro data
      exact ih _ _ _
    · exact keeps_pure _

theorem keeps_readi (ip off n : Nat) : Keeps view (readi ip off n) := by
  apply keeps_read
  intro s
  dsimp only
  split
  · split
    · exact keeps_pure _
    · exact keeps_pure _
  · split
    · exact keeps_pure _
    · exact keeps_bind (keeps_readBlocks _ _ _ _ _ _) fun _ => keeps_pure _

theorem keeps_writeBlocks (ip : Nat) (src : Bytes) (n off tot fuel : Nat) :
    Keeps view (writeBlocks ip src n off tot fuel) := by
  induction fuel generalizing off tot with
  | zero => exact keeps_throw _
  | succ fuel ih =>
    rw [writeBlocks]
    split
    · apply keeps_bind (keeps_bmap ip _)
      intro b
      apply keeps_bind (keeps_bread b)
      intro data
      apply keeps_bind (keeps_logWrite _ _)
      intro _
      exact ih _ _
    · exact keeps_pure _

theorem keeps_writei (ip : Nat) (src : Bytes) (off n : Nat) : Keeps view (writei ip src off n) := by
  apply keeps_read
  intro s
  dsimp only
  split
  · split
    · exact keeps_pure _
    · exact keeps_pure _
  · split
    · exact keeps_pure _
    · split
      · exact keeps_pure _
      · apply keeps_bind (keeps_writeBlocks _ _ _ _ _ _)
        intro off
        split
        · apply keeps_bind (keeps_modifyDin _ _)
          intro _
          exact keeps_bind (keeps_iupdate ip) fun _ => keeps_pure _
        · exact keeps_pure _

theorem keeps_stati (ip : Nat) : Keeps view (stati ip) :=
  keeps_read fun _ => keeps_pure _

theorem keeps_scanEntries (dp : Nat) (stop : Bytes → Bool) (short : Halt) (off fuel : Nat) :
    Keeps view (scanEntries dp stop short off fuel) := by
  induction fuel generalizing off with
  | zero => exact keeps_throw _
  | succ fuel ih =>
    rw [scanEntries]
    apply keeps_read
    intro s
    split
    · apply keeps_bind (keeps_readi _ _ _)
      rintro ⟨r, de⟩
      dsimp only
      split
      · exact keeps_throw _
      · split
        · exact keeps_pure _
        · exact ih _
    · exact keeps_pure _

theorem keeps_isdirempty (dp : Nat) : Keeps view (isdirempty dp) :=
  keeps_bind (keeps_scanEntries _ _ _ _ _) fun _ => keeps_pure _

theorem keeps_beginOp : Keeps view beginOp := keeps_modify fun _ => rfl

theorem keeps_mayRemove (ip : Nat) (type : Int) : Keeps view (mayRemove ip type) := by
  unfold mayRemove
  split
  · exact keeps_isdirempty ip
  · exact keeps_pure _

theorem keeps_dropParent (dp : Nat) (type : Int) : Keeps view (dropParent dp type) := by
  unfold dropParent
  split
  · exact keeps_bind (keeps_modifyDin _ _) fun _ => keeps_iupdate dp
  · exact keeps_pure _

theorem keeps_readAll (ip : Nat) (reads : List (Nat × Nat)) : Keeps view (readAll ip reads) := by
  induction reads with
  | nil => exact keeps_pure _
  | cons r reads ih => exact keeps_bind (keeps_readi _ _ _) fun _ => ih

theorem keeps_modifyFile (i : Nat) {f : File → File}
    (same : ∀ file, (f file).ref = file.ref ∧ (f file).type = file.type ∧ (f file).ip = file.ip) :
    Keeps view (modifyFile i f) := by
  apply keeps_modify
  intro s
  dsimp only [view, users]
  congr 2
  · funext j
    split
    · exact (same _).1
    · rfl
  · funext j
    split
    · exact (same _).2.1
    · rfl
  · funext j
    split
    · exact (same _).2.2
    · rfl

theorem keeps_setOfile (p fd : Nat) (f : Option Nat) : Keeps view (modifyProc p (setOfile fd f)) := by
  apply keeps_modify
  intro s
  dsimp only [view, users]
  congr 2
  · funext q
    split
    · rfl
    · rfl
  · funext q
    split
    · rfl
    · rfl

theorem keeps_fdalloc (p f : Nat) : Keeps view (fdalloc p f) := by
  apply keeps_read
  intro s
  split
  · exact keeps_pure _
  · exact keeps_bind (keeps_setOfile _ _ _) fun _ => keeps_pure _

theorem keeps_argfd (p : Nat) (fd : Int) : Keeps view (argfd p fd) := by
  apply keeps_read
  intro s
  split
  · exact keeps_pure _
  · exact keeps_pure _

theorem keeps_addOff (i : Nat) (r : Int) :
    Keeps view (modifyFile i fun f => { f with off := (f.off + r.toNat) % 2 ^ 32 }) :=
  keeps_modifyFile i fun _ => ⟨rfl, rfl, rfl⟩

theorem keeps_fileread (i n : Nat) : Keeps view (fileread i n) := by
  apply keeps_read
  intro s
  dsimp only
  split
  · exact keeps_pure _
  · split
    · apply keeps_bind (keeps_ilock _)
      intro _
      apply keeps_bind (keeps_readi _ _ _)
      rintro ⟨r, data⟩
      split
      · apply keeps_bind (keeps_addOff _ _)
        intro _
        exact keeps_bind (keeps_iunlock _) fun _ => keeps_pure _
      · exact keeps_bind (keeps_iunlock _) fun _ => keeps_pure _
    · exact keeps_throw _

theorem keeps_writeChunks (i : Nat) (addr : Bytes) (n done fuel : Nat) :
    Keeps view (writeChunks i addr n done fuel) := by
  induction fuel generalizing done with
  | zero => exact keeps_throw _
  | succ fuel ih =>
    have rest : ∀ (r : Int) (n1 : Nat) (ip : Nat), Keeps view (iunlock ip >>= fun _ =>
        if r < 0 then pure (-1) else if r ≠ n1 then throw .shortFilewrite
        else writeChunks i addr n (done + n1) fuel) := by
      intro r n1 ip
      apply keeps_bind (keeps_iunlock _)
      intro _
      split
      · exact keeps_pure _
      · split
        · exact keeps_throw _
        · exact ih _
    rw [writeChunks]
    split
    · apply keeps_bind keeps_beginOp
      intro _
      apply keeps_read
      intro s
      apply keeps_bind (keeps_ilock _)
      intro _
      apply keeps_bind (keeps_writei _ _ _ _)
      intro r
      dsimp only
      split
      · exact keeps_bind (keeps_addOff _ _) fun _ => rest _ _ _
      · exact rest _ _ _
    · exact keeps_pure _

theorem keeps_filewrite (i : Nat) (addr : Bytes) (n : Nat) : Keeps view (filewrite i addr n) := by
  apply keeps_read
  intro s
  split
  · exact keeps_pure _
  · split
    · exact keeps_writeChunks _ _ _ _ _
    · exact keeps_throw _

theorem keeps_filestat (i : Nat) : Keeps view (filestat i) := by
  apply keeps_read
  intro s
  split
  · apply keeps_bind (keeps_ilock _)
    intro _
    apply keeps_bind (keeps_stati _)
    intro st
    exact keeps_bind (keeps_iunlock _) fun _ => keeps_pure _
  · exact keeps_pure _

theorem keeps_sysRead (p : Nat) (fd : Int) (n : Nat) : Keeps view (sysRead p fd n) := by
  apply keeps_bind (keeps_argfd p fd)
  intro r
  split
  · exact keeps_pure _
  · exact keeps_fileread _ _

theorem keeps_sysWrite (p : Nat) (fd : Int) (addr : Bytes) (n : Nat) :
    Keeps view (sysWrite p fd addr n) := by
  apply keeps_bind (keeps_argfd p fd)
  intro r
  split
  · exact keeps_pure _
  · exact keeps_filewrite _ _ _

theorem keeps_sysFstat (p : Nat) (fd : Int) : Keeps view (sysFstat p fd) := by
  apply keeps_bind (keeps_argfd p fd)
  intro r
  split
  · exact keeps_pure _
  · exact keeps_filestat _

end ColorXv6.Fs.Frame
