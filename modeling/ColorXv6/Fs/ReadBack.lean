import Mathlib.Data.List.TakeWhile
import ColorXv6.Fs.CacheOps
import ColorXv6.Fs.MkfsImage
import ColorXv6.Fs.SysFile

/-!
The kernel on an image of mkfs: `namei` of a name in the root directory finds the file of
that name, and `readi` of its inode returns the bytes of the host file.
-/
namespace ColorXv6.Fs.ReadBack
open Function Lib.LittleEndian Lib.Slots Lib.Wp Param Layout BlockMap Inode Directory SysFile
open Logging.Commit (Block Disk Log LogHeader diskWrite_same diskWrite_other recovered)
open Mkfs (HostFile cstring nmeta ninodes mkfs start)
open CacheOps MkfsAppend MkfsImage ReadBlocks
open Regions (region)
open Store (node)

/-! Entries of the root directory. -/

/-- The name in entry `j` of the root directory. -/
def nameAt (files : List HostFile) (j : Nat) : List UInt8 :=
  ([46] :: [46, 46] :: files.map HostFile.name).getD j []

/-- The inode in entry `j` of the root directory. -/
def inumAt (j : Nat) : Nat := if j < 2 then rootIno else j

variable {j i ip : Nat} {name : List UInt8}

theorem entries_getD {files : List HostFile} {k : Nat} (inside : j < files.length)
    (byte : k < direntSize) (inum : Nat) :
    (entries files inum).getD (direntSize * j + k) 0 =
      makeDirent (cstring ((files.map HostFile.name).getD j [])) (inum + j) k := by
  induction files generalizing j inum with
  | nil => exact absurd inside (Nat.not_lt_zero _)
  | cons f rest ih =>
    unfold entries
    cases j with
    | zero =>
      rw [Nat.mul_zero, Nat.zero_add, List.getD_append _ _ _ _ (by rw [entry_length]; exact byte)]
      exact piece_getD _ byte
    | succ j =>
      rw [Nat.mul_add, Nat.mul_one, List.getD_append_right _ _ _ _ (by rw [entry_length]; omega),
        entry_length, show direntSize * j + direntSize + k - direntSize = direntSize * j + k by omega,
        ih (by rw [List.length_cons] at inside; omega) (inum + 1), Nat.add_right_comm, Nat.add_assoc]
      rfl

theorem rootDir_getD {files : List HostFile} {k : Nat} (inside : j < files.length + 2)
    (byte : k < direntSize) :
    (rootDir files).getD (direntSize * j + k) 0 =
      makeDirent (cstring (nameAt files j)) (inumAt j) k := by
  unfold rootDir
  match j with
  | 0 =>
    rw [List.append_assoc, Nat.mul_zero, Nat.zero_add,
      List.getD_append _ _ _ _ (by rw [entry_length]; exact byte)]
    exact piece_getD _ byte
  | 1 =>
    rw [List.append_assoc, Nat.mul_one,
      List.getD_append_right _ _ _ _ (by rw [entry_length]; omega), entry_length,
      Nat.add_sub_cancel_left, List.getD_append _ _ _ _ (by rw [entry_length]; exact byte)]
    exact piece_getD _ byte
  | j + 2 =>
    have dots : (entry [46] rootIno ++ entry [46, 46] rootIno).length = direntSize * 2 := by
      rw [List.length_append, entry_length, entry_length]
      rfl
    rw [Nat.mul_add, List.getD_append_right _ _ _ _ (by rw [dots]; omega), dots,
      show direntSize * j + direntSize * 2 + k - direntSize * 2 = direntSize * j + k by omega,
      entries_getD (by omega) byte, Nat.add_comm 2]
    rfl

/-- What the bytes of an entry say. -/
theorem dirent_read {de name : Bytes} {inum : Nat} (small : inum < 2 ^ 16)
    (bytes : ∀ k < direntSize, de k = makeDirent name inum k) :
    direntInum de = inum ∧ nameOf (direntName de) = nameOf name := by
  constructor
  · rw [← direntInum_makeDirent name small]
    exact getLE_congr _ _ _ _ fun k _ below => bytes k (by unfold direntSize; omega)
  · rw [← nameOf_makeDirent name inum]
    apply nameFrom_congr
    intro k _ below
    exact bytes _ (by unfold direntSize; unfold dirSiz at below; omega)

/-- A host file name, cut to the length of a name in a directory. -/
theorem nameOf_cstring (terminated : 0 ∉ name) : nameOf (cstring name) = name.take dirSiz :=
  nameFrom_getD terminated 0 dirSiz

/-! The search of `dirlookup`. -/

/-- Entry `dp` of the inode cache is the root directory of the image. -/
structure Root (files : List HostFile) (s : Fs) (dp : Nat) : Prop where
  type : (s.inode dp).din.type = tDir
  size : direntSize * (files.length + 2) ≤ (s.inode dp).din.size
  small : direntSize * (files.length + 2) < 2 ^ 16
  bytes : ∀ k < direntSize * (files.length + 2),
    byteAt s.disk (s.inode dp).din k = (rootDir files).getD k 0
  mapped : ∀ bn, bn * bsize < direntSize * (files.length + 2) →
    fileBlock s.disk (s.inode dp).din bn ≠ 0

section Kernel
variable {files : List HostFile} {s : Fs} {dp : Nat} {E : Halt → Prop}

theorem wp_readi_entry (root : Root files s dp) (inside : j < files.length + 2) :
    wp (readi dp (direntSize * j) direntSize)
      (fun r t => t = s ∧ r.1 = direntSize ∧
        ∀ k < direntSize, r.2 k = makeDirent (cstring (nameAt files j)) (inumAt j) k) E s := by
  have size := root.size
  have small := root.small
  have reach : direntSize * j + direntSize ≤ direntSize * (files.length + 2) := by
    unfold direntSize
    omega
  have file : (s.inode dp).din.type ≠ tDev := by
    rw [root.type]
    decide
  apply wp_mono (wp_readi_mapped file (by omega) (by omega) fun bn below => root.mapped bn (by omega))
  rintro ⟨r, de⟩ t ⟨rfl, count, bytes⟩
  have whole : min direntSize ((t.inode dp).din.size - direntSize * j) = direntSize := by omega
  rw [whole] at count bytes
  refine ⟨rfl, count, fun k below => ?_⟩
  rw [bytes k below, root.bytes _ (by omega), rootDir_getD inside below]

/-- The search stops at the first entry that passes the test. -/
theorem wp_scanEntries_root (root : Root files s dp) (stop : Bytes → Bool) (short : Halt)
    (inside : i < files.length + 2)
    (test : ∀ j ≤ i, ∀ de : Bytes,
      (∀ k < direntSize, de k = makeDirent (cstring (nameAt files j)) (inumAt j) k) →
      stop de = decide (j = i))
    (fuel j : Nat) (before : j ≤ i) (enough : i - j < fuel) :
    wp (scanEntries dp stop short (direntSize * j) fuel)
      (fun r t => t = s ∧ r.1 = direntSize * i ∧ ∃ de, r.2 = some de ∧
        ∀ k < direntSize, de k = makeDirent (cstring (nameAt files i)) (inumAt i) k) E s := by
  induction fuel generalizing j with
  | zero => omega
  | succ fuel ih =>
    have size := root.size
    have reach : direntSize * j < direntSize * (files.length + 2) := by
      unfold direntSize
      omega
    unfold scanEntries
    rw [wp_read, if_pos (by omega)]
    apply wp_seq (wp_readi_entry root (by omega : j < files.length + 2))
    rintro ⟨r, de⟩ t ⟨rfl, count, bytes⟩
    dsimp only at count bytes ⊢
    rw [if_neg (not_not_intro count), test j before de bytes]
    by_cases here : j = i
    · subst here
      rw [if_pos (decide_eq_true rfl), wp_pure]
      exact ⟨rfl, rfl, de, rfl, bytes⟩
    · rw [if_neg (by simpa using here)]
      exact ih (j + 1) (by omega) (by omega)

/-- `dirlookup` of the name in entry `i`, when no entry before it has this name. -/
theorem wp_dirlookup_root (root : Root files s dp) (inside : i < files.length + 2) {name : Bytes}
    (found : nameOf name = nameOf (cstring (nameAt files i)))
    (first : ∀ j < i, nameOf name ≠ nameOf (cstring (nameAt files j)))
    {Q : Option (Nat × Nat) → Fs → Prop}
    (after : wp (iget (inumAt i)) (fun ip t => Q (some (ip, direntSize * i)) t) E s) :
    wp (dirlookup dp name) Q E s := by
  have small := root.small
  have inums : ∀ j ≤ i, inumAt j ≠ 0 ∧ inumAt j < 2 ^ 16 := by
    intro j _
    unfold inumAt rootIno
    unfold direntSize at small
    split <;> omega
  have entries : entryFuel = 4481 := rfl
  unfold dirlookup
  rw [wp_read, if_neg (not_not_intro root.type)]
  have scan := wp_scanEntries_root (E := E) root
    (fun de => direntInum de ≠ 0 ∧ namecmp name (direntName de) = 0) .dirlookupRead inside ?_
    entryFuel 0 (Nat.zero_le i) (by unfold direntSize at small; omega)
  · apply wp_seq scan
    rintro ⟨off, de⟩ t ⟨rfl, place, de, some, bytes⟩
    dsimp only at place some
    rw [place, some]
    rw [wp_bind, (dirent_read (inums i (Nat.le_refl i)).2 bytes).1]
    apply wp_mono after
    intro ip t done
    exact wp_ret done
  · intro j before de bytes
    obtain ⟨inum, same⟩ := dirent_read (inums j before).2 bytes
    apply decide_eq_decide.mpr
    rw [inum, namecmp_eq_zero, same]
    constructor
    · intro passes
      by_contra different
      exact first j (by omega) passes.2
    · rintro rfl
      exact ⟨(inums j before).1, found⟩

/-- `iunlockput` of an inode that stays linked. -/
theorem wp_iunlockput_linked (ref : 0 < (s.inode ip).ref) (held : (s.inode ip).locked = true)
    (linked : (s.inode ip).din.nlink ≠ 0) :
    wp (iunlockput ip) (fun _ t => t = setInode s ip { s.inode ip with
      locked := false, ref := (s.inode ip).ref - 1 }) E s := by
  apply wp_seq (wp_iunlock ref held)
  rintro _ t rfl
  apply wp_mono (wp_iput_kept (by rw [setInode_self]) fun last => ?_)
  · rintro _ t rfl
    rw [setInode_self, setInode_setInode]
  · rw [setInode_self] at last
    exact linked last.2.1

end Kernel

/-! The image, mounted. -/

/-- A file of the host that is no directory. -/
structure Regular (f : HostFile) : Prop where
  nonempty : f.name ≠ []
  chars : ∀ c ∈ f.name, c ≠ 0 ∧ c ≠ slash
  dots : f.name ≠ [46] ∧ f.name ≠ [46, 46]

theorem skipelem_name (nonempty : name ≠ []) (chars : ∀ c ∈ name, c ≠ slash) :
    skipelem (slash :: name) = some (nameBytes name, []) := by
  have keep : name.dropWhile (· = slash) = name := by
    cases name with
    | nil => rfl
    | cons c rest =>
      rw [List.dropWhile_cons_of_neg]
      simpa using chars c List.mem_cons_self
  have skip : (slash :: name).dropWhile (· = slash) = name := by
    rw [List.dropWhile_cons_of_pos (by simp), keep]
  have all : ∀ c ∈ name, decide (c ≠ slash) = true := fun c member => decide_eq_true (chars c member)
  unfold skipelem
  rw [skip, if_neg nonempty, List.takeWhile_eq_self_iff.mpr all, List.dropWhile_eq_nil_iff.mpr all]
  rfl

theorem take_dirSiz_eq {short : List UInt8} (few : short.length < dirSiz)
    (same : name.take dirSiz = short) : name = short := by
  have length := congrArg List.length same
  rw [List.length_take] at length
  rw [← same, List.take_of_length_le (by omega)]

section Mounted
variable {files : List HostFile} {tab : Nat → Dinode} {image : Mkfs.Image} {E : Halt → Prop}

section Image
variable (finished : Finished files tab image)
include finished

theorem mount_sb : (mount image.disk).sb = Mkfs.sb := by
  unfold mount
  dsimp only
  rw [finished.stored.super]
  decide +kernel

/-- The log that `initlog` finds through the superblock. -/
def bootLog : Log := ⟨Mkfs.sb.logstart, Mkfs.sb.nlog, LogHeader.empty⟩

/-- The log of the image is empty, so recovery changes nothing. -/
theorem recovered_image :
    recovered bootLog image.disk = some image.disk := by
  have header : image.disk bootLog.start = zeroBlock :=
    finished.stored.log _ (Nat.le_refl _) (by decide)
  have buffer : Logging.Commit.bread (Logging.Commit.boot image.disk) bootLog.start = zeroBlock := header
  have none : Logging.Commit.headerEntries zeroBlock = [] := rfl
  have erased : Logging.Commit.headerBlock zeroBlock LogHeader.empty = zeroBlock := by
    funext k
    change putLE zeroBlock 0 4 0 k = zeroBlock k
    unfold putLE
    split
    · rw [Nat.zero_div]
      rfl
    · rfl
  have same : Logging.Commit.diskWrite image.disk (bootLog.start, zeroBlock) = image.disk := by
    funext b
    by_cases here : b = bootLog.start
    · rw [here, diskWrite_same, header]
    · exact diskWrite_other _ _ _ here
  have head : Logging.Commit.readHead bootLog (Logging.Commit.boot image.disk) = some bootLog := by
    unfold Logging.Commit.readHead
    simp only [buffer, none]
    rfl
  unfold recovered Logging.Commit.recoverFromLog
  rw [head]
  change some (Logging.Commit.writeHead bootLog (Logging.Commit.boot image.disk)).disk = _
  unfold Logging.Commit.writeHead
  rw [buffer]
  change some (Logging.Commit.diskWrite image.disk
    (bootLog.start, Logging.Commit.headerBlock zeroBlock LogHeader.empty)) = _
  rw [erased, same]

theorem mount_root (few : files.length + 2 ≤ ninodes) {s : Fs} {dp : Nat}
    (disk : s.disk = image.disk) (din : (s.inode dp).din = tab rootIno) :
    Root files s dp := by
  have used := finished.stored.used rootIno (Nat.le_refl _) (by rw [finished.inodes]; unfold rootIno; omega)
  have content := contents_root files
  have length := rootDir_length files
  constructor
  case type =>
    rw [din]
    exact congrArg Prod.fst used
  case size =>
    rw [din, finished.stored.size, update_self, length]
    unfold rootSize direntSize bsize
    omega
  case small =>
    unfold ninodes at few
    unfold direntSize
    omega
  case bytes =>
    intro k inside
    unfold byteAt
    rw [din, disk, finished.stored.built.bytes rootIno k (by rw [content, length]; exact inside), content]
  case mapped =>
    intro bn below
    rw [din, disk, finished.stored.built.maps.mapped, content, length]
    unfold blockCount
    unfold bsize at *
    omega

/-- The root directory is locked in entry `dp` of the cache. -/
def rootLocked (image : Mkfs.Image) (tab : Nat → Dinode) (dp : Nat) : Fs :=
  setInode (mount image.disk) dp ⟨rootIno, 1, true, true, tab rootIno⟩

/-- The root directory has been put back, and entry `ip` of the cache is for inode `inum`. -/
structure Found (image : Mkfs.Image) (inum ip : Nat) (s : Fs) : Prop where
  disk : s.disk = image.disk
  sb : s.sb = Mkfs.sb
  entry : s.inode ip = ⟨inum, 1, false, false, {}⟩

theorem root_header :
    (tab rootIno).type = tDir ∧ (tab rootIno).nlink = 1 := by
  have used := finished.stored.used rootIno (Nat.le_refl _)
    (by rw [finished.inodes]; unfold rootIno; omega)
  exact ⟨congrArg Prod.fst used, congrArg (fun h => h.2.2.2) used⟩

/-- The inode that `ilock` reads. -/
theorem dino_image {s : Fs} (disk : s.disk = image.disk) (sb : s.sb = Mkfs.sb) (inside : i < ninodes) :
    (region s).dino i = tab i := by
  have slots : ninodes < inodeSlots := by decide
  rw [← dino_eq s (by rw [sb]; exact inside), ← finished.stored.table i (by omega), sb, disk]
  rfl

/-- The root directory, from an empty cache. -/
theorem wp_lockRoot {α : Type} {rest : Nat → FsM α} {Q : α → Fs → Prop}
    (after : ∀ dp, wp (rest dp) Q E (rootLocked image tab dp)) :
    wp (do
      let ip ← iget rootIno
      ilock ip
      rest ip) Q E (mount image.disk) := by
  have sb := mount_sb finished
  have din := dino_image finished (s := mount image.disk) rfl sb (i := rootIno) (by decide)
  apply wp_seq (wp_iget rootIno fun none => absurd ⟨0, by decide, .inr rfl⟩ none)
  rintro dp s (⟨_, ref, _, _⟩ | ⟨_, _, _, rfl⟩)
  · exact absurd ref (Int.lt_irrefl 0)
  · obtain ⟨s, cached⟩ : ∃ s, setInode (mount image.disk) dp ⟨rootIno, 1, false, false, {}⟩ = s := ⟨_, rfl⟩
    change wp _ _ _ (setInode (mount image.disk) dp ⟨rootIno, 1, false, false, {}⟩)
    have entry : s.inode dp = ⟨rootIno, 1, false, false, {}⟩ := by rw [← cached, setInode_self]
    have type : (node s (s.inode dp).inum).type ≠ 0 := by
      rw [entry, ← cached, node_setInode]
      change ((region (mount image.disk)).dino rootIno).type ≠ 0
      rw [din, (root_header finished).1]
      decide
    rw [cached]
    apply wp_seq (wp_ilock (by rw [entry]; exact Int.one_pos) ?_ (fun valid => ?_)
      (by rw [entry]) fun none => absurd none type)
    · rintro _ t ⟨rfl, _⟩
      have locked : setInode s dp (locked s dp) = rootLocked image tab dp := by
        unfold locked rootLocked
        rw [entry, ← cached, setInode_setInode, region_setInode, din]
      rw [locked]
      exact after dp
    · rw [entry, ← cached]
      exact sb ▸ (by decide)
    · rw [entry] at valid
      cases valid

/-- The search for entry `i`, and the release of the root directory. -/
theorem wp_lookup_file (few : files.length + 2 ≤ ninodes) {name : Bytes} (inside : i < files.length)
    (same : nameOf name = nameOf (cstring (nameAt files (i + 2))))
    (first : ∀ j < i + 2, nameOf name ≠ nameOf (cstring (nameAt files j))) {α : Type} {dp : Nat}
    {rest : Nat → FsM α} {other : FsM α} {Q : α → Fs → Prop}
    (after : ∀ ip s, Found image (i + 2) ip s → wp (rest ip) Q E s) :
    wp (do
      match ← dirlookup dp name with
      | none => other
      | some (next, _) =>
        iunlockput dp
        rest next) Q E (rootLocked image tab dp) := by
  obtain ⟨s, here⟩ : ∃ s, rootLocked image tab dp = s := ⟨_, rfl⟩
  have cached : s.inode dp = ⟨rootIno, 1, true, true, tab rootIno⟩ := by
    rw [← here]
    exact setInode_self
  have empty : ∀ k, k ≠ dp → s.inode k = {} := fun k other => by
    rw [← here]
    exact setInode_other other
  have root : Root files s dp := mount_root finished few (by rw [← here]; rfl) (by rw [cached])
  have inum : inumAt (i + 2) = i + 2 := if_neg (by omega)
  rw [here, wp_bind]
  apply wp_dirlookup_root root (by omega : i + 2 < files.length + 2) same first
  rw [inum]
  apply wp_mono (wp_iget (i + 2) fun none => absurd ?_ none)
  · rintro ip t got
    have apart : ip ≠ dp := by
      rintro rfl
      rcases got with ⟨_, _, same, _⟩ | ⟨_, free, _, _⟩
      · rw [cached] at same
        have root : rootIno = i + 2 := same
        unfold rootIno at root
        omega
      · rw [cached] at free
        cases free
    obtain rfl : t = setInode s ip ⟨i + 2, 1, false, false, {}⟩ := by
      rcases got with ⟨_, ref, _, _⟩ | ⟨_, _, _, after⟩
      · rw [empty ip apart] at ref
        exact absurd ref (Int.lt_irrefl 0)
      · rw [after, empty ip apart]
    have root : (setInode s ip ⟨i + 2, 1, false, false, {}⟩).inode dp =
        ⟨rootIno, 1, true, true, tab rootIno⟩ := by
      rw [setInode_other apart.symm, cached]
    apply wp_seq (wp_iunlockput_linked (by rw [root]; exact Int.one_pos) (by rw [root]) ?_)
    · rintro _ t rfl
      refine after ip _ ⟨?_, ?_, ?_⟩
      · rw [← here]
        rfl
      · rw [← here]
        exact mount_sb finished
      · rw [setInode_other apart, setInode_self]
    · rw [root, (root_header finished).2]
      decide
  · -- two entries cannot both be that of the root directory
    obtain ⟨k, inside, other⟩ : ∃ k < ninode, k ≠ dp := by
      by_cases zero : dp = 0
      · exact ⟨1, by decide, by omega⟩
      · exact ⟨0, by decide, by omega⟩
    exact ⟨k, inside, .inr (by rw [empty k other])⟩

theorem wp_namei_file (few : files.length + 2 ≤ ninodes) (p : Nat) (inside : i < files.length)
    (nonempty : name ≠ []) (chars : ∀ c ∈ name, c ≠ slash)
    (same : nameOf (nameBytes name) = nameOf (cstring (nameAt files (i + 2))))
    (first : ∀ j < i + 2, nameOf (nameBytes name) ≠ nameOf (cstring (nameAt files j))) :
    wp (namei p (slash :: name)) (fun r s => ∃ ip, r = some ip ∧ Found image (i + 2) ip s) E
      (mount image.disk) := by
  unfold namei namex
  rw [wp_bind, wp_read, if_pos List.head?_cons]
  unfold namexFrom
  rw [skipelem_name nonempty chars]
  apply wp_lockRoot finished
  intro dp
  have type : ((rootLocked image tab dp).inode dp).din.type = tDir := by
    unfold rootLocked
    rw [setInode_self]
    exact (root_header finished).1
  rw [wp_read, if_neg (not_not_intro type), if_neg (by decide)]
  apply wp_lookup_file finished few inside same first
  intro ip s found
  -- the path is used up
  rw [List.length_cons]
  change wp (pure (some (ip, nameBytes name))) _ _ _
  rw [wp_pure, wp_pure]
  exact ⟨ip, rfl, found⟩

theorem file_header (inside : i < files.length) :
    (tab (i + 2)).type = tFile := by
  have used := finished.stored.used (i + 2) (by omega) (by rw [finished.inodes]; omega)
  have type := congrArg Prod.fst used
  unfold headerOf at type
  rw [if_neg (by unfold rootIno; omega)] at type
  exact type

theorem wp_ilock_file (inside : i < files.length) (few : files.length + 2 ≤ ninodes) {s : Fs}
    (found : Found image (i + 2) ip s) :
    wp (ilock ip) (fun _ t => t.disk = image.disk ∧ (t.inode ip).din = tab (i + 2)) E s := by
  have din := dino_image finished found.disk found.sb (by omega : i + 2 < ninodes)
  have entry := found.entry
  apply wp_mono (wp_ilock (by rw [entry]; exact Int.one_pos) ?_ (fun valid => ?_)
    (by rw [entry]) fun none => ?_)
  · rintro _ t ⟨rfl, _⟩
    refine ⟨found.disk, ?_⟩
    rw [setInode_self]
    unfold locked
    rw [entry, din]
  · rw [entry, found.sb]
    exact (by omega : i + 2 < ninodes)
  · rw [entry] at valid
    cases valid
  · rw [entry] at none
    change ((region s).dino (i + 2)).type = 0 at none
    rw [din, file_header finished inside] at none
    exact absurd none (by decide)

/-- What `readi` returns of the inode of a host file. -/
def ReadsAs (content : List UInt8) (ip off n : Nat) (t : Fs) : Prop :=
  ∃ r dst, readi ip off n t = .ok ((r, dst), t) ∧
    if off ≤ content.length ∧ off + n < 2 ^ 32 then
      r = (min n (content.length - off) : Nat) ∧
        ∀ k < min n (content.length - off), dst k = content.getD (off + k) 0
    else r = -1

theorem readsAs_file (inside : i < files.length) {t : Fs} {off n : Nat} (disk : t.disk = image.disk)
    (din : (t.inode ip).din = tab (i + 2)) (off32 : off < 2 ^ 32)
    (n32 : n < 2 ^ 32) : ReadsAs files[i].content ip off n t := by
  have content := contents_file inside
  have size : (t.inode ip).din.size = files[i].content.length := by
    rw [din, finished.stored.size, update_of_ne (by unfold rootIno; omega), content]
  have file : (t.inode ip).din.type ≠ tDev := by
    rw [din, file_header finished inside]
    decide
  by_cases within : off ≤ files[i].content.length ∧ off + n < 2 ^ 32
  · have read := wp_readi_mapped (E := fun _ => False) file (by omega) within.2 ?_
    · obtain ⟨⟨r, dst⟩, u, result, rfl, count, bytes⟩ := wp_returns read
      rw [size] at count bytes
      dsimp only at bytes
      refine ⟨r, dst, result, ?_⟩
      rw [if_pos within]
      refine ⟨count, fun k below => ?_⟩
      have built := finished.stored.built.bytes (i + 2) (off + k) (by rw [content]; omega)
      rw [bytes k below, din, disk]
      unfold byteAt
      rw [built, content]
    · intro bn below
      rw [din, disk, finished.stored.built.maps.mapped, content]
      unfold blockCount
      unfold bsize at *
      omega
  · have read := wp_readi_past (E := fun _ => False) file off32 n32 (by rwa [size])
    obtain ⟨⟨r, dst⟩, u, result, rfl, count⟩ := wp_returns read
    refine ⟨r, dst, result, ?_⟩
    rw [if_neg within]
    exact congrArg Prod.fst count

end Image

/-- Names that differ after truncation, and are not those of the first two entries. -/
theorem names_apart (regular : ∀ f ∈ files, Regular f)
    (distinct : (files.map fun f => f.name.take dirSiz).Nodup) (inside : i < files.length)
    (before : j < i + 2) :
    nameOf (cstring (nameAt files (i + 2))) ≠ nameOf (cstring (nameAt files j)) := by
  have nul : ∀ f ∈ files, nameOf (cstring f.name) = f.name.take dirSiz := fun f member =>
    nameOf_cstring fun nul => ((regular f member).chars 0 nul).1 rfl
  have name : ∀ k (below : k < files.length), nameAt files (k + 2) = (files.get ⟨k, below⟩).name := by
    intro k below
    unfold nameAt
    rw [List.getD_cons_succ, List.getD_cons_succ, List.getD_eq_getElem _ _ (by simpa using below),
      List.getElem_map]
    rfl
  have here := List.get_mem files ⟨i, inside⟩
  rw [name i inside, nul _ here]
  match j with
  | 0 => exact fun same => (regular _ here).dots.1 (take_dirSiz_eq (by decide) same)
  | 1 => exact fun same => (regular _ here).dots.2 (take_dirSiz_eq (by decide) same)
  | j + 2 =>
    have below : j < files.length := by omega
    rw [name j below, nul _ (List.get_mem files ⟨j, below⟩)]
    intro same
    have differ := List.pairwise_iff_getElem.mp distinct j i (by simpa using below)
      (by simpa using inside) (by omega)
    rw [List.getElem_map, List.getElem_map] at differ
    exact differ same.symm

end Mounted

/-- For files that fit, mkfs builds an image on which, after log recovery, `namei` finds every
file by its name, and `readi` of its inode returns the bytes of the host file at every offset
and count. -/
theorem kernel_reads_back (files : List HostFile) (regular : ∀ f ∈ files, Regular f)
    (distinct : (files.map fun f => f.name.take dirSiz).Nodup)
    (sizes : ∀ f ∈ files, f.content.length ≤ maxFile * bsize)
    (inodes : files.length + 2 ≤ ninodes) (blocks : nmeta + blocksFor files ≤ fsSize) :
    ∃ image disk, mkfs files start = .ok ((), image) ∧ recovered bootLog image.disk = some disk ∧
      ∀ f ∈ files, ∀ p, ∃ ip s t, namei p (slash :: f.name) (mount disk) = .ok (some ip, s) ∧
        ilock ip s = .ok ((), t) ∧ (t.inode ip).din.size = f.content.length ∧
        ∀ off n, off < 2 ^ 32 → n < 2 ^ 32 → ReadsAs f.content ip off n t := by
  have slots : ninodes < inodeSlots := by decide
  have spec := wp_mkfs (E := fun _ => False) files (by omega) (by omega) fun f member past =>
    absurd past (Nat.not_lt.mpr (sizes f member))
  obtain ⟨⟨⟩, image, success, tab, finished⟩ := wp_returns spec
  refine ⟨image, image.disk, success, recovered_image finished, fun f member p => ?_⟩
  obtain ⟨i, inside, rfl⟩ := List.getElem_of_mem member
  have name : nameAt files (i + 2) = files[i].name := by
    unfold nameAt
    rw [List.getD_cons_succ, List.getD_cons_succ, List.getD_eq_getElem _ _ (by simpa using inside),
      List.getElem_map]
  have same : nameOf (nameBytes files[i].name) = nameOf (cstring (nameAt files (i + 2))) := by
    have terminated : 0 ∉ files[i].name := fun nul => ((regular _ member).chars 0 nul).1 rfl
    rw [nameOf_nameBytes terminated, name, nameOf_cstring terminated]
  have lookup := wp_namei_file (E := fun _ => False) finished inodes p inside
    (regular _ member).nonempty (fun c char => ((regular _ member).chars c char).2) same
    (fun j before => by rw [same]; exact names_apart regular distinct inside before)
  obtain ⟨r, s, lookup, ip, rfl, found⟩ := wp_returns lookup
  have lock := wp_ilock_file (E := fun _ => False) finished inside inodes found
  obtain ⟨⟨⟩, t, lock, disk, din⟩ := wp_returns lock
  refine ⟨ip, s, t, lookup, lock, ?_, fun off n off32 n32 => ?_⟩
  · rw [din, finished.stored.size, update_of_ne (by unfold rootIno; omega), contents_file inside]
  · exact readsAs_file finished inside disk din off32 n32

/-- A file of three bytes that the host returns in two reads. -/
def sample : HostFile := ⟨[102], [[1], [2, 3]], by decide⟩

theorem kernel_reads_back_sample :
    ∃ image disk, mkfs [sample] start = .ok ((), image) ∧ recovered bootLog image.disk = some disk ∧
      ∀ f ∈ [sample], ∀ p, ∃ ip s t, namei p (slash :: f.name) (mount disk) = .ok (some ip, s) ∧
        ilock ip s = .ok ((), t) ∧ (t.inode ip).din.size = f.content.length ∧
        ∀ off n, off < 2 ^ 32 → n < 2 ^ 32 → ReadsAs f.content ip off n t := by
  apply kernel_reads_back [sample]
  · intro f member
    obtain rfl := List.mem_singleton.mp member
    refine ⟨by decide, fun c char => ?_, by decide⟩
    obtain rfl := List.mem_singleton.mp char
    decide
  · decide
  · intro f member
    obtain rfl := List.mem_singleton.mp member
    decide
  · decide
  · decide

end ColorXv6.Fs.ReadBack
