import ColorXv6.Fs.MkfsAppend

/-!
The image mkfs builds: the inode table on the disk, the files in the order of the
arguments, and the root directory that names them.
-/
namespace ColorXv6.Fs.MkfsImage
open Function Lib.LittleEndian Lib.Wp Lib.Places Param Logging.Commit Layout BlockMap Mkfs MkfsAppend

/-- Inodes that the inode blocks have place for. -/
def inodeSlots : Nat := ninodeblocks * ipb

/-- What `ialloc` puts in the fields that `iappend` keeps. -/
def headerOf (i : Nat) : Int × Int × Int × Int := (if i = rootIno then tDir else tFile, 0, 0, 1)

/-- Inode `i` below `freeinode` is a file with content `content i` and size `size i`, as the
inode table on the disk says. -/
structure Stored (content : Nat → List UInt8) (size : Nat → Nat) (tab : Nat → Dinode)
    (s : Image) : Prop where
  built : Built content tab s
  table : ∀ i < inodeSlots, dinodeAt sb s.disk i = tab i
  size : ∀ i, (tab i).size = size i
  used : ∀ i, 1 ≤ i → i < s.freeinode → header (tab i) = headerOf i
  free : ∀ i, i = 0 ∨ s.freeinode ≤ i → tab i = {} ∧ content i = []
  super : s.disk 1 = buffer (putSb sb)
  log : ∀ b, sb.logstart ≤ b → b < sb.inodestart → s.disk b = zeroBlock

variable {i : Nat}

section Stored
variable {content : Nat → List UInt8} {size : Nat → Nat} {tab : Nat → Dinode} {s : Image}
  {E : Fail → Prop}

/-- The state after `winode`. -/
def putInode (s : Image) (i : Nat) (din : Dinode) : Image :=
  { s with
    disk := diskWrite s.disk
      (iblock sb i, buffer (putDinode (s.disk (iblock sb i)) (inodeOff i) din))
    len := max s.len (iblock sb i + 1) }

theorem putInode_other (s : Image) {b : Nat} (din : Dinode) (other : b ≠ iblock sb i) :
    (putInode s i din).disk b = s.disk b := if_neg other

theorem iblock_range (inum : i < inodeSlots) :
    sb.inodestart ≤ iblock sb i ∧ iblock sb i < sb.bmapstart := by
  have start : sb.inodestart = 32 := rfl
  have stop : sb.bmapstart = 58 := rfl
  have count : inodeSlots = 208 := rfl
  have per : ipb = 8 := rfl
  unfold iblock
  rw [per]
  omega

theorem wp_winode (inum : i < inodeSlots) (din : Dinode) (len : s.len = fsSize)
    {Q : Unit → Image → Prop} (after : Q () (putInode s i din)) : wp (winode i din) Q E s := by
  have range := (iblock_range inum).2
  have stop : sb.bmapstart < fsSize := by decide
  unfold winode
  rw [wp_bind]
  apply wp_rsect
  · intro _
    exact (wp_modify _ _ _ _).mpr after
  · intro past
    omega

theorem wp_rinode (inum : i < inodeSlots) (len : s.len = fsSize) {Q : Dinode → Image → Prop}
    (after : Q (dinodeAt sb s.disk i) s) : wp (rinode i) Q E s := by
  have range := (iblock_range inum).2
  have stop : sb.bmapstart < fsSize := by decide
  unfold rinode
  rw [wp_bind]
  apply wp_rsect
  · intro _
    exact wp_ret after
  · intro past
    omega

/-- Inode `i` of the table on the disk changes. -/
theorem Stored.putInode (stored : Stored content size tab s) (inum : i < inodeSlots) {t : Image}
    {after : Nat → List UInt8} {din : Dinode} (fits : din.Fits)
    (built : Built after (update tab i din) t) (below : ∀ b < nmeta, t.disk b = s.disk b)
    (inodes : s.freeinode ≤ t.freeinode) (used : 1 ≤ i ∧ i < t.freeinode)
    (news : ∀ j, s.freeinode ≤ j → j < t.freeinode → j = i) (head : header din = headerOf i)
    (others : ∀ j, j ≠ i → after j = content j) :
    Stored after (update size i din.size) (update tab i din) (putInode t i din) := by
  have range := iblock_range inum
  have top : sb.bmapstart < nmeta := by decide
  have low : sb.inodestart = 32 := rfl
  have limit : nmeta < fsSize := by decide
  have len := built.maps.len
  constructor
  case built => exact built.metadata (by omega) _ (by omega)
  case table =>
    intro j inside
    have place := iblock_range inside
    have same : dinodeAt sb t.disk j = dinodeAt sb s.disk j := by
      unfold dinodeAt
      rw [below _ (by omega)]
    unfold MkfsImage.putInode
    rw [dinodeAt_putDinode _ _ _ _ fits, update_apply, same, stored.table j inside]
  case size =>
    intro j
    rw [update_apply, update_apply]
    split
    · rfl
    · exact stored.size j
  case used =>
    intro j positive inside
    rw [update_apply]
    split
    · rename_i same
      rw [same, head]
    · rename_i different
      have old : j < s.freeinode := by
        by_contra new
        exact different (news j (Nat.le_of_not_lt new) inside)
      exact stored.used j positive old
  case free =>
    intro j free
    have different : j ≠ i := by
      change j = 0 ∨ t.freeinode ≤ j at free
      omega
    rw [update_of_ne different, others j different]
    exact stored.free j (by change j = 0 ∨ t.freeinode ≤ j at free; omega)
  case super =>
    rw [putInode_other _ _ (by omega), below 1 (by decide), stored.super]
  case log =>
    intro b lo hi
    rw [putInode_other _ _ (by omega), below b (by omega), stored.log b lo hi]

/-- The files, with the sizes of their contents. -/
def Files (content : Nat → List UInt8) (s : Image) : Prop :=
  ∃ tab, Stored content (fun i => (content i).length) tab s

theorem length_update (content : Nat → List UInt8) (i : Nat) (bytes : List UInt8) {n : Nat}
    (len : bytes.length = n) : (fun j => (update content i bytes j).length) =
      update (fun j => (content j).length) i n := by
  funext j
  rw [update_apply, update_apply]
  split
  · exact len
  · rfl

theorem wp_iappend (files : Files content s) {budget : Nat} (used : 1 ≤ i ∧ i < s.freeinode)
    (inum : i < inodeSlots) (p : Bytes) {n : Nat} (full : fsSize < budget → E .read)
    (big : maxFile * bsize < (content i).length + n → E .fileTooBig)
    (room : s.freeblock + pages (blockCount ((content i).length + n)) ≤
      budget + pages (blockCount (content i).length)) :
    wp (iappend i p n)
      (fun _ t => Files (update content i (content i ++ piece p n)) t ∧
        t.freeinode = s.freeinode ∧
        t.freeblock + pages (blockCount (content i).length) =
          s.freeblock + pages (blockCount ((content i).length + n))) E s := by
  obtain ⟨tab, stored⟩ := files
  have fuel : (n = 0 ∨ (content i).length % bsize + n ≤ (n / bsize + 3 - 1) * bsize) ∧
      0 < n / bsize + 3 := by
    unfold bsize
    omega
  have loop := wp_appendFrom p full (n / bsize + 3) n 0 stored.built big room fuel
  unfold iappend
  rw [wp_bind]
  apply wp_rinode inum stored.built.maps.len
  rw [stored.table i inum, stored.size i]
  apply wp_seq loop
  rintro ⟨din, off⟩ t ⟨appended, rfl⟩
  obtain ⟨built, head, below, inodes, pages⟩ := appended
  simp only [Nat.zero_add] at built pages
  rw [piece_length] at pages
  have length := built.length_le i
  have len : (content i ++ piece p n).length = (content i).length + n := by
    rw [List.length_append, piece_length]
  rw [update_self, len] at length
  have small : (content i).length + n < 2 ^ 32 := by
    have most : maxFile * bsize < 2 ^ 32 := by decide
    omega
  have oldFits : (tab i).Fits := by
    rw [← stored.table i inum]
    exact getDinode_fits _ _
  have fits := built.fits i oldFits (by rw [update_self, head]) small
  rw [update_self] at fits
  have resized : Built (update content i (content i ++ piece p n))
      (update tab i { din with size := (content i).length + n }) t := by
    apply built.congr
    intro j
    rw [update_apply, update_apply]
    split <;> rfl
  have next := stored.putInode inum fits resized below (by omega) (by omega) (by omega)
    (head.trans (stored.used i used.1 used.2)) fun j different => update_of_ne different _ _
  apply wp_winode inum _ built.maps.len
  refine ⟨⟨update tab i { din with size := (content i).length + n }, ?_⟩, inodes, pages⟩
  rw [length_update content i _ len]
  exact next

theorem wp_ialloc (files : Files content s) {type : Int} (inum : s.freeinode < inodeSlots)
    (positive : 1 ≤ s.freeinode)
    (kind : type = if s.freeinode = rootIno then tDir else tFile) :
    wp (ialloc type)
      (fun i t => i = s.freeinode ∧ Files content t ∧ t.freeinode = s.freeinode + 1 ∧
        t.freeblock = s.freeblock) E s := by
  obtain ⟨tab, stored⟩ := files
  obtain ⟨none, empty⟩ := stored.free s.freeinode (.inr (Nat.le_refl _))
  have fits : Dinode.Fits { type, nlink := 1 } := by
    constructor
    case type =>
      rw [kind]
      split <;> decide
    case addrs => exact fun _ => Nat.two_pow_pos 32
    all_goals
      dsimp only
      omega
  -- the inode gets a type and a link; it has no blocks before and after
  have built : Built content (update tab s.freeinode { type, nlink := 1 })
      { s with freeinode := s.freeinode + 1 } := by
    have same : Built content tab { s with freeinode := s.freeinode + 1 } := by
      obtain ⟨⟨⟨len, first, exact, mapped, zero⟩, indirect⟩, bytes, limit⟩ := stored.built
      exact ⟨⟨⟨len, first, exact, mapped, zero⟩, indirect⟩, bytes, limit⟩
    apply same.congr
    intro j
    rw [update_apply]
    split
    · rename_i here
      rw [here, none]
    · rfl
  have next := stored.putInode inum fits built (fun _ _ => rfl) (Nat.le_succ _)
    ⟨positive, Nat.lt_succ_self _⟩ (by dsimp only; omega) (by rw [headerOf, ← kind]; rfl)
    fun _ _ => rfl
  unfold Mkfs.ialloc
  rw [wp_read, wp_bind, wp_set, wp_bind]
  apply wp_winode inum _ built.maps.len
  rw [wp_pure]
  refine ⟨rfl, ⟨update tab s.freeinode { type, nlink := 1 }, ?_⟩, rfl, rfl⟩
  have sizes : update (fun i => (content i).length) s.freeinode 0 = fun i => (content i).length := by
    rw [update_eq_iff]
    exact ⟨by rw [empty]; rfl, fun _ _ => rfl⟩
  rw [← sizes]
  exact next

theorem piece_cstring (r : List UInt8) : piece (cstring r) r.length = r := by
  unfold piece cstring
  apply List.ext_getElem
  · rw [List.length_map, List.length_range]
  · intro k _ inside
    rw [List.getElem_map, List.getElem_range, List.getD_eq_getElem _ _ inside]

/-- The loop that copies a host file. -/
theorem wp_copyReads {budget : Nat} (reads : List (List UInt8)) (files : Files content s)
    (used : 1 ≤ i ∧ i < s.freeinode) (inum : i < inodeSlots) (full : fsSize < budget → E .read)
    (big : maxFile * bsize < (content i).length + reads.flatten.length → E .fileTooBig)
    (room : s.freeblock + pages (blockCount ((content i).length + reads.flatten.length)) ≤
      budget + pages (blockCount (content i).length)) :
    wp (copyReads i reads)
      (fun _ t => Files (update content i (content i ++ reads.flatten)) t ∧
        t.freeinode = s.freeinode ∧
        t.freeblock + pages (blockCount (content i).length) =
          s.freeblock + pages (blockCount ((content i).length + reads.flatten.length))) E s := by
  induction reads generalizing content s with
  | nil =>
    refine wp_ret ⟨?_, rfl, rfl⟩
    rw [List.flatten_nil, List.append_nil, update_eq_self]
    exact files
  | cons r rest ih =>
    rw [List.flatten_cons, List.length_append] at big room ⊢
    have partly := pages_le (blockCount_le
      (by omega : (content i).length + r.length ≤ (content i).length + (r.length + rest.flatten.length)))
    apply wp_seq (wp_iappend files used inum (cstring r) full (fun past => big (by omega)) (by omega))
    rintro ⟨⟩ t ⟨grown, inodes, blocks⟩
    rw [piece_cstring] at grown
    have len : (update content i (content i ++ r) i).length = (content i).length + r.length := by
      rw [update_self, List.length_append]
    have tail := ih grown (by omega) (by rw [len]; intro past; exact big (by omega))
      (by rw [len, Nat.add_assoc]; omega)
    rw [len, Nat.add_assoc, update_self, update_idem, List.append_assoc] at tail
    apply wp_mono tail
    rintro ⟨⟩ u ⟨all, inodes', blocks'⟩
    exact ⟨all, inodes'.trans inodes, by omega⟩

end Stored

/-! The arguments, one after the other. -/

/-- The bytes of a directory entry. -/
def entry (name : List UInt8) (inum : Nat) : List UInt8 :=
  piece (makeDirent (cstring name) inum) direntSize

/-- The entries of files that get the inodes from `inum` on. -/
def entries : List HostFile → Nat → List UInt8
  | [], _ => []
  | f :: rest, inum => entry f.name inum ++ entries rest (inum + 1)

/-- The root directory that names the files. -/
def rootDir (files : List HostFile) : List UInt8 :=
  entry [46] rootIno ++ entry [46, 46] rootIno ++ entries files 2

/-- The content of inode `i`. -/
def contents (files : List HostFile) (i : Nat) : List UInt8 :=
  if i = 0 then []
  else if i = rootIno then rootDir files
  else (files.map HostFile.content).getD (i - 2) []

/-- Blocks of data that the files and the root directory take. -/
def blocksFor (files : List HostFile) : Nat :=
  pages (blockCount (direntSize * (files.length + 2))) +
    (files.map fun f => pages (blockCount f.content.length)).sum

theorem entry_length (name : List UInt8) (inum : Nat) : (entry name inum).length = direntSize :=
  piece_length _ _

theorem entries_length (files : List HostFile) (inum : Nat) :
    (entries files inum).length = direntSize * files.length := by
  induction files generalizing inum with
  | nil => rfl
  | cons f rest ih =>
    rw [entries, List.length_append, entry_length, ih, List.length_cons, Nat.mul_add]
    omega

theorem entries_append (files more : List HostFile) (inum : Nat) :
    entries (files ++ more) inum = entries files inum ++ entries more (inum + files.length) := by
  induction files generalizing inum with
  | nil => rfl
  | cons f rest ih =>
    rw [List.cons_append, entries, entries, ih, List.append_assoc, List.length_cons]
    congr 3
    omega

theorem rootDir_length (files : List HostFile) :
    (rootDir files).length = direntSize * (files.length + 2) := by
  unfold rootDir
  rw [List.length_append, List.length_append, entry_length, entry_length, entries_length, Nat.mul_add]
  omega

theorem contents_root (files : List HostFile) : contents files rootIno = rootDir files := rfl

theorem contents_past (files : List HostFile) (past : files.length + 2 ≤ i) :
    contents files i = [] := by
  unfold contents
  rw [if_neg (by omega), if_neg (by unfold rootIno; omega), List.getD_eq_default]
  rw [List.length_map]
  omega

theorem contents_file {files : List HostFile} (inside : i < files.length) :
    contents files (i + 2) = files[i].content := by
  unfold contents
  rw [if_neg (by omega), if_neg (by unfold rootIno; omega), Nat.add_sub_cancel,
    List.getD_eq_getElem _ _ (by rwa [List.length_map]), List.getElem_map]

/-- The files after one more argument. -/
theorem contents_snoc (files : List HostFile) (f : HostFile) :
    update (update (contents files) rootIno (rootDir files ++ entry f.name (files.length + 2)))
      (files.length + 2) f.content = contents (files ++ [f]) := by
  funext i
  rw [update_apply, update_apply]
  by_cases new : i = files.length + 2
  · rw [if_pos new, new]
    unfold contents
    rw [if_neg (by omega), if_neg (by unfold rootIno; omega), List.map_append,
      List.getD_append_right _ _ _ _ (by rw [List.length_map]; omega), List.length_map,
      show files.length + 2 - 2 - files.length = 0 by omega]
    rfl
  · rw [if_neg new]
    by_cases root : i = rootIno
    · rw [if_pos root, root, contents_root]
      unfold rootDir
      rw [entries_append, List.append_assoc (_ ++ _), Nat.add_comm 2]
      simp only [entries, List.append_nil]
    · rw [if_neg root]
      unfold contents
      rw [if_neg root, if_neg root]
      split
      · rfl
      · unfold rootIno at root
        rw [List.map_append]
        by_cases old : i - 2 < files.length
        · rw [List.getD_append _ _ _ _ (by rwa [List.length_map])]
        · rw [List.getD_eq_default _ _ (by rw [List.length_map]; omega), List.getD_eq_default]
          rw [List.length_append, List.length_map, List.length_map, List.length_singleton]
          omega

theorem blocksFor_snoc (files : List HostFile) (f : HostFile) :
    blocksFor (files ++ [f]) + pages (blockCount (direntSize * (files.length + 2))) =
      blocksFor files + pages (blockCount (direntSize * (files.length + 2) + direntSize)) +
        pages (blockCount f.content.length) := by
  unfold blocksFor
  rw [List.length_append, List.length_singleton, List.map_append, List.sum_append, List.map_singleton,
    List.sum_singleton, show files.length + 1 + 2 = files.length + 2 + 1 by omega,
    Nat.mul_add _ (files.length + 2) 1, Nat.mul_one]
  omega

theorem blocksFor_le (files more : List HostFile) : blocksFor files ≤ blocksFor (files ++ more) := by
  have root := pages_le (blockCount_le
    (Nat.mul_le_mul_left direntSize (by omega : files.length + 2 ≤ files.length + more.length + 2)))
  unfold blocksFor
  rw [List.length_append, List.map_append, List.sum_append]
  omega

/-- The image when the arguments `done` have been copied. -/
structure Progress (done : List HostFile) (s : Image) : Prop where
  files : Files (contents done) s
  inodes : s.freeinode = done.length + 2
  blocks : s.freeblock = nmeta + blocksFor done

section Arguments
variable {s : Image} {E : Fail → Prop} {budget : Nat}

theorem wp_addFile {done : List HostFile} (progress : Progress done s) (f : HostFile)
    (inum : done.length + 2 < inodeSlots) (full : fsSize < budget → E .read)
    (big : maxFile * bsize < f.content.length → E .fileTooBig)
    (room : nmeta + blocksFor (done ++ [f]) ≤ budget) :
    wp (addFile rootIno f) (fun _ => Progress (done ++ [f])) E s := by
  obtain ⟨files, inodes, blocks⟩ := progress
  have next := blocksFor_snoc done f
  have notRoot : s.freeinode ≠ rootIno := by
    unfold rootIno
    omega
  apply wp_seq (wp_ialloc files (by omega) (by omega) (by rw [if_neg notRoot]))
  rintro i t ⟨rfl, files, inodes', blocks'⟩
  have root : (contents done rootIno).length = direntSize * (done.length + 2) := by
    rw [contents_root, rootDir_length]
  have rootFits : ¬ maxFile * bsize < direntSize * (done.length + 2) + direntSize := by
    have slots : inodeSlots = 208 := rfl
    have most : maxFile * bsize = 71680 := rfl
    unfold direntSize
    omega
  have named := wp_iappend (E := E) files (i := rootIno) (by unfold rootIno; omega) (by decide)
    (makeDirent (cstring f.name) s.freeinode) (n := direntSize) full
    (by rw [root]; exact fun past => absurd past rootFits) (by rw [root]; omega)
  apply wp_seq named
  rintro ⟨⟩ u ⟨files, inodes'', blocks''⟩
  rw [root] at blocks''
  have empty : update (contents done) rootIno
      (contents done rootIno ++ piece (makeDirent (cstring f.name) s.freeinode) direntSize)
      s.freeinode = [] := by
    rw [update_of_ne notRoot, contents_past done (by omega)]
  have zero : pages (blockCount 0) = 0 := rfl
  have copied := wp_copyReads (E := E) f.reads files (i := s.freeinode) (by omega) (by omega) full
    (by rw [empty, List.length_nil, Nat.zero_add]; exact big)
    (by
      rw [empty, List.length_nil, Nat.zero_add, zero]
      change _ + pages (blockCount f.content.length) ≤ _
      omega)
  rw [empty, List.length_nil, Nat.zero_add, zero, List.nil_append] at copied
  apply wp_mono copied
  rintro ⟨⟩ v ⟨files, inodes''', blocks'''⟩
  rw [inodes] at files
  have all := contents_snoc done f
  refine ⟨all ▸ files, ?_, ?_⟩
  · rw [List.length_append, List.length_singleton]
    omega
  · change _ = u.freeblock + pages (blockCount f.content.length) at blocks'''
    omega

theorem wp_addFiles {done : List HostFile} (progress : Progress done s) (rest : List HostFile)
    (inum : done.length + rest.length + 1 < inodeSlots) (full : fsSize < budget → E .read)
    (big : ∀ f ∈ rest, maxFile * bsize < f.content.length → E .fileTooBig)
    (room : nmeta + blocksFor (done ++ rest) ≤ budget) :
    wp (addFiles rootIno rest) (fun _ => Progress (done ++ rest)) E s := by
  induction rest generalizing done s with
  | nil =>
    rw [List.append_nil]
    exact wp_ret progress
  | cons f rest ih =>
    rw [List.length_cons] at inum
    have split : done ++ f :: rest = (done ++ [f]) ++ rest := by
      rw [List.append_assoc, List.singleton_append]
    rw [split] at room ⊢
    have part := blocksFor_le (done ++ [f]) rest
    apply wp_seq (wp_addFile progress f (by omega) full (big f List.mem_cons_self) (by omega))
    intro _ t progress
    apply ih progress _ (fun g member => big g (List.mem_cons_of_mem f member)) room
    rw [List.length_append, List.length_singleton]
    omega

/-- The image with nothing but a superblock. -/
def blank : Image where
  disk := diskWrite (fun _ => zeroBlock) (1, buffer (putSb sb))
  len := fsSize
  freeinode := 1
  freeblock := nmeta

theorem wp_zeroSectors (n : Nat) (zero : s.disk = fun _ => zeroBlock) :
    wp (zeroSectors n) (fun _ t => t = { s with len := max s.len n }) E s := by
  induction n with
  | zero =>
    refine wp_ret ?_
    rw [Nat.max_zero]
  | succ n ih =>
    apply wp_seq ih
    rintro ⟨⟩ t rfl
    unfold wsect
    rw [wp_modify]
    have same : diskWrite s.disk (n, buffer zeroBlock) = s.disk := by
      funext b
      unfold diskWrite
      split
      · rw [zero, buffer_zeroBlock]
      · rfl
    dsimp only
    rw [same]
    congr 1
    omega

theorem files_blank : Files (fun _ => []) blank := by
  refine ⟨fun _ => {}, ?_⟩
  constructor
  case built =>
    refine ⟨⟨⟨rfl, Nat.le_refl _, ?_, ?_, ?_⟩, ?_⟩, ?_, by decide⟩
    · constructor
      case zero => decide
      case inUse => exact fun x nonzero => absurd (slot_empty _ _) nonzero
      case once => exact fun x _ nonzero => absurd (slot_empty _ _) nonzero
      case held =>
        intro b used
        have nothing : blank.freeblock = nmeta := rfl
        omega
    · intro i bn
      have unmapped : fileBlock blank.disk {} bn = 0 := slot_empty _ _
      exact iff_of_false (not_not_intro unmapped) (Nat.not_lt_zero _)
    · intro b free
      exact if_neg (by rintro rfl; revert free; decide)
    · intro i
      exact iff_of_false (not_not_intro rfl) (by decide)
    · intro i k inside
      exact absurd inside (Nat.not_lt_zero _)
  case table =>
    intro i inside
    have range := iblock_range inside
    have start : sb.inodestart = 32 := rfl
    unfold blank
    rw [dinodeAt_diskWrite _ (by omega)]
    rfl
  case size => exact fun _ => rfl
  case used =>
    intro i positive inside
    exact absurd (Nat.lt_of_lt_of_le inside positive) (Nat.lt_irrefl _)
  case free => exact fun _ _ => ⟨rfl, rfl⟩
  case super => rfl
  case log =>
    intro b lo _
    exact if_neg (by rintro rfl; revert lo; decide)

/-- `balloc` marks the first `n` blocks. -/
theorem testBit_usedBits (n b : Nat) : testBit (usedBits n) b = decide (b < n) := by
  induction n with
  | zero =>
    unfold testBit usedBits zeroBlock
    simp
  | succ n ih =>
    rw [usedBits, testBit_setBit, ih, ← Bool.decide_or]
    exact decide_eq_decide.mpr (by omega)

/-- The size of a root directory with `n` bytes of entries. -/
def rootSize (n : Nat) : Nat := (n / bsize + 1) * bsize

/-- The image mkfs leaves. -/
structure Finished (files : List HostFile) (tab : Nat → Dinode) (s : Image) : Prop where
  stored : Stored (contents files)
    (update (fun i => (contents files i).length) rootIno (rootSize (rootDir files).length)) tab s
  inodes : s.freeinode = files.length + 2
  blocks : s.freeblock = nmeta + blocksFor files
  bitmap : ∀ b < bpb, testBit (s.disk sb.bmapstart) b = decide (b < s.freeblock)

theorem wp_makeRoot (full : fsSize < budget → E .read) (room : nmeta + blocksFor [] ≤ budget) :
    wp makeRoot (fun rootino t => rootino = rootIno ∧ Progress [] t) E blank := by
  have blocks : blank.freeblock = nmeta := rfl
  have needed : blocksFor [] = 1 := rfl
  have one : pages (blockCount direntSize) = 1 := rfl
  have two : pages (blockCount (direntSize + direntSize)) = 1 := rfl
  have zero : pages (blockCount 0) = 0 := rfl
  have small : ¬ maxFile * bsize < direntSize + direntSize := by decide
  apply wp_seq (wp_ialloc files_blank (by decide) (by decide) rfl)
  rintro i t ⟨first, files, inodes, blocks'⟩
  obtain rfl : i = rootIno := first
  rw [if_pos rfl]
  have dot := wp_iappend (E := E) files (i := rootIno) (by rw [inodes]; decide) (by decide)
    (makeDirent (cstring [46]) rootIno) (n := direntSize) full
    (fun past => absurd (Nat.lt_of_lt_of_le past (by decide)) small)
    (by rw [List.length_nil, Nat.zero_add, one, zero]; omega)
  apply wp_seq dot
  rintro ⟨⟩ u ⟨files, inodes', blocks''⟩
  rw [List.length_nil, Nat.zero_add, one, zero] at blocks''
  rw [List.nil_append] at files
  have len : (update (fun _ => []) rootIno (piece (makeDirent (cstring [46]) rootIno) direntSize)
      rootIno).length = direntSize := by rw [update_self, piece_length]
  have dotdot := wp_iappend (E := E) files (i := rootIno) (by rw [inodes', inodes]; decide) (by decide)
    (makeDirent (cstring [46, 46]) rootIno) (n := direntSize) full
    (by rw [len]; exact fun past => absurd past small) (by rw [len, one, two]; omega)
  apply wp_seq dotdot
  rintro ⟨⟩ v ⟨files, inodes'', blocks'''⟩
  rw [len, one, two] at blocks'''
  rw [update_self, update_idem] at files
  refine wp_ret ⟨rfl, ?_, ?_, by omega⟩
  · have root : update (fun _ => []) rootIno (entry [46] rootIno ++ entry [46, 46] rootIno) =
        contents [] := by
      funext i
      rw [update_apply]
      unfold contents
      split
      · rename_i here
        rw [here, if_neg (by decide)]
        exact (List.append_nil _).symm
      · rename_i other
        split <;> rfl
    exact root ▸ files
  · rw [inodes'', inodes', inodes]
    rfl

theorem wp_roundRoot {files : List HostFile} (progress : Progress files s) :
    wp (roundRoot rootIno)
      (fun _ t => ∃ tab, Stored (contents files)
          (update (fun i => (contents files i).length) rootIno (rootSize (rootDir files).length)) tab t ∧
        t.freeinode = files.length + 2 ∧ t.freeblock = nmeta + blocksFor files) E s := by
  obtain ⟨⟨tab, stored⟩, inodes, blocks⟩ := progress
  have len := stored.built.maps.len
  have root : rootIno < inodeSlots := by decide
  have used : 1 ≤ rootIno ∧ rootIno < s.freeinode := by
    unfold rootIno
    omega
  unfold roundRoot
  rw [wp_bind]
  apply wp_rinode root len
  rw [stored.table rootIno root, stored.size rootIno]
  apply wp_winode root _ len
  have small : rootSize (rootDir files).length < 2 ^ 32 := by
    have length := stored.built.length_le rootIno
    have most : maxFile * bsize = 71680 := rfl
    rw [contents_root] at length
    unfold rootSize bsize
    omega
  have fits : (tab rootIno).Fits := by
    rw [← stored.table rootIno root]
    exact getDinode_fits _ _
  have resized : Built (contents files)
      (update tab rootIno { tab rootIno with size := rootSize (rootDir files).length }) s := by
    apply stored.built.congr
    intro j
    rw [update_apply]
    split
    · rename_i same
      rw [same]
    · rfl
  refine ⟨_, stored.putInode root (stored.built.fits rootIno fits rfl small) resized
    (fun _ _ => rfl) (Nat.le_refl _) used (fun j lo hi => absurd (Nat.lt_of_lt_of_le hi lo) (Nat.lt_irrefl _))
    (stored.used rootIno used.1 used.2) fun _ _ => rfl, inodes, blocks⟩

theorem wp_balloc {files : List HostFile} {size : Nat → Nat} {tab : Nat → Dinode}
    (stored : Stored (contents files) size tab s) :
    wp (balloc s.freeblock)
      (fun _ t => Stored (contents files) size tab t ∧ t.freeinode = s.freeinode ∧
        t.freeblock = s.freeblock ∧
        ∀ b < bpb, testBit (t.disk sb.bmapstart) b = decide (b < t.freeblock)) E s := by
  have limit := stored.built.limit
  have len := stored.built.maps.len
  have below : sb.bmapstart < nmeta := by decide
  have top : sb.inodestart < sb.bmapstart := by decide
  have size : fsSize < bsize * 8 := by decide
  have metadata : nmeta < fsSize := by decide
  unfold balloc
  rw [if_pos (by omega)]
  unfold wsect
  rw [wp_modify]
  refine ⟨?_, rfl, rfl, ?_⟩
  · constructor
    case built => exact stored.built.metadata below _ (by omega)
    case table =>
      intro i inside
      have range := iblock_range inside
      rw [dinodeAt_diskWrite _ (by omega)]
      exact stored.table i inside
    case size => exact stored.size
    case used => exact stored.used
    case free => exact stored.free
    case super =>
      dsimp only
      rw [diskWrite_other _ _ _ (by dsimp only; decide), stored.super]
    case log =>
      intro b lo hi
      dsimp only
      rw [diskWrite_other _ _ _ (by dsimp only; omega), stored.log b lo hi]
  · intro b inside
    dsimp only
    rw [diskWrite_same, testBit_buffer _ inside, testBit_usedBits]

/-- mkfs builds the image, or stops because a file or all of them together are too big. -/
theorem wp_mkfs (files : List HostFile) (count : files.length + 2 ≤ inodeSlots)
    (full : fsSize < nmeta + blocksFor files → E .read)
    (big : ∀ f ∈ files, maxFile * bsize < f.content.length → E .fileTooBig) :
    wp (mkfs files) (fun _ t => ∃ tab, Finished files tab t) E start := by
  have some := blocksFor_le [] files
  rw [List.nil_append] at some
  apply wp_seq (wp_zeroSectors fsSize rfl)
  rintro ⟨⟩ t rfl
  rw [wp_bind]
  unfold wsect
  rw [wp_modify]
  apply wp_seq (wp_makeRoot full (by omega))
  rintro i u ⟨rfl, progress⟩
  apply wp_seq (wp_addFiles progress files (by rw [List.length_nil]; omega) full big (Nat.le_refl _))
  intro _ v progress
  rw [List.nil_append] at progress
  apply wp_seq (wp_roundRoot progress)
  rintro _ w ⟨tab, stored, inodes, blocks⟩
  rw [wp_read]
  apply wp_mono (wp_balloc stored)
  rintro _ x ⟨stored, inodes', blocks', bitmap⟩
  exact ⟨tab, stored, inodes'.trans inodes, blocks'.trans blocks, bitmap⟩

end Arguments

end ColorXv6.Fs.MkfsImage
