import Mathlib.Data.List.GetD
import Mathlib.Logic.Function.Basic
import ColorXv6.Fs.BlockMap
import ColorXv6.Fs.Mkfs
import ColorXv6.Lib.Places

/-!
`iappend` of mkfs. Blocks are taken in increasing order, so the blocks in use are those
from the end of the metadata to `freeblock`; each is at one position of one inode, and
the inodes are without holes.
-/
namespace ColorXv6.Fs.MkfsAppend
open Function Lib.LittleEndian Lib.Wp Lib.Places Param Logging.Commit Layout BlockMap Mkfs

/-- The inodes `tab` have `count i` blocks of data each, and no two share a block. -/
structure Packed (count : Nat → Nat) (tab : Nat → Dinode) (s : Image) : Prop where
  len : s.len = fsSize
  first : nmeta ≤ s.freeblock
  exact : Exact (fun x : Nat × Nat => slot s.disk (tab x.1) x.2)
    fun b => nmeta ≤ b ∧ b < s.freeblock
  mapped : ∀ i bn, fileBlock s.disk (tab i) bn ≠ 0 ↔ bn < count i
  zero : ∀ b, s.freeblock ≤ b → s.disk b = zeroBlock

variable {i k len fbn n : Nat} {t : Image} {r : Dinode × Nat}

variable {next : Nat → Dinode}

section Packed
variable {count : Nat → Nat} {tab : Nat → Dinode} {s : Image}

section Blocks
variable (packed : Packed count tab s)
include packed

theorem Packed.range {pos : Nat} (nonzero : slot s.disk (tab i) pos ≠ 0) :
    nmeta ≤ slot s.disk (tab i) pos ∧ slot s.disk (tab i) pos < s.freeblock :=
  packed.exact.inUse (i, pos) nonzero

theorem Packed.data_range {bn : Nat} (inside : bn < count i) :
    nmeta ≤ fileBlock s.disk (tab i) bn ∧ fileBlock s.disk (tab i) bn < s.freeblock :=
  packed.range ((packed.mapped i bn).mpr inside)

theorem Packed.once {j p q : Nat} (nonzero : slot s.disk (tab i) p ≠ 0)
    (same : slot s.disk (tab i) p = slot s.disk (tab j) q) :
    i = j ∧ p = q := by
  have equal := packed.exact.once (i, p) (j, q) nonzero same
  exact ⟨congrArg Prod.fst equal, congrArg Prod.snd equal⟩

theorem Packed.count_le (i : Nat) : count i ≤ maxFile := by
  have last := (packed.mapped i maxFile).not
  rw [fileBlock_past _ _ (Nat.le_refl _)] at last
  omega

/-- The indirect block of an inode holds no data of any inode. -/
theorem Packed.indirect_apart (j bn : Nat)
    (present : (tab i).word ndirect ≠ 0) : (tab i).word ndirect ≠ fileBlock s.disk (tab j) bn := by
  intro same
  rw [← slot_ndirect s.disk] at present same
  exact dataPos_ne_ndirect bn (packed.once present same).2.symm

theorem Packed.indirect_lt
    (present : (tab i).word ndirect ≠ 0) : (tab i).word ndirect < s.freeblock := by
  rw [← slot_ndirect s.disk] at present ⊢
  exact (packed.range present).2

theorem Packed.indirect_once {j : Nat} (present : (tab i).word ndirect ≠ 0) (different : j ≠ i) :
    (tab j).word ndirect ≠ (tab i).word ndirect := by
  intro same
  rw [← slot_ndirect s.disk, ← slot_ndirect s.disk] at same
  rw [← slot_ndirect s.disk] at present
  exact different (packed.once present same.symm).1.symm

/-- Position `p` of inode `i` takes the next free block. -/
theorem Packed.take {more : Nat → Nat} {p : Nat} (empty : slot s.disk (tab i) p = 0) (len : t.len = s.len)
    (block : t.freeblock = s.freeblock + 1)
    (slots : ∀ j q, slot t.disk (next j) q =
      if j = i ∧ q = p then s.freeblock else slot s.disk (tab j) q)
    (counts : ∀ j bn, bn < more j ↔ (j = i ∧ dataPos bn = p) ∨ bn < count j)
    (kept : ∀ b, t.freeblock ≤ b → t.disk b = s.disk b) : Packed more next t := by
  have first := packed.first
  have positive : 0 < nmeta := by decide
  constructor
  case len => rw [len, packed.len]
  case first => omega
  case exact =>
    apply packed.exact.take (x := (i, p)) (b := s.freeblock) empty
    · omega
    · omega
    · intro y
      simp only [slots, Prod.ext_iff]
    · intro c
      omega
  case mapped =>
    intro j bn
    have before := packed.mapped j bn
    unfold fileBlock at before ⊢
    rw [slots, counts]
    by_cases here : j = i ∧ dataPos bn = p
    · rw [if_pos here]
      exact iff_of_true (by omega) (.inl here)
    · rw [if_neg here, before, or_iff_right here]
  case zero =>
    intro b free
    rw [kept b free]
    exact packed.zero b (by omega)

end Blocks

/-- One more block of data. -/
theorem counts_next (count : Nat → Nat) (i j bn : Nat) :
    bn < update count i (count i + 1) j ↔ (j = i ∧ dataPos bn = dataPos (count i)) ∨ bn < count j := by
  have inj : dataPos bn = dataPos (count i) ↔ bn = count i := ⟨dataPos_inj, congrArg dataPos⟩
  rw [update_apply, inj]
  by_cases same : j = i
  · rw [if_pos same, same]
    omega
  · rw [if_neg same]
    omega

theorem Packed.next_free (packed : Packed count tab s) (i : Nat) :
    slot s.disk (tab i) (dataPos (count i)) = 0 := by
  have unmapped := (packed.mapped i (count i)).not
  unfold fileBlock at unmapped
  simpa using unmapped

theorem slot_direct (disk : Disk) (tab : Nat → Dinode) (direct : k < ndirect)
    (b j q : Nat) : slot disk (update tab i ((tab i).setAddr k b) j) q =
      if j = i ∧ q = k then b else slot disk (tab j) q := by
  rw [update_apply]
  by_cases same : j = i
  · rw [if_pos same, slot_setAddr _ _ direct, same]
    simp only [true_and]
  · rw [if_neg same, if_neg fun both => same both.1]

/-- The next block is a direct one. -/
theorem Packed.direct (packed : Packed count tab s) (direct : count i < ndirect) :
    Packed (update count i (count i + 1)) (update tab i ((tab i).setAddr (count i) s.freeblock))
      { s with freeblock := s.freeblock + 1 } := by
  have pos : dataPos (count i) = count i := if_pos direct
  refine packed.take (packed.next_free i) rfl rfl ?_ (counts_next count i) fun _ _ => rfl
  intro j q
  rw [pos]
  exact slot_direct s.disk tab direct s.freeblock j q

theorem slot_pointer (packed : Packed count tab s) (none : (tab i).word ndirect = 0)
    (j q : Nat) : slot s.disk (update tab i ((tab i).setAddr ndirect s.freeblock) j) q =
      if j = i ∧ q = ndirect then s.freeblock else slot s.disk (tab j) q := by
  rw [update_apply]
  by_cases same : j = i
  · have zeros : ∀ k < nindirect, s.freeblock ≠ 0 → getAddr (s.disk s.freeblock) k = 0 := by
      intro k _ _
      rw [packed.zero _ (Nat.le_refl _)]
      rfl
    rw [if_pos same, slot_setAddr_indirect (fun _ _ present => absurd none present) zeros, same]
    simp only [true_and]
  · rw [if_neg same, if_neg fun both => same both.1]

/-- An inode gets an indirect block, whose entries are zero. -/
theorem Packed.pointer (packed : Packed count tab s) (none : (tab i).word ndirect = 0) :
    Packed count (update tab i ((tab i).setAddr ndirect s.freeblock))
      { s with freeblock := s.freeblock + 1 } := by
  have empty : slot s.disk (tab i) ndirect = 0 := by rw [slot_ndirect, none]
  refine packed.take empty rfl rfl (slot_pointer packed none) ?_ fun _ _ => rfl
  intro j bn
  rw [or_iff_right fun both => dataPos_ne_ndirect bn both.2]

/-- What `mapBlock` writes when entry `fbn - NDIRECT` of the indirect block gets block `b`. -/
def writeEntry (disk : Disk) (indirect fbn b : Nat) : Disk :=
  diskWrite disk (indirect, buffer (putAddr (disk indirect) (fbn - ndirect) b))

theorem writeEntry_other (disk : Disk) {indirect b : Nat} (fbn addr : Nat)
    (other : b ≠ indirect) : writeEntry disk indirect fbn addr b = disk b := if_neg other

theorem slot_entry (packed : Packed count tab s) (past : ndirect ≤ count i)
    (inside : count i < maxFile) (present : (tab i).word ndirect ≠ 0) {b : Nat} (limit : b < 2 ^ 32)
    (j q : Nat) : slot (writeEntry s.disk ((tab i).word ndirect) (count i) b) (tab j) q =
      if j = i ∧ q = dataPos (count i) then b else slot s.disk (tab j) q := by
  have pos : dataPos (count i) = ndirect + 1 + (count i - ndirect) := by
    unfold dataPos
    rw [if_neg (by omega)]
    omega
  unfold writeEntry
  by_cases same : j = i
  · subst same
    unfold maxFile at inside
    rw [slot_putAddr (by omega) present limit, pos]
    simp only [true_and]
  · rw [if_neg fun both => same both.1, slot_diskWrite]
    exact fun _ => packed.indirect_once present same

/-- The next block is an entry of the indirect block. -/
theorem Packed.entry (packed : Packed count tab s) (past : ndirect ≤ count i)
    (inside : count i < maxFile) (present : (tab i).word ndirect ≠ 0) (limit : s.freeblock < 2 ^ 32)
    (same : len = s.len) :
    Packed (update count i (count i + 1)) tab
      { s with
        disk := writeEntry s.disk ((tab i).word ndirect) (count i) s.freeblock
        len, freeblock := s.freeblock + 1 } := by
  refine packed.take (packed.next_free i) same rfl (slot_entry packed past inside present limit)
    (counts_next count i) ?_
  intro b free
  have below := packed.indirect_lt present
  have other : b ≠ (tab i).word ndirect := by
    dsimp only at free
    omega
  exact writeEntry_other _ _ _ other

end Packed

/-- An inode has an indirect block exactly when it needs one. -/
structure Maps (count : Nat → Nat) (tab : Nat → Dinode) (s : Image) : Prop extends
    Packed count tab s where
  indirect : ∀ i, (tab i).word ndirect ≠ 0 ↔ ndirect < count i

/-- The fields that `iappend` does not change. -/
def header (d : Dinode) : Int × Int × Int × Int := (d.type, d.major, d.minor, d.nlink)

/-- Blocks of a file with `count` blocks of data. -/
def pages (count : Nat) : Nat := if ndirect < count then count + 1 else count

/-- From `s` to `t` no block number changes, no block of data and no block of metadata. -/
structure Grows (tab next : Nat → Dinode) (s t : Image) : Prop where
  slots : ∀ j q, slot s.disk (tab j) q ≠ 0 → slot t.disk (next j) q = slot s.disk (tab j) q
  data : ∀ j bn, fileBlock s.disk (tab j) bn ≠ 0 →
    t.disk (fileBlock s.disk (tab j) bn) = s.disk (fileBlock s.disk (tab j) bn)
  below : ∀ b < nmeta, t.disk b = s.disk b
  inodes : t.freeinode = s.freeinode
  header : ∀ j, header (next j) = header (tab j)

/-- Block `fbn` of inode `i`, which is its last or the one after, is mapped to `r.2`. -/
structure Extended (count : Nat → Nat) (tab : Nat → Dinode) (i fbn : Nat) (s : Image)
    (r : Dinode × Nat) (t : Image) : Prop where
  maps : Maps (update count i (fbn + 1)) (update tab i r.1) t
  grows : Grows tab (update tab i r.1) s t
  block : r.2 = fileBlock t.disk r.1 fbn
  pages : t.freeblock + pages (count i) = s.freeblock + pages (fbn + 1)
  limit : t.freeblock ≤ fsSize ∨ t.freeblock = r.2 + 1

section Append
variable {count : Nat → Nat} {tab : Nat → Dinode} {s : Image} {E : Fail → Prop}

theorem wp_rsect {sec : Nat} {Q : Block → Image → Prop} (found : sec < s.len → Q (s.disk sec) s)
    (past : s.len ≤ sec → E .read) : wp (rsect sec) Q E s := by
  unfold rsect
  rw [wp_read]
  split
  · rename_i inside
    exact wp_ret (found inside)
  · rename_i outside
    exact wp_fail (past (Nat.le_of_not_lt outside))

theorem wp_nextBlock (Q : Nat → Image → Prop) :
    wp nextBlock Q E s ↔ Q s.freeblock { s with freeblock := s.freeblock + 1 } := by
  unfold nextBlock
  rw [wp_read, wp_bind, wp_set, wp_pure]

theorem wp_allocAddr (din : Dinode) (k : Nat) (Q : Dinode → Image → Prop) :
    wp (allocAddr din k) Q E s ↔
      if din.word k = 0 then Q (din.setAddr k s.freeblock) { s with freeblock := s.freeblock + 1 }
      else Q din s := by
  unfold allocAddr
  split
  · rw [wp_bind, wp_nextBlock, wp_pure]
  · rw [wp_pure]

theorem Grows.refl (tab : Nat → Dinode) (s : Image) : Grows tab tab s s where
  slots _ _ _ := rfl
  data _ _ _ := rfl
  below _ _ := rfl
  inodes := rfl
  header _ := rfl

theorem Grows.trans {last : Nat → Dinode} {u : Image} (first : Grows tab next s t)
    (second : Grows next last t u) : Grows tab last s u where
  slots j q nonzero := by
    rw [second.slots j q (by rwa [first.slots j q nonzero]), first.slots j q nonzero]
  data j bn nonzero := by
    have same : fileBlock t.disk (next j) bn = fileBlock s.disk (tab j) bn :=
      first.slots j _ nonzero
    have later := second.data j bn (by rwa [same])
    rw [same] at later
    rw [later, first.data j bn nonzero]
  below b inside := by rw [second.below b inside, first.below b inside]
  inodes := by rw [second.inodes, first.inodes]
  header j := by rw [second.header j, first.header j]

/-- Taking a block for one word of an inode changes no other number and no data. -/
theorem grows_setAddr (empty : slot s.disk (tab i) k = 0)
    (slots : ∀ j q, slot s.disk (update tab i ((tab i).setAddr k s.freeblock) j) q =
      if j = i ∧ q = k then s.freeblock else slot s.disk (tab j) q) :
    Grows tab (update tab i ((tab i).setAddr k s.freeblock)) s
      { s with freeblock := s.freeblock + 1 } where
  slots j q nonzero := by
    rw [slots, if_neg]
    rintro ⟨rfl, rfl⟩
    exact nonzero empty
  data _ _ _ := rfl
  below _ _ := rfl
  inodes := rfl
  header j := by
    rw [update_apply]
    split
    · rename_i same
      rw [same]
      rfl
    · rfl

theorem grows_entry (packed : Packed count tab s) (past : ndirect ≤ count i)
    (inside : count i < maxFile) (present : (tab i).word ndirect ≠ 0) (limit : s.freeblock < 2 ^ 32)
    (len : Nat) :
    Grows tab tab s
      { s with
        disk := writeEntry s.disk ((tab i).word ndirect) (count i) s.freeblock
        len, freeblock := s.freeblock + 1 } where
  slots j q nonzero := by
    rw [slot_entry packed past inside present limit, if_neg]
    rintro ⟨rfl, rfl⟩
    exact nonzero (packed.next_free j)
  data j bn _ := writeEntry_other _ _ _ (packed.indirect_apart j bn present).symm
  below b inside := by
    rw [← slot_ndirect s.disk] at present
    have range := packed.range present
    rw [slot_ndirect] at range
    exact writeEntry_other _ _ _ (by omega)
  inodes := rfl
  header _ := rfl

theorem extended_direct (maps : Maps count tab s) (direct : count i < ndirect) :
    Extended count tab i (count i) s ((tab i).setAddr (count i) s.freeblock, s.freeblock)
      { s with freeblock := s.freeblock + 1 } := by
  have slots := slot_direct s.disk tab direct (i := i) s.freeblock
  have pos : dataPos (count i) = count i := if_pos direct
  have empty := maps.next_free i
  rw [pos] at empty
  constructor
  case maps =>
    refine ⟨maps.direct direct, fun j => ?_⟩
    have before := maps.indirect j
    rw [← slot_ndirect s.disk, slots, if_neg (by omega), slot_ndirect, before, update_apply]
    split
    · rename_i same
      rw [same]
      omega
    · rfl
  case grows => exact grows_setAddr empty slots
  case block =>
    have here := slots i (count i)
    rw [update_self, if_pos ⟨rfl, rfl⟩] at here
    unfold fileBlock
    rw [pos]
    exact here.symm
  case pages =>
    unfold pages
    rw [if_neg (by omega), if_neg (by omega)]
    dsimp only
    omega
  case limit => exact .inr rfl

/-- The indirect block of inode `i`, in a state where it has one. -/
structure Pointed (count : Nat → Nat) (tab : Nat → Dinode) (i : Nat) (s : Image) (din : Dinode)
    (t : Image) : Prop where
  packed : Packed count (update tab i din) t
  grows : Grows tab (update tab i din) s t
  present : din.word ndirect ≠ 0
  blocks : t.freeblock = if ndirect < count i then s.freeblock else s.freeblock + 1
  others : ∀ j, j ≠ i → ((tab j).word ndirect ≠ 0 ↔ ndirect < count j)
  same : ndirect < count i → din = tab i ∧ t = s

theorem wp_allocAddr_indirect (maps : Maps count tab s) (i : Nat) :
    wp (allocAddr (tab i) ndirect) (Pointed count tab i s) E s := by
  rw [wp_allocAddr]
  have needed := maps.indirect i
  split
  · rename_i none
    constructor
    case packed => exact maps.pointer none
    case grows =>
      exact grows_setAddr (by rw [slot_ndirect, none]) (slot_pointer maps.toPacked none)
    case present =>
      have first := maps.first
      have positive : 0 < nmeta := by decide
      rw [word_setAddr _ (Nat.le_refl _), if_pos rfl]
      omega
    case blocks => rw [if_neg (by omega)]
    case others => exact fun j _ => maps.indirect j
    case same => exact fun present => absurd none (needed.mpr present)
  · rename_i present
    constructor
    case packed =>
      rw [update_eq_self]
      exact maps.toPacked
    case grows =>
      rw [update_eq_self]
      exact Grows.refl tab s
    case present => exact present
    case blocks => rw [if_pos (needed.mp present)]
    case others => exact fun j _ => maps.indirect j
    case same => exact fun _ => ⟨rfl, rfl⟩

/-- Block `fbn` is in the indirect block, and mapped already. -/
theorem extended_present (maps : Maps count tab s) (last : count i = fbn + 1)
    (limit : s.freeblock ≤ fsSize) :
    Extended count tab i fbn s (tab i, fileBlock s.disk (tab i) fbn) s where
  maps := by
    rw [← last, update_eq_self, update_eq_self]
    exact maps
  grows := by
    rw [update_eq_self]
    exact Grows.refl tab s
  block := rfl
  pages := by rw [last]
  limit := .inl limit

theorem extended_entry {din : Dinode} (pointed : Pointed count tab i s din t)
    (past : ndirect ≤ count i) (inside : count i < maxFile) (limit : t.freeblock < 2 ^ 32)
    (same : len = t.len) :
    Extended count tab i (count i) s (din, t.freeblock)
      { t with
        disk := writeEntry t.disk (din.word ndirect) (count i) t.freeblock
        len, freeblock := t.freeblock + 1 } := by
  have packed := pointed.packed
  have word : (update tab i din i).word ndirect = din.word ndirect := by rw [update_self]
  have present := pointed.present
  rw [← word] at present ⊢
  have slots := slot_entry packed past inside present limit
  constructor
  case maps =>
    refine ⟨packed.entry past inside present limit same, fun j => ?_⟩
    rw [update_apply, update_apply]
    split
    · exact iff_of_true pointed.present (by omega)
    · rename_i different
      exact pointed.others j different
  case grows => exact pointed.grows.trans (grows_entry packed past inside present limit len)
  case block =>
    have here := slots i (dataPos (count i))
    rw [if_pos ⟨rfl, rfl⟩] at here
    nth_rewrite 2 [update_self] at here
    exact here.symm
  case pages =>
    have blocks := pointed.blocks
    unfold pages
    dsimp only
    split at blocks
    · rw [if_pos (by omega), if_pos (by omega)]
      omega
    · rw [if_neg (by omega), if_pos (by omega)]
      omega
  case limit => exact .inr rfl

theorem pages_le {m : Nat} (le : m ≤ n) : pages m ≤ pages n := by
  unfold pages
  split <;> split <;> omega

theorem wp_mapBlock (maps : Maps count tab s) {budget : Nat} (next : fbn ≤ count i)
    (last : count i ≤ fbn + 1) (inside : fbn < maxFile) (limit : s.freeblock ≤ fsSize)
    (room : s.freeblock + pages (fbn + 1) ≤ budget + pages (count i))
    (full : fsSize < budget → E .read) :
    wp (mapBlock (tab i) fbn) (Extended count tab i fbn s) E s := by
  have mapped := maps.mapped i fbn
  unfold mapBlock
  split
  · rename_i direct
    rw [fileBlock_direct _ _ direct] at mapped
    rw [wp_bind, wp_allocAddr]
    split
    · obtain rfl : fbn = count i := by omega
      rw [wp_pure, word_setAddr _ (by omega), if_pos rfl]
      exact extended_direct maps direct
    · rw [wp_pure, ← fileBlock_direct s.disk _ direct]
      exact extended_present maps (by omega) limit
  · rename_i past
    apply wp_seq (wp_allocAddr_indirect maps i)
    intro din t pointed
    have blocks := pointed.blocks
    have below := pointed.packed.indirect_lt (i := i) (by rw [update_self]; exact pointed.present)
    have len := pointed.packed.len
    have more := pages_le last
    rw [update_self] at below
    have fits : t.freeblock ≤ budget := by
      split at blocks
      · omega
      · obtain rfl : fbn = count i := by omega
        unfold pages at room
        rw [if_pos (by omega), if_neg (by omega)] at room
        omega
    rw [wp_bind]
    apply wp_rsect
    · intro found
      have entry := pointed.packed.mapped i fbn
      rw [update_self, fileBlock_indirect _ (by omega) inside pointed.present] at entry
      split
      · obtain rfl : fbn = count i := by omega
        have small : t.freeblock < 2 ^ 32 := by
          unfold fsSize at limit
          split at blocks <;> omega
        rw [wp_bind, wp_nextBlock, wp_bind]
        unfold wsect
        rw [wp_modify, wp_pure, getAddr_putAddr _ _ small, if_pos rfl]
        exact extended_entry pointed (by omega) inside small (by dsimp only; omega)
      · obtain ⟨rfl, rfl⟩ := pointed.same (by omega)
        rw [wp_pure, ← fileBlock_indirect _ (by omega) inside pointed.present]
        exact extended_present maps (by omega) limit
    · intro outside
      exact full (by omega)

theorem Extended.last_range
    (ext : Extended count tab i fbn s r t) : nmeta ≤ r.2 ∧ r.2 < t.freeblock := by
  have last : fbn < update count i (fbn + 1) i := by
    rw [update_self]
    omega
  have range := ext.maps.data_range last
  rw [update_self, ← ext.block] at range
  exact range

/-- A store into a block of data changes no block number. -/
theorem slot_data (packed : Packed count tab s) (i fbn : Nat) (data : Block) (j q : Nat) :
    slot (diskWrite s.disk (fileBlock s.disk (tab i) fbn, data)) (tab j) q =
      slot s.disk (tab j) q :=
  slot_diskWrite data (fun present => packed.indirect_apart i fbn present) q

/-- Only the block numbers matter, and that free blocks are zero. -/
theorem Maps.congr (maps : Maps count tab s)
    (slots : ∀ j q, slot t.disk (next j) q = slot s.disk (tab j) q) (len : t.len = s.len)
    (free : t.freeblock = s.freeblock) (zero : ∀ b, s.freeblock ≤ b → t.disk b = s.disk b) :
    Maps count next t := by
  refine ⟨⟨len.trans maps.len, free ▸ maps.first, ?_, fun j bn => ?_, fun b high => ?_⟩, fun j => ?_⟩
  · exact maps.exact.congr (fun y => slots y.1 y.2) fun _ => by rw [free]
  · rw [← maps.mapped j bn]
    exact (slots j _).congr_left.not
  · rw [free] at high
    rw [zero b high, maps.zero b high]
  · rw [← slot_ndirect t.disk, slots, slot_ndirect]
    exact maps.indirect j

theorem Maps.write (maps : Maps count tab s) (mapped : fileBlock s.disk (tab i) fbn ≠ 0)
    (data : Block) (same : len = s.len) :
    Maps count tab
      { s with disk := diskWrite s.disk (fileBlock s.disk (tab i) fbn, data), len } := by
  refine maps.congr (slot_data maps.toPacked i fbn data) same rfl fun b free => if_neg ?_
  have below := (maps.range mapped).2
  unfold fileBlock
  omega

/-- Blocks of data of a file with `n` bytes. -/
def blockCount (n : Nat) : Nat := (n + bsize - 1) / bsize

/-- The inodes `tab` are files with these contents. -/
structure Built (content : Nat → List UInt8) (tab : Nat → Dinode) (s : Image) : Prop where
  maps : Maps (fun i => blockCount (content i).length) tab s
  bytes : ∀ i k, k < (content i).length →
    s.disk (fileBlock s.disk (tab i) (k / bsize)) (k % bsize) = (content i).getD k 0
  limit : s.freeblock ≤ fsSize

/-- The first `n` bytes at `p`. -/
def piece (p : Bytes) (n : Nat) : List UInt8 := (List.range n).map p

variable {content : Nat → List UInt8}

theorem Built.mapped (built : Built content tab s) (inside : k < (content i).length) :
    fileBlock s.disk (tab i) (k / bsize) ≠ 0 := by
  apply (built.maps.mapped i _).mpr
  unfold blockCount bsize
  omega

theorem Built.bytes_extended (built : Built content tab s)
    (ext : Extended (fun j => blockCount (content j).length) tab i fbn s r t) {j : Nat}
    (inside : k < (content j).length) :
    t.disk (fileBlock t.disk (update tab i r.1 j) (k / bsize)) (k % bsize) = (content j).getD k 0 := by
  have nonzero := built.mapped inside
  have same : fileBlock t.disk (update tab i r.1 j) (k / bsize) = fileBlock s.disk (tab j) (k / bsize) :=
    ext.grows.slots j _ nonzero
  rw [same, ext.grows.data j _ nonzero, built.bytes j k inside]

theorem piece_length (p : Bytes) (n : Nat) : (piece p n).length = n := by
  unfold piece
  rw [List.length_map, List.length_range]

theorem piece_getD (p : Bytes) (inside : k < n) : (piece p n).getD k 0 = p k := by
  unfold piece
  rw [List.getD_eq_getElem _ _ (by simpa using inside), List.getElem_map, List.getElem_range]

/-- The `n1` bytes of `src` are stored in the block that holds the end of the file. -/
theorem Built.append (built : Built content tab s) {n1 : Nat}
    (ext : Extended (fun j => blockCount (content j).length) tab i ((content i).length / bsize) s r t)
    (some : 0 < n1) (fits : (content i).length % bsize + n1 ≤ bsize) (found : r.2 < t.len)
    (src : Bytes) :
    Built (update content i (content i ++ piece src n1)) (update tab i r.1)
      { t with
        disk := diskWrite t.disk
          (r.2, buffer (putBytes (t.disk r.2) ((content i).length % bsize) n1 src))
        len := max t.len (r.2 + 1) } := by
  obtain ⟨din, x⟩ := r
  have maps := ext.maps
  obtain rfl : x = fileBlock t.disk (update tab i din i) ((content i).length / bsize) := by
    rw [update_self]
    exact ext.block
  have mapped : fileBlock t.disk (update tab i din i) ((content i).length / bsize) ≠ 0 := by
    rw [maps.mapped, update_self]
    omega
  constructor
  case maps =>
    have counts : (fun j => blockCount (update content i (content i ++ piece src n1) j).length) =
        update (fun j => blockCount (content j).length) i ((content i).length / bsize + 1) := by
      funext j
      rw [update_apply, update_apply]
      split
      · rw [List.length_append, piece_length]
        unfold blockCount
        unfold bsize at fits ⊢
        omega
      · rfl
    rw [counts]
    exact maps.write mapped _ (by omega)
  case bytes =>
    intro j k inside
    dsimp only
    have equal : ∀ data, fileBlock (diskWrite t.disk
        (fileBlock t.disk (update tab i din i) ((content i).length / bsize), data))
        (update tab i din j) (k / bsize) = fileBlock t.disk (update tab i din j) (k / bsize) :=
      fun data => slot_data maps.toPacked i _ data j _
    rw [equal]
    rw [update_apply content] at inside ⊢
    by_cases here : j = i ∧ k / bsize = (content i).length / bsize
    · obtain ⟨rfl, block⟩ := here
      rw [if_pos rfl, List.length_append, piece_length] at inside
      unfold diskWrite
      rw [if_pos rfl, block, if_pos rfl]
      dsimp only
      rw [buffer_apply, if_pos (Nat.mod_lt _ (by decide))]
      by_cases old : k < (content j).length
      · have before : k % bsize < (content j).length % bsize := by
          unfold bsize at block ⊢
          omega
        rw [putBytes_outside _ _ _ _ _ (.inl before), ← block, built.bytes_extended ext old,
          List.getD_append _ _ _ _ old]
      · have place : k % bsize = (content j).length % bsize + (k - (content j).length) := by
          unfold bsize at block ⊢
          omega
        rw [place, putBytes_inside _ _ _ _ _ (by omega), List.getD_append_right _ _ _ _ (by omega),
          piece_getD _ (by omega)]
    · have old : k < (content j).length := by
        split at inside
        · rename_i same
          subst same
          rw [List.length_append, piece_length] at inside
          unfold bsize at fits here
          omega
        · exact inside
      have elsewhere : fileBlock t.disk (update tab i din j) (k / bsize) ≠
          fileBlock t.disk (update tab i din i) ((content i).length / bsize) := by
        intro same
        obtain ⟨rfl, pos⟩ := maps.once mapped same.symm
        exact here ⟨rfl, (dataPos_inj pos).symm⟩
      unfold diskWrite
      rw [if_neg elsewhere, built.bytes_extended ext old]
      split
      · rename_i same
        subst same
        rw [List.getD_append _ _ _ _ old]
      · rfl
  case limit =>
    have limit := ext.limit
    have len := maps.len
    dsimp only at limit ⊢
    omega

theorem piece_add (p : Bytes) (m n : Nat) :
    piece p (m + n) = piece p m ++ piece (fun k => p (m + k)) n := by
  unfold piece
  rw [List.range_add, List.map_append, List.map_map]
  rfl

/-- What `iappend` does to the inode in memory: the file `i` gets the bytes `more`. -/
structure Appended (content : Nat → List UInt8) (tab : Nat → Dinode) (i : Nat) (more : List UInt8)
    (s : Image) (din : Dinode) (t : Image) : Prop where
  built : Built (update content i (content i ++ more)) (update tab i din) t
  header : header din = header (tab i)
  below : ∀ b < nmeta, t.disk b = s.disk b
  inodes : t.freeinode = s.freeinode
  pages : t.freeblock + pages (blockCount (content i).length) =
    s.freeblock + pages (blockCount ((content i).length + more.length))

theorem Appended.trans {more rest : List UInt8} {din last : Dinode} {u : Image}
    (first : Appended content tab i more s din t)
    (second : Appended (update content i (content i ++ more)) (update tab i din) i rest t last u) :
    Appended content tab i (more ++ rest) s last u := by
  obtain ⟨-, header, below, inodes, pages⟩ := first
  obtain ⟨built', header', below', inodes', pages'⟩ := second
  rw [update_self, update_idem, update_idem, List.append_assoc] at built'
  rw [update_self] at header' pages'
  rw [List.length_append] at pages'
  refine ⟨built', header'.trans header, fun b inside => ?_, inodes'.trans inodes, ?_⟩
  · rw [below' b inside, below b inside]
  · rw [List.length_append, ← Nat.add_assoc]
    omega

theorem blockCount_le {m : Nat} (le : m ≤ n) : blockCount m ≤ blockCount n := by
  unfold blockCount bsize
  omega

/-- One iteration of `iappend`. -/
theorem Built.appended (built : Built content tab s) {n1 : Nat}
    (ext : Extended (fun j => blockCount (content j).length) tab i ((content i).length / bsize) s r t)
    (some : 0 < n1) (fits : (content i).length % bsize + n1 ≤ bsize) (found : r.2 < t.len)
    (src : Bytes) :
    Appended content tab i (piece src n1) s r.1
      { t with
        disk := diskWrite t.disk
          (r.2, buffer (putBytes (t.disk r.2) ((content i).length % bsize) n1 src))
        len := max t.len (r.2 + 1) } where
  built := built.append ext some fits found src
  header := by
    have same := ext.grows.header i
    rwa [update_self] at same
  below b inside := by
    have range := ext.last_range
    have other : b ≠ r.2 := by omega
    exact (if_neg other).trans (ext.grows.below b inside)
  inodes := ext.grows.inodes
  pages := by
    have pages := ext.pages
    have count : blockCount ((content i).length + (piece src n1).length) =
        (content i).length / bsize + 1 := by
      rw [piece_length]
      unfold blockCount
      unfold bsize at fits ⊢
      omega
    rw [count]
    exact pages

/-- The loop of `iappend`. The blocks needed fit below `budget`, or reading past the end of the
image is an accepted outcome. -/
theorem wp_appendFrom (p : Bytes) {budget : Nat} (full : fsSize < budget → E .read)
    (fuel : Nat) (n done : Nat) (built : Built content tab s)
    (big : maxFile * bsize < (content i).length + n → E .fileTooBig)
    (room : s.freeblock + pages (blockCount ((content i).length + n)) ≤
      budget + pages (blockCount (content i).length))
    (enough : (n = 0 ∨ (content i).length % bsize + n ≤ (fuel - 1) * bsize) ∧ 0 < fuel) :
    wp (appendFrom p (tab i) (content i).length done n fuel)
      (fun r t => Appended content tab i (piece (fun k => p (done + k)) n) s r.1 t ∧
        r.2 = (content i).length + n) E s := by
  induction fuel generalizing n done content tab s with
  | zero => omega
  | succ fuel ih =>
    have whole : (content i).length = (content i).length / bsize * bsize + (content i).length % bsize := by
      rw [Nat.div_add_mod']
    have below : (content i).length % bsize < bsize := Nat.mod_lt _ (by decide)
    unfold appendFrom
    split
    · rename_i some
      dsimp only
      split
      · rename_i inside
        have place : (content i).length - (content i).length / bsize * bsize =
          (content i).length % bsize := by omega
        have left : ((content i).length / bsize + 1) * bsize - (content i).length =
            bsize - (content i).length % bsize := by
          rw [Nat.add_mul]
          omega
        rw [place, left]
        obtain ⟨n1, bytes⟩ : ∃ n1, min n (bsize - (content i).length % bsize) = n1 := ⟨_, rfl⟩
        rw [bytes]
        have next : (content i).length / bsize ≤ blockCount (content i).length ∧
            blockCount (content i).length ≤ (content i).length / bsize + 1 := by
          unfold blockCount bsize
          omega
        have needed : (content i).length / bsize + 1 ≤ blockCount ((content i).length + n) := by
          unfold blockCount bsize
          omega
        have enoughRoom := pages_le needed
        apply wp_seq (wp_mapBlock built.maps next.1 next.2 inside built.limit (by omega) full)
        rintro ⟨din, x⟩ t ext
        have blocks := ext.pages
        rw [wp_bind]
        apply wp_rsect
        · intro found
          have step := built.appended ext (by omega : 0 < n1) (by omega) found fun k => p (done + k)
          have len : (update content i (content i ++ piece (fun k => p (done + k)) n1) i).length =
              (content i).length + n1 := by rw [update_self, List.length_append, piece_length]
          have sum : (content i).length + n1 + (n - n1) = (content i).length + n := by omega
          have counted := step.pages
          rw [piece_length] at counted
          have rounds : (n - n1 = 0 ∨ ((content i).length + n1) % bsize + (n - n1) ≤ (fuel - 1) * bsize) ∧
              0 < fuel := by
            unfold bsize at *
            omega
          have rest := ih (n - n1) (done + n1) step.built (by rw [len, sum]; exact big)
            (by rw [len, sum]; omega) (by rw [len]; exact rounds)
          rw [len, sum, update_self] at rest
          rw [wp_bind]
          unfold wsect
          rw [wp_modify]
          apply wp_mono rest
          rintro r u ⟨tail, off⟩
          have both := step.trans tail
          have shift : (fun k => p (done + n1 + k)) = fun k => p (done + (n1 + k)) := by
            funext k
            rw [Nat.add_assoc]
          rw [shift, ← piece_add fun k => p (done + k), Nat.add_sub_cancel' (by omega)] at both
          exact ⟨both, off⟩
        · intro outside
          have range := ext.last_range
          have len := ext.maps.len
          apply full
          omega
      · rename_i outside
        have reach := (Nat.le_div_iff_mul_le (by decide)).mp (Nat.le_of_not_lt outside)
        exact wp_fail (big (by omega))
    · rename_i none
      obtain rfl : n = 0 := by omega
      refine wp_ret ⟨⟨?_, rfl, fun _ _ => rfl, rfl, rfl⟩, rfl⟩
      change Built (update content i (content i ++ [])) _ _
      rw [List.append_nil, update_eq_self, update_eq_self]
      exact built

section Built
variable (built : Built content tab s)
include built

/-- A store below the data blocks changes no file. -/
theorem Built.metadata {b : Nat} (below : b < nmeta) (data : Block) {inodes : Nat}
    (same : len = s.len) :
    Built content tab
      { s with disk := diskWrite s.disk (b, data), len, freeinode := inodes } := by
  have maps := built.maps
  have slots : ∀ j q, slot (diskWrite s.disk (b, data)) (tab j) q = slot s.disk (tab j) q := by
    intro j q
    apply slot_diskWrite
    intro present
    rw [← slot_ndirect s.disk] at present ⊢
    have range := maps.range present
    omega
  have blocks : ∀ j bn, fileBlock (diskWrite s.disk (b, data)) (tab j) bn =
      fileBlock s.disk (tab j) bn := fun j bn => slots j _
  constructor
  case maps =>
    refine maps.congr slots same rfl fun c free => if_neg ?_
    have first := maps.first
    omega
  case bytes =>
    intro j k inside
    have range := maps.range (built.mapped inside)
    have other : fileBlock s.disk (tab j) (k / bsize) ≠ b := by
      unfold fileBlock
      omega
    dsimp only
    rw [blocks, ← built.bytes j k inside]
    unfold diskWrite
    rw [if_neg other]
  case limit => exact built.limit

/-- Only the addresses of an inode matter for where its data is. -/
theorem Built.congr (addrs : ∀ j, (next j).addrs = (tab j).addrs) : Built content next s := by
  have words : ∀ j k, (next j).word k = (tab j).word k := by
    intro j k
    unfold Dinode.word
    rw [addrs]
  have slots : ∀ j q, slot s.disk (next j) q = slot s.disk (tab j) q := by
    intro j q
    unfold slot
    rw [words, words]
  refine ⟨built.maps.congr slots rfl rfl fun _ _ => rfl, fun j k inside => ?_, built.limit⟩
  rw [← built.bytes j k inside]
  exact congrArg (fun b => s.disk b (k % bsize)) (slots j _)

theorem Built.length_le (i : Nat) :
    (content i).length ≤ maxFile * bsize := by
  have count := built.maps.count_le i
  unfold blockCount at count
  unfold bsize at count ⊢
  omega

theorem Built.fits (i : Nat) {old : Dinode} (fits : old.Fits) (same : header (tab i) = header old)
    (small : n < 2 ^ 32) :
    Dinode.Fits { tab i with size := n } := by
  obtain ⟨type, major, minor, nlink⟩ : (tab i).type = old.type ∧ (tab i).major = old.major ∧
      (tab i).minor = old.minor ∧ (tab i).nlink = old.nlink := by simpa [header] using same
  constructor
  case type => exact type ▸ fits.type
  case major => exact major ▸ fits.major
  case minor => exact minor ▸ fits.minor
  case nlink => exact nlink ▸ fits.nlink
  case size => exact small
  case addrs =>
    intro j
    have word : slot s.disk (tab i) j.val = (tab i).addrs j := by
      unfold slot Dinode.word
      rw [if_pos (by omega), dif_pos j.isLt]
    have limit := built.limit
    unfold fsSize at limit
    rw [← word]
    by_cases zero : slot s.disk (tab i) j.val = 0
    · omega
    · have range := built.maps.range zero
      omega

end Built

end Append

end ColorXv6.Fs.MkfsAppend
