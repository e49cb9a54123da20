import ColorXv6.Fs.Writes
import ColorXv6.Lib.Places

/-!
What the inode layer is for: a table of byte arrays. A consistent disk and cache stand
for one, and `readi` and `writei` are reading and patching an entry of it.
-/
namespace ColorXv6.Fs.Store
open Function Lib.LittleEndian Lib.Wp Param Layout BlockMap Inode ReadBlocks Regions Growth Writes
open Lib.Places (Exact)
open Logging.Commit (Block Disk)

/-- The block number at a position of an inode on the disk. -/
def place (s : Fs) (x : Nat × Nat) : Nat := slot (region s).data ((region s).dino x.1) x.2

/-- No operation is under way in the inode layer. -/
structure Consistent (s : Fs) : Prop where
  laid : Laid s
  reserved : Reserved s
  exact : Exact (place s) fun b => dataStart s.sb ≤ b ∧ (region s).bit b = true
  free : ∀ i, ((region s).dino i).type = 0 → ∀ pos, place s (i, pos) = 0
  mapped : ∀ i bn, bn * bsize < ((region s).dino i).size → place s (i, dataPos bn) ≠ 0
  entries : ∀ k, 0 < (s.inode k).ref → k < ninode ∧ (s.inode k).inum < s.sb.ninodes
  single : ∀ k l, 0 < (s.inode k).ref → 0 < (s.inode l).ref →
    (s.inode k).inum = (s.inode l).inum → k = l
  coherent : ∀ k, 0 < (s.inode k).ref → (s.inode k).valid = true →
    (s.inode k).din = (region s).dino (s.inode k).inum ∧ (s.inode k).din.type ≠ 0

/-- An inode as its users see it. -/
structure Node where
  type : Int
  major : Int
  minor : Int
  nlink : Int
  size : Nat
  bytes : Nat → UInt8

def node (s : Fs) (i : Nat) : Node where
  type := ((region s).dino i).type
  major := ((region s).dino i).major
  minor := ((region s).dino i).minor
  nlink := ((region s).dino i).nlink
  size := ((region s).dino i).size
  bytes := fun k => if k < ((region s).dino i).size then
    (region s).data (place s (i, dataPos (k / bsize))) (k % bsize) else 0

/-- The node after `n` bytes of `src` have been written at `off`. -/
def Node.write (d : Node) (off n : Nat) (src : Bytes) : Node :=
  { d with size := max d.size (off + n), bytes := patch d.bytes off n src }

/-- The positions that bytes `off` to `off + n` of a file use. -/
def cover (off n : Nat) : Finset Nat :=
  (Finset.range n).image (fun j => dataPos ((off + j) / bsize)) ∪
    ((Finset.range n).filter fun j => ndirect ≤ (off + j) / bsize).image fun _ => ndirect

theorem covers_cover (off n : Nat) : Covers (cover off n) off n := by
  intro k lo hi
  have here : k - off ∈ Finset.range n := Finset.mem_range.mpr (by omega)
  have sum : off + (k - off) = k := by omega
  refine ⟨Finset.mem_union_left _ (Finset.mem_image.mpr ⟨k - off, here, by rw [sum]⟩), fun past => ?_⟩
  exact Finset.mem_union_right _ (Finset.mem_image.mpr
    ⟨k - off, Finset.mem_filter.mpr ⟨here, by rwa [sum]⟩, rfl⟩)

variable {off n i : Nat}

theorem mem_cover {pos : Nat} (mem : pos ∈ cover off n) : ∃ k, off ≤ k ∧ k < off + n ∧
    (pos = dataPos (k / bsize) ∨ pos = ndirect ∧ ndirect ≤ k / bsize) := by
  rcases Finset.mem_union.mp mem with mem | mem
  · obtain ⟨j, inside, rfl⟩ := Finset.mem_image.mp mem
    exact ⟨off + j, by omega, by have := Finset.mem_range.mp inside; omega, .inl rfl⟩
  · obtain ⟨j, inside, rfl⟩ := Finset.mem_image.mp mem
    obtain ⟨inside, past⟩ := Finset.mem_filter.mp inside
    exact ⟨off + j, by omega, by have := Finset.mem_range.mp inside; omega, .inr ⟨rfl, past⟩⟩

section Consistent
variable {s t : Fs} {ip : Nat} {E : Halt → Prop}

theorem dino_fits (s : Fs) (i : Nat) : ((region s).dino i).Fits := by
  unfold region parts
  dsimp only
  split
  · exact getDinode_fits _ _
  · constructor <;> decide

theorem region_congr (disk : t.disk = s.disk) (sb : t.sb = s.sb) : region t = region s := by
  unfold region
  rw [disk, sb]

/-- Nothing depends on open files, processes or the log. -/
theorem Consistent.congr (good : Consistent s) (disk : t.disk = s.disk) (sb : t.sb = s.sb)
    (inode : t.inode = s.inode) : Consistent t := by
  have same := region_congr disk sb
  have places : place t = place s := by
    unfold place
    rw [same]
  constructor
  case laid => exact good.laid.congr sb (by rw [same])
  case reserved =>
    unfold Reserved
    rw [same, sb]
    exact good.reserved
  case exact =>
    rw [places, same, sb]
    exact good.exact
  case free =>
    rw [same, places]
    exact good.free
  case mapped =>
    rw [same, places]
    exact good.mapped
  case entries =>
    rw [inode, sb]
    exact good.entries
  case single =>
    rw [inode]
    exact good.single
  case coherent =>
    rw [inode, same]
    exact good.coherent

/-- An inode in the cache that was read from the disk. -/
structure Loaded (s : Fs) (ip : Nat) : Prop where
  ref : 0 < (s.inode ip).ref
  valid : (s.inode ip).valid = true

section Loaded
variable (good : Consistent s) (loaded : Loaded s ip)
include good loaded

theorem Consistent.din_eq : (s.inode ip).din = (region s).dino (s.inode ip).inum :=
  (good.coherent ip loaded.ref loaded.valid).1

theorem Consistent.block_eq (pos : Nat) : block s ip pos = place s ((s.inode ip).inum, pos) := by
  unfold block place
  rw [good.din_eq loaded]

theorem Consistent.owns : Owns s ip where
  past := fun pos nonzero => by
    rw [good.block_eq loaded] at *
    exact (good.exact.inUse _ nonzero).1
  inside := fun pos nonzero => by
    rw [good.block_eq loaded] at *
    have used := (good.exact.inUse _ nonzero).2
    exact of_decide_eq_true (Bool.and_eq_true_iff.mp used).1
  used := fun pos nonzero => by
    rw [good.block_eq loaded] at *
    exact (good.exact.inUse _ nonzero).2
  once := fun p q nonzero same => by
    rw [good.block_eq loaded] at *
    rw [good.block_eq loaded] at same
    exact congrArg Prod.snd (good.exact.once _ _ nonzero same)

end Loaded

theorem Consistent.size_le (good : Consistent s) (i : Nat) :
    ((region s).dino i).size ≤ maxFile * bsize := by
  by_contra past
  apply good.mapped i maxFile (by omega)
  exact slot_past _ _ (show maxFile < dataPos maxFile by decide)

/-- The inode in entry `ip` has changed, and it has been written back. -/
structure Kept (s t : Fs) (ip : Nat) : Prop extends Filled s t ip where
  self : ∃ din, t.inode ip = { s.inode ip with din }
  dino : ∀ i, i ≠ (s.inode ip).inum → (region t).dino i = (region s).dino i
  saved : (region t).dino (s.inode ip).inum = (t.inode ip).din

section Kept
variable (good : Consistent s) (loaded : Loaded s ip) (kept : Kept s t ip)
include good loaded kept

omit good loaded in
theorem Kept.place_self (pos : Nat) : place t ((s.inode ip).inum, pos) = block t ip pos := by
  unfold place block
  rw [kept.saved]

/-- What another inode has is not the inode's, so it has not changed. -/
theorem Kept.data_other (other : i ≠ (s.inode ip).inum) (pos : Nat) :
    (region t).data (place s (i, pos)) = (region s).data (place s (i, pos)) := by
  by_cases zero : place s (i, pos) = 0
  · rw [zero, data_zero, data_zero]
  · refine kept.data _ (good.exact.inUse _ zero).2 fun q same => other ?_
    rw [good.block_eq loaded] at same
    exact congrArg Prod.fst (good.exact.once _ _ zero same.symm)

theorem Kept.place_other (other : i ≠ (s.inode ip).inum) (pos : Nat) :
    place t (i, pos) = place s (i, pos) := by
  have data := kept.data_other good loaded other ndirect
  unfold place slot at *
  rw [if_pos (Nat.le_refl _)] at data
  rw [kept.dino i other]
  rw [data]

theorem Kept.exact : Exact (place t) fun b => dataStart t.sb ≤ b ∧ (region t).bit b = true := by
  have owns := kept.owns (good.owns loaded)
  have self := kept.place_self
  have others {i : Nat} (other : i ≠ (s.inode ip).inum) := kept.place_other good loaded other
  -- a block of the inode is no block of another one
  have apart {i p q : Nat} (other : i ≠ (s.inode ip).inum) (nonzero : place s (i, p) ≠ 0) :
      place s (i, p) ≠ block t ip q := by
    intro same
    by_cases before : block s ip q = 0
    · have free := kept.fresh q before (same ▸ nonzero)
      rw [← same] at free
      have used := (good.exact.inUse _ nonzero).2
      rw [free.clear] at used
      cases used
    · rw [kept.kept q before, good.block_eq loaded] at same
      exact other (congrArg Prod.fst (good.exact.once _ _ nonzero same))
  constructor
  case zero =>
    rintro ⟨past, -⟩
    have := dataStart_pos t.sb
    omega
  case inUse =>
    rintro ⟨i, pos⟩ nonzero
    by_cases here : i = (s.inode ip).inum
    · rw [here, self] at nonzero ⊢
      exact ⟨owns.past pos nonzero, owns.used pos nonzero⟩
    · rw [others here] at nonzero ⊢
      obtain ⟨past, used⟩ := good.exact.inUse _ nonzero
      exact ⟨kept.sb ▸ past, kept.bit_mono used⟩
  case once =>
    rintro ⟨i, p⟩ ⟨j, q⟩ nonzero same
    by_cases left : i = (s.inode ip).inum <;> by_cases right : j = (s.inode ip).inum
    · rw [left, self] at nonzero same
      rw [right, self] at same
      rw [left, right, owns.once p q nonzero same]
    · rw [left, self] at nonzero same
      rw [others right] at same
      exact absurd same.symm (apart right (same ▸ nonzero))
    · rw [others left] at nonzero same
      rw [right, self] at same
      exact absurd same (apart left nonzero)
    · rw [others left] at nonzero same
      rw [others right] at same
      exact good.exact.once _ _ nonzero same
  case held =>
    rintro b ⟨past, used⟩
    rcases (kept.bits b).mp used with before | ⟨-, pos, rfl⟩
    · obtain ⟨⟨i, pos⟩, rfl⟩ := good.exact.held b ⟨kept.sb ▸ past, before⟩
      by_cases here : i = (s.inode ip).inum
      · refine ⟨(i, pos), ?_⟩
        rw [here, self]
        rw [here, ← good.block_eq loaded] at past
        have := dataStart_pos t.sb
        rw [kept.kept pos (by omega), good.block_eq loaded]
      · exact ⟨(i, pos), others here pos⟩
    · exact ⟨((s.inode ip).inum, pos), self pos⟩

/-- The state is consistent if the inode has a type and its blocks. -/
theorem Kept.consistent (type : (t.inode ip).din.type ≠ 0)
    (mapped : ∀ bn, bn * bsize < (t.inode ip).din.size → block t ip (dataPos bn) ≠ 0) :
    Consistent t := by
  obtain ⟨din, self⟩ := kept.self
  have refs : ∀ k, (t.inode k).ref = (s.inode k).ref ∧ (t.inode k).inum = (s.inode k).inum ∧
      (t.inode k).valid = (s.inode k).valid := by
    intro k
    by_cases here : k = ip
    · rw [here, self]
      exact ⟨rfl, rfl, rfl⟩
    · rw [kept.others k here]
      exact ⟨rfl, rfl, rfl⟩
  constructor
  case laid => exact kept.laid good.laid
  case reserved => exact kept.reserved good.reserved
  case exact => exact kept.exact good loaded
  case free =>
    intro i zero pos
    by_cases here : i = (s.inode ip).inum
    · rw [here, kept.saved] at zero
      exact absurd zero type
    · rw [kept.dino i here] at zero
      rw [kept.place_other good loaded here]
      exact good.free i zero pos
  case mapped =>
    intro i bn inside
    by_cases here : i = (s.inode ip).inum
    · rw [here, kept.saved] at inside
      rw [here, kept.place_self]
      exact mapped bn inside
    · rw [kept.dino i here] at inside
      rw [kept.place_other good loaded here]
      exact good.mapped i bn inside
  case entries =>
    intro k ref
    rw [(refs k).1] at ref
    rw [(refs k).2.1, kept.sb]
    exact good.entries k ref
  case single =>
    intro k l left right same
    rw [(refs k).1] at left
    rw [(refs l).1] at right
    rw [(refs k).2.1, (refs l).2.1] at same
    exact good.single k l left right same
  case coherent =>
    intro k ref valid
    by_cases here : k = ip
    · rw [here, (refs ip).2.1, kept.saved]
      exact ⟨rfl, type⟩
    · rw [(refs k).1] at ref
      rw [(refs k).2.2] at valid
      have other : (s.inode k).inum ≠ (s.inode ip).inum := fun same =>
        here (good.single k ip ref loaded.ref same)
      rw [kept.others k here, kept.dino _ other]
      exact good.coherent k ref valid

omit good loaded in
theorem Kept.node_self : node t (s.inode ip).inum =
    { type := (t.inode ip).din.type, major := (t.inode ip).din.major, minor := (t.inode ip).din.minor,
      nlink := (t.inode ip).din.nlink, size := (t.inode ip).din.size,
      bytes := fun k => if k < (t.inode ip).din.size then content t ip k else 0 } := by
  unfold node content
  simp only [kept.saved, kept.place_self]

/-- Nor have the contents of any other inode. -/
theorem Kept.node_other (other : i ≠ (s.inode ip).inum) : node t i = node s i := by
  unfold node
  rw [kept.dino i other]
  simp only [kept.place_other good loaded other, kept.data_other good loaded other]

end Kept

/-- A write within the file finds all its blocks. -/
theorem Consistent.cover_mapped (good : Consistent s) {pos : Nat}
    (within : off + n ≤ ((region s).dino i).size)
    (mem : pos ∈ cover off n) : place s (i, pos) ≠ 0 := by
  obtain ⟨k, -, hi, here⟩ := mem_cover mem
  have mapped := good.mapped i (k / bsize) (by
    have := Nat.div_mul_le_self k bsize
    omega)
  rcases here with rfl | ⟨rfl, past⟩
  · exact mapped
  · intro none
    apply mapped
    rw [place, slot_ndirect] at none
    have pos : dataPos (k / bsize) = k / bsize + 1 := if_neg (by omega)
    rw [pos]
    unfold place slot
    rw [if_neg (by dsimp only; omega), if_neg fun both => both.2 none]

theorem kept_of_wrote {src : Bytes} (wrote : Wrote s t ip off n src (cover off n))
    (good : Consistent s) (loaded : Loaded s ip) : Kept s t ip := by
  obtain ⟨addrs, self⟩ := wrote.self
  refine ⟨wrote.toFilled, ⟨_, self⟩, wrote.dino, ?_⟩
  rw [wrote.saved]
  split
  · rfl
  · rename_i within
    have din := good.din_eq loaded
    rw [← din]
    -- no block is added to a file that does not grow
    have blocks : ∀ pos, block t ip pos = block s ip pos := by
      intro pos
      by_cases mem : pos ∈ cover off n
      · apply wrote.kept
        rw [good.block_eq loaded]
        exact good.cover_mapped (by rw [← din]; omega) mem
      · exact wrote.only pos mem
    have words : addrs = (s.inode ip).din.addrs := by
      funext j
      have here := blocks j
      rw [block_word _ _ (Nat.le_of_lt_succ j.isLt), block_word _ _ (Nat.le_of_lt_succ j.isLt), self,
        Dinode.word, Dinode.word, dif_pos j.isLt, dif_pos j.isLt] at here
      exact here
    rw [self, words, Nat.max_eq_left (by omega)]

section Operations
variable (good : Consistent s) (loaded : Loaded s ip)
include good loaded

theorem Consistent.content_eq {k : Nat} (inside : k < (s.inode ip).din.size) :
    content s ip k = (node s (s.inode ip).inum).bytes k := by
  unfold content node
  dsimp only
  rw [← good.din_eq loaded, if_pos inside, good.block_eq loaded]

theorem consistent_of_wrote {src : Bytes} (wrote : Wrote s t ip off n src (cover off n))
    (start : off ≤ (s.inode ip).din.size) : Consistent t := by
  obtain ⟨addrs, self⟩ := wrote.self
  apply (kept_of_wrote wrote good loaded).consistent good loaded
  · rw [self]
    exact (good.coherent ip loaded.ref loaded.valid).2
  · intro bn inside
    rw [self] at inside
    dsimp only at inside
    by_cases before : bn * bsize < (s.inode ip).din.size
    · have mapped := good.mapped (s.inode ip).inum bn (by rwa [← good.din_eq loaded])
      rw [← good.block_eq loaded] at mapped
      rwa [wrote.kept _ mapped]
    · have mapped := wrote.mapped (bn * bsize) (by omega) (by omega)
      rwa [Nat.mul_div_cancel _ (show 0 < bsize by decide)] at mapped

theorem node_of_wrote {src : Bytes} (wrote : Wrote s t ip off n src (cover off n))
    (start : off ≤ (s.inode ip).din.size) :
    node t = update (node s) (s.inode ip).inum ((node s (s.inode ip).inum).write off n src) := by
  obtain ⟨addrs, self⟩ := wrote.self
  have kept := kept_of_wrote wrote good loaded
  funext i
  by_cases here : i = (s.inode ip).inum
  · rw [here, update_self, kept.node_self, self, wrote.bytes]
    have din := good.din_eq loaded
    unfold Node.write node
    rw [← din]
    congr 1
    funext k
    unfold patch
    by_cases new : off ≤ k ∧ k < off + n
    · rw [if_pos (by dsimp only; omega), if_pos new, if_pos new]
    · rw [if_neg new, if_neg new]
      by_cases old : k < (s.inode ip).din.size
      · have same := good.content_eq loaded old
        unfold node at same
        rw [← din] at same
        dsimp only at same ⊢
        rw [if_pos (by omega), same]
      · rw [if_neg (by dsimp only; omega)]
        exact (if_neg old).symm
  · rw [update_of_ne here, kept.node_other good loaded here]

theorem Consistent.fileBlock_eq (bn : Nat) :
    fileBlock s.disk (s.inode ip).din bn = block s ip (dataPos bn) := by
  have past := (good.owns loaded).past ndirect
  rw [block_word s ip (Nat.le_refl _)] at past
  unfold fileBlock block slot
  by_cases present : (s.inode ip).din.word ndirect = 0
  · simp only [present, ne_eq, not_true_eq_false, and_false, if_false]
  · rw [region_data s (past present)]

/-- `readi` within the file. -/
theorem Consistent.wp_readi (file : (s.inode ip).din.type ≠ tDev)
    (inside : off ≤ (s.inode ip).din.size) (count : off + n < 2 ^ 32) :
    wp (readi ip off n)
      (fun r t => t = s ∧ r.1 = (min n ((s.inode ip).din.size - off) : Nat) ∧
        ∀ k < min n ((s.inode ip).din.size - off),
          r.2 k = (node s (s.inode ip).inum).bytes (off + k)) E s := by
  have mapped : ∀ bn, bn * bsize < (s.inode ip).din.size →
      fileBlock s.disk (s.inode ip).din bn ≠ 0 := by
    intro bn below
    rw [good.fileBlock_eq loaded, good.block_eq loaded]
    exact good.mapped _ bn (by rwa [← good.din_eq loaded])
  apply wp_mono (wp_readi_mapped file inside count fun bn below => mapped bn (by omega))
  rintro r t ⟨rfl, count, bytes⟩
  refine ⟨rfl, count, fun k below => ?_⟩
  have within : off + k < (t.inode ip).din.size := by omega
  have present := mapped ((off + k) / bsize) (by
    have := Nat.div_mul_le_self (off + k) bsize
    omega)
  rw [bytes k below, ← good.content_eq loaded within]
  unfold byteAt content
  rw [good.fileBlock_eq loaded] at present ⊢
  rw [region_data t ((good.owns loaded).past _ present)]

/-- `writei` of a range that a file can have, with the free blocks counted against any
positions that contain those of the range. -/
theorem Consistent.wp_writei (src : Bytes) (file : (s.inode ip).din.type ≠ tDev)
    (start : off ≤ (s.inode ip).din.size) (limit : off + n ≤ maxFile * bsize) {P : Finset Nat}
    (covers : Covers P off n) (full : room P s ip < 0 → E .ballocOutOfBlocks) :
    wp (writei ip src off n) (fun r t => r = n ∧ Wrote s t ip off n src (cover off n) ∧ Consistent t ∧
      node t = update (node s) (s.inode ip).inum ((node s (s.inode ip).inum).write off n src) ∧
      room P t ip = room P s ip) E s := by
  have fits : (s.inode ip).din.Fits := by
    rw [good.din_eq loaded]
    exact dino_fits s _
  have owns := good.owns loaded
  have inum := (good.entries ip loaded.ref).2
  have counted := Writes.wp_writei src good.laid good.reserved owns inum fits file start limit covers full
  have exact := Writes.wp_writei src good.laid good.reserved owns inum fits file start limit
    (covers_cover off n) (E := fun _ => True) fun _ => trivial
  apply wp_mono (wp_also counted exact)
  rintro r t ⟨⟨rfl, count⟩, -, wrote⟩
  exact ⟨rfl, wrote, consistent_of_wrote good loaded wrote start,
    node_of_wrote good loaded wrote start, count.room⟩

end Operations

/-- Any other range is refused. -/
theorem wp_writei_past (src : Bytes) (file : (s.inode ip).din.type ≠ tDev) (off32 : off < 2 ^ 32)
    (n32 : n < 2 ^ 32) (past : ¬ (off ≤ (s.inode ip).din.size ∧ off + n ≤ maxFile * bsize)) :
    wp (writei ip src off n) (fun r t => t = s ∧ r = -1) E s := by
  unfold writei
  rw [wp_read]
  rw [if_neg file]
  split
  · rw [wp_pure]
    exact ⟨rfl, rfl⟩
  · rw [if_pos (by omega), wp_pure]
    exact ⟨rfl, rfl⟩

/-- The blocks that a write would have to add. -/
def need (s : Fs) (ip off n : Nat) : Nat := ((cover off n).filter fun pos => block s ip pos = 0).card

/-- `readi` and `writei` on an inode that its user has locked: a byte array, read in place
and patched in place, with every other one left alone. -/
theorem readi_writei_byte_array (good : Consistent s) (loaded : Loaded s ip)
    (file : (s.inode ip).din.type ≠ tDev) (src : Bytes) {off n : Nat} (off32 : off < 2 ^ 32)
    (n32 : n < 2 ^ 32) {c : Node} (contents : node s (s.inode ip).inum = c) :
    (c.size < off ∨ 2 ^ 32 ≤ off + n → readi ip off n s = .ok ((-1, zeroBlock), s)) ∧
    (off ≤ c.size → off + n < 2 ^ 32 → ∃ dst,
      readi ip off n s = .ok (((min n (c.size - off) : Nat), dst), s) ∧
      ∀ k < min n (c.size - off), dst k = c.bytes (off + k)) ∧
    (c.size < off ∨ 2 ^ 32 ≤ off + n ∨ maxFile * bsize < off + n →
      writei ip src off n s = .ok (-1, s)) ∧
    (off ≤ c.size → off + n ≤ maxFile * bsize → need s ip off n ≤ (freeBlocks s).card →
      ∃ t, writei ip src off n s = .ok ((n : Int), t) ∧ Consistent t ∧
        node t (s.inode ip).inum = { c with
          size := max c.size (off + n)
          bytes := fun k => if off ≤ k ∧ k < off + n then src (k - off) else c.bytes k } ∧
        ∀ i, i ≠ (s.inode ip).inum → node t i = node s i) := by
  have size : c.size = (s.inode ip).din.size := by
    rw [← contents, good.din_eq loaded]
    rfl
  have small : maxFile * bsize < 2 ^ 32 := by decide
  refine ⟨fun past => ?_, fun inside count => ?_, fun past => ?_, fun start limit enough => ?_⟩
  · obtain ⟨r, t, result, rfl, rfl⟩ := wp_returns (wp_readi_past file off32 n32
      (by rw [← size]; omega) : wp (readi ip off n) _ _ s)
    exact result
  · obtain ⟨r, t, result, rfl, count, bytes⟩ := wp_returns (good.wp_readi loaded file (size ▸ inside) count)
    rw [← size] at count bytes
    refine ⟨r.2, ?_, ?_⟩
    · rw [result, ← count]
    · rwa [contents] at bytes
  · obtain ⟨r, t, result, rfl, rfl⟩ := wp_returns (wp_writei_past src file off32 n32
      (by rw [← size]; omega) : wp (writei ip src off n) _ _ s)
    exact result
  · have enough : ¬ room (cover off n) s ip < 0 := by
      unfold room
      unfold need at enough
      omega
    obtain ⟨r, t, result, rfl, -, good', after, -⟩ := wp_returns
      (good.wp_writei loaded src file (size ▸ start) limit (covers_cover off n)
        fun neg => absurd neg enough)
    refine ⟨t, result, good', ?_, fun i other => ?_⟩
    · rw [after, update_self, contents]
      rfl
    · rw [after, update_of_ne other]

end Consistent

/-! A small file system with one empty file that is open; its first four blocks are in use. -/

def tinyDisk (size : UInt8) (b k : Nat) : UInt8 :=
  if b = 1 then if k = 0 then size else if k = 8 then 2 else if k = 20 then 2 else if k = 24 then 3 else 0
  else if b = 2 then if k = 64 then 2 else if k = 70 then 1 else 0
  else if b = 3 then if k = 0 then 15 else 0
  else 0

def sized (size : UInt8) : Fs where
  disk := tinyDisk size
  sb := { size := size.toNat, nblocks := 0, ninodes := 2, nlog := 0, logstart := 0, inodestart := 2,
          bmapstart := 3 }
  inode := fun k => if k = 0 then
    { inum := 1, ref := 1, locked := false, valid := true, din := { type := tFile, nlink := 1 } } else {}
  file := fun f => if f = 0 then { type := .inode, ref := 1, writable := true } else {}
  proc := fun _ => {}
  console := fun _ => (-1, zeroBlock)
  logged := []

/-- With eight blocks, so that four are free. -/
def tiny : Fs := sized 8

section Sized
variable {size : UInt8}

theorem sized_dino (i : Nat) :
    (region (sized size)).dino i = if i = 1 then { type := tFile, nlink := 1 } else {} := by
  have addrs : ∀ k < 2, (fun j => getLE (tinyDisk 8 2) (k * 64 + 12 + 4 * j.val) 4) =
      fun _ : Fin (ndirect + 1) => 0 := by
    intro k inside
    funext j
    revert k j
    decide
  match i with
  | 0 => exact congrArg (Dinode.mk 0 0 0 0 0) (addrs 0 (by decide))
  | 1 => exact congrArg (Dinode.mk 2 0 0 1 0) (addrs 1 (by decide))
  | _ + 2 => rfl

theorem sized_place (x : Nat × Nat) : place (sized size) x = 0 := by
  have words : ∀ n, ((region (sized size)).dino x.1).word n = 0 := by
    intro n
    rw [sized_dino, Dinode.word]
    split
    · split <;> rfl
    · rfl
  unfold place slot
  simp only [words, ne_eq, not_true_eq_false, and_false, if_false, ite_self]

theorem sized_entry {k : Nat} (ref : 0 < ((sized size).inode k).ref) : k = 0 := by
  by_contra other
  rw [show (sized size).inode k = {} from if_neg other] at ref
  exact absurd ref (by decide)

theorem sized_bit (four : size = 4 ∨ size = 8) (b : Nat) :
    (region (sized size)).bit b = decide (b < 4) := by
  by_cases inside : b < 8
  · rcases four with rfl | rfl <;> revert b <;> decide
  · have below : (sized size).sb.size ≤ 8 := by rcases four with rfl | rfl <;> decide
    have outside : decide (b < (sized size).sb.size) = false := decide_eq_false (by omega)
    unfold region parts
    dsimp only
    rw [outside, Bool.false_and, decide_eq_false (by omega)]

theorem sized_dataStart (four : size = 4 ∨ size = 8) : dataStart (sized size).sb = 4 := by
  rcases four with rfl | rfl <;> decide

theorem sized_consistent (four : size = 4 ∨ size = 8) : Consistent (sized size) where
  laid := by
    rcases four with rfl | rfl
    · exact ⟨⟨by decide, by decide, by decide⟩, by decide⟩
    · exact ⟨⟨by decide, by decide, by decide⟩, by decide⟩
  reserved := fun b below _ => by
    rw [sized_bit four]
    exact decide_eq_true (sized_dataStart four ▸ below)
  exact := by
    rw [sized_dataStart four]
    refine ⟨?_, fun x nonzero => absurd (sized_place x) nonzero, fun x _ nonzero =>
      absurd (sized_place x) nonzero, ?_⟩
    · exact fun used => absurd used.1 (by decide)
    · rintro b ⟨past, used⟩
      rw [sized_bit four, decide_eq_true_eq] at used
      exact absurd used (Nat.not_lt.mpr past)
  free := fun i _ pos => sized_place (i, pos)
  mapped := by
    intro i bn inside
    rw [sized_dino] at inside
    split at inside <;> exact absurd inside (Nat.not_lt_zero _)
  entries := by
    intro k ref
    rw [sized_entry ref]
    exact ⟨by decide, Nat.lt_succ_self 1⟩
  single := fun k l left right _ => (sized_entry left).trans (sized_entry right).symm
  coherent := by
    intro k ref _
    rw [sized_entry ref, sized_dino]
    exact ⟨rfl, show tFile ≠ 0 by decide⟩

end Sized

theorem tiny_consistent : Consistent tiny := sized_consistent (.inr rfl)

theorem tiny_loaded : Loaded tiny 0 := ⟨by decide, by decide⟩

theorem readi_writei_byte_array_tiny :
    ∃ t, writei 0 (fun _ => 7) 0 3 tiny = .ok (3, t) ∧ (node t 1).size = 3 ∧ (node t 1).bytes 2 = 7 := by
  obtain ⟨t, result, -, after, -⟩ := (readi_writei_byte_array tiny_consistent tiny_loaded (by decide)
    (fun _ => 7) (show 0 < 2 ^ 32 by decide) (show 3 < 2 ^ 32 by decide) rfl).2.2.2
    (Nat.zero_le _) (by decide) (by decide)
  exact ⟨t, result, by rw [show 1 = (tiny.inode 0).inum from rfl, after]; rfl,
    by rw [show 1 = (tiny.inode 0).inum from rfl, after]; rfl⟩

end ColorXv6.Fs.Store
