import ColorXv6.Fs.Regions

/-!
A cached inode that is given blocks: `bmap` adds free blocks to it, and neither what it
had nor any block of another owner changes.
-/
namespace ColorXv6.Fs.Growth
open Function Lib.LittleEndian Lib.Wp Param Layout BlockMap Inode ReadBlocks Regions
open Logging.Commit (Block Disk diskWrite)

/-- The block number at a position of the inode in entry `ip` of the cache. -/
def block (s : Fs) (ip pos : Nat) : Nat := slot (region s).data (s.inode ip).din pos

/-- The bytes of the file; those of a block that is not there are zero. -/
def content (s : Fs) (ip k : Nat) : UInt8 := (region s).data (block s ip (dataPos (k / bsize))) (k % bsize)

/-- The blocks of the inode are data blocks in use, and no block has two places. -/
structure Owns (s : Fs) (ip : Nat) : Prop where
  past : ∀ pos, block s ip pos ≠ 0 → dataStart s.sb ≤ block s ip pos
  inside : ∀ pos, block s ip pos ≠ 0 → block s ip pos < s.sb.size
  used : ∀ pos, block s ip pos ≠ 0 → (region s).bit (block s ip pos) = true
  once : ∀ p q, block s ip p ≠ 0 → block s ip p = block s ip q → p = q

/-- From `s` to `t` the inode in entry `ip` may have got free blocks, and what is in its
blocks may have changed. -/
structure Filled (s t : Fs) (ip : Nat) : Prop extends Only ip s t where
  super : (region t).super = (region s).super
  kept : ∀ pos, block s ip pos ≠ 0 → block t ip pos = block s ip pos
  fresh : ∀ pos, block s ip pos = 0 → block t ip pos ≠ 0 → Free s (block t ip pos)
  bits : ∀ b, (region t).bit b = true ↔
    (region s).bit b = true ∨ b ≠ 0 ∧ ∃ pos, block t ip pos = b
  data : ∀ b, (region s).bit b = true → (∀ pos, block s ip pos ≠ b) →
    (region t).data b = (region s).data b
  once : ∀ p q, block t ip p ≠ 0 → block t ip p = block t ip q → p = q

/-- Nothing else of the inode has changed, and it has not been written back. -/
structure Grew (s t : Fs) (ip : Nat) : Prop extends Filled s t ip where
  self : ∃ addrs, t.inode ip = { s.inode ip with din := { (s.inode ip).din with addrs } }
  dino : (region t).dino = (region s).dino

/-- The free blocks less the positions of `P` that have no block yet. -/
def room (P : Finset Nat) (s : Fs) (ip : Nat) : Int :=
  (freeBlocks s).card - (P.filter fun pos => block s ip pos = 0).card

/-- Block `c` is of the free map, or one of those the inode has at the positions `P`. -/
def Touched (P : Finset Nat) (s : Fs) (ip c : Nat) : Prop :=
  (∃ b < s.sb.size, c = bblock s.sb b) ∨ c ≠ 0 ∧ ∃ pos ∈ P, block s ip pos = c

variable {b : Nat} {P : Finset Nat}

section Grew
variable {s t u : Fs} {ip : Nat}

theorem data_zero (s : Fs) : (region s).data 0 = zeroBlock := by
  unfold region parts
  dsimp only
  rw [if_neg (Nat.not_le.mpr (dataStart_pos s.sb))]

/-- The inode keeps its blocks, whatever is stored in them. -/
theorem Owns.filled (owns : Owns s ip) (only : Only ip s t) (super : (region t).super = (region s).super)
    (blocks : ∀ pos, block t ip pos = block s ip pos) (bit : (region t).bit = (region s).bit)
    (data : ∀ b, (∀ pos, block s ip pos ≠ b) → (region t).data b = (region s).data b) :
    Filled s t ip where
  toOnly := only
  super := super
  kept := fun pos _ => blocks pos
  fresh := fun pos zero nonzero => absurd zero (blocks pos ▸ nonzero)
  bits := by
    intro b
    simp only [bit, blocks]
    refine ⟨.inl, ?_⟩
    rintro (used | ⟨nonzero, pos, rfl⟩)
    · exact used
    · exact owns.used pos nonzero
  data := fun b _ apart => data b apart
  once := by
    intro p q
    rw [blocks, blocks]
    exact owns.once p q

theorem Owns.refl_grew (owns : Owns s ip) : Grew s s ip where
  toFilled := owns.filled (.refl ip s) rfl (fun _ => rfl) rfl fun _ _ => rfl
  self := ⟨_, rfl⟩
  dino := rfl

/-- A free block is none of the inode's. -/
theorem Owns.ne_free (owns : Owns s ip) (free : Free s b) (pos : Nat) :
    block s ip pos ≠ b := by
  rintro rfl
  have used := owns.used pos free.nonzero
  rw [free.clear] at used
  cases used

theorem Filled.owns (grew : Filled s t ip) (owns : Owns s ip) : Owns t ip := by
  refine ⟨fun pos nonzero => ?_, fun pos nonzero => ?_, fun pos nonzero => ?_, grew.once⟩
  · by_cases before : block s ip pos = 0
    · exact grew.sb ▸ (grew.fresh pos before nonzero).past
    · rw [grew.kept pos before, grew.sb]
      exact owns.past pos before
  · by_cases before : block s ip pos = 0
    · exact grew.sb ▸ (grew.fresh pos before nonzero).inside
    · rw [grew.kept pos before, grew.sb]
      exact owns.inside pos before
  · exact (grew.bits _).mpr (.inr ⟨nonzero, pos, rfl⟩)

theorem Filled.bit_mono (grew : Filled s t ip) (used : (region s).bit b = true) :
    (region t).bit b = true := (grew.bits b).mpr (.inl used)

theorem Filled.laid (grew : Filled s t ip) (laid : Laid s) : Laid t := laid.congr grew.sb grew.super

theorem Filled.reserved (grew : Filled s t ip) (reserved : Reserved s) : Reserved t := by
  intro b below inside
  rw [grew.sb] at below inside
  exact grew.bit_mono (reserved b below inside)

theorem Filled.trans (first : Filled s t ip) (second : Filled t u ip) : Filled s u ip where
  toOnly := first.toOnly.trans second.toOnly
  super := second.super.trans first.super
  kept := by
    intro pos nonzero
    have same := first.kept pos nonzero
    rw [second.kept pos (same ▸ nonzero), same]
  fresh := by
    intro pos zero nonzero
    by_cases middle : block t ip pos = 0
    · obtain ⟨past, inside, clear⟩ := second.fresh pos middle nonzero
      refine ⟨first.sb ▸ past, first.sb ▸ inside, ?_⟩
      rw [Bool.eq_false_iff] at clear ⊢
      exact fun used => clear (first.bit_mono used)
    · rw [second.kept pos middle]
      exact first.fresh pos zero middle
  bits := by
    intro b
    rw [second.bits, first.bits]
    constructor
    · rintro ((used | ⟨nonzero, pos, rfl⟩) | last)
      · exact .inl used
      · exact .inr ⟨nonzero, pos, second.kept pos nonzero⟩
      · exact .inr last
    · rintro (used | last)
      · exact .inl (.inl used)
      · exact .inr last
  data := by
    intro b used apart
    rw [second.data b (first.bit_mono used) ?_, first.data b used apart]
    intro pos same
    by_cases before : block s ip pos = 0
    · by_cases zero : b = 0
      · exact apart pos (before.trans zero.symm)
      · have free := first.fresh pos before (same ▸ zero)
        rw [same] at free
        rw [free.clear] at used
        cases used
    · exact apart pos ((first.kept pos before).symm.trans same)
  once := second.once

theorem Grew.trans (first : Grew s t ip) (second : Grew t u ip) : Grew s u ip where
  toFilled := first.toFilled.trans second.toFilled
  self := by
    obtain ⟨_, first⟩ := first.self
    obtain ⟨addrs, second⟩ := second.self
    exact ⟨addrs, by rw [second, first]⟩
  dino := second.dino.trans first.dino

theorem Filled.touched (grew : Filled s t ip) {c : Nat} (touched : Touched P s ip c) :
    Touched P t ip c := by
  unfold Touched at *
  rw [grew.sb]
  refine touched.imp_right ?_
  rintro ⟨nonzero, pos, mem, rfl⟩
  exact ⟨nonzero, pos, mem, grew.kept pos nonzero⟩

/-- A free block is put at an empty position. -/
theorem grew_take {p : Nat} (owns : Owns s ip) (free : Free s b) (empty : block s ip p = 0)
    (only : Only ip s u)
    (self : ∃ addrs, u.inode ip = { s.inode ip with din := { (s.inode ip).din with addrs } })
    (super : (region u).super = (region s).super) (dino : (region u).dino = (region s).dino)
    (bit : (region u).bit = update (region s).bit b true)
    (blocks : ∀ pos, block u ip pos = if pos = p then b else block s ip pos)
    (data : ∀ c, c ≠ block u ip ndirect →
      (region u).data c = update (region s).data b zeroBlock c) :
    Grew s u ip ∧ content u ip = content s ip ∧
      ∀ P : Finset Nat, p ∈ P → room P u ip = room P s ip := by
  have nonzero := free.nonzero
  have other : ∀ pos, block s ip pos ≠ b := owns.ne_free free
  have once : ∀ q r, block u ip q ≠ 0 → block u ip q = block u ip r → q = r := by
    intro q r
    rw [blocks, blocks]
    split <;> split
    · rename_i left right
      exact fun _ _ => left.trans right.symm
    · exact fun _ same => absurd same.symm (other r)
    · exact fun _ same => absurd same (other q)
    · exact owns.once q r
  refine ⟨⟨⟨only, super, ?_, ?_, ?_, ?_, once⟩, self, dino⟩, ?_, ?_⟩
  · intro pos before
    rw [blocks, if_neg]
    rintro rfl
    exact before empty
  · intro pos before after
    rw [blocks] at after ⊢
    split
    · exact free
    · rename_i elsewhere
      rw [if_neg elsewhere] at after
      exact absurd before after
  · intro c
    rw [bit, update_apply]
    constructor
    · intro used
      split at used
      · rename_i here
        exact .inr ⟨here ▸ nonzero, p, by rw [blocks, if_pos rfl, here]⟩
      · exact .inl used
    · rintro (used | ⟨positive, pos, rfl⟩)
      · rw [used, ite_self]
      · rw [blocks] at positive ⊢
        split
        · rw [if_pos rfl]
        · rename_i elsewhere
          rw [if_neg elsewhere] at positive
          rw [owns.used pos positive, ite_self]
  · intro c used apart
    have new : c ≠ b := by
      rintro rfl
      rw [free.clear] at used
      cases used
    rw [data c ?_, update_of_ne new]
    rw [blocks]
    split
    · exact new
    · exact fun same => apart _ same.symm
  · funext k
    unfold content
    have apart := dataPos_ne_ndirect (k / bsize)
    have pointer : block u ip (dataPos (k / bsize)) ≠ 0 →
        block u ip (dataPos (k / bsize)) ≠ block u ip ndirect := fun positive same =>
      apart (once _ _ positive same)
    rw [blocks] at pointer ⊢
    split at pointer
    · rename_i here
      rw [if_pos here, here, empty, data_zero, data b (pointer nonzero), update_self]
    · rename_i elsewhere
      rw [if_neg elsewhere]
      by_cases zero : block s ip (dataPos (k / bsize)) = 0
      · rw [zero, data_zero, data_zero]
      · rw [data _ (pointer zero), update_of_ne (other _)]
  · intro P mem
    have one := free.card_freeBlocks only.sb bit
    have filled : (P.filter fun pos => block u ip pos = 0) =
        (P.filter fun pos => block s ip pos = 0).erase p := by
      ext pos
      simp only [Finset.mem_filter, Finset.mem_erase, blocks]
      by_cases here : pos = p
      · simp only [here, if_true, nonzero, and_false, ne_eq, not_true_eq_false, false_and]
      · simp only [here, if_false, ne_eq, not_false_eq_true, true_and]
    have less := Finset.card_erase_add_one (Finset.mem_filter.mpr ⟨mem, empty⟩ :
      p ∈ P.filter fun pos => block s ip pos = 0)
    unfold room
    rw [filled]
    omega

/-- With no free block left, a position without a block is one too many. -/
theorem room_neg {p : Nat} (mem : p ∈ P) (empty : block s ip p = 0)
    (none : freeBlocks s = ∅) : room P s ip < 0 := by
  have some : 0 < (P.filter fun pos => block s ip pos = 0).card :=
    Finset.card_pos.mpr ⟨p, Finset.mem_filter.mpr ⟨mem, empty⟩⟩
  unfold room
  rw [none, Finset.card_empty]
  omega

end Grew

/-! ### bmap -/

theorem diskWrite_update (disk : Disk) (b : Nat) (data : Block) :
    diskWrite disk (b, data) = update disk b data := by
  funext c
  rw [update_apply]
  rfl

theorem slot_update {disk : Disk} {d : Dinode} (data : Block)
    (apart : d.word ndirect ≠ 0 → d.word ndirect ≠ b) (pos : Nat) :
    slot (update disk b data) d pos = slot disk d pos := by
  rw [← diskWrite_update, slot_diskWrite data apart]

theorem block_word (s : Fs) (ip : Nat) {n : Nat} (inside : n ≤ ndirect) :
    block s ip n = (s.inode ip).din.word n := if_pos inside

section Bmap
variable {s : Fs} {ip : Nat} {E : Halt → Prop}

/-- What `bmap` and its parts have done when they return the block at `pos`. -/
structure Mapped (s t : Fs) (ip pos b : Nat) (P : Finset Nat) : Prop where
  grew : Grew s t ip
  bytes : content t ip = content s ip
  room : room P t ip = room P s ip
  here : block t ip pos = b
  present : b ≠ 0
  only : ∀ q, q ∉ P → block t ip q = block s ip q
  logged : ∀ c ∈ t.logged, c ∈ s.logged ∨ Touched P t ip c

/-- A word of the address array is set to a block that `balloc` has just given. -/
theorem mapped_setAddr {t : Fs} {n : Nat} (owns : Owns s ip) (taken : Taken s t b)
    (inside : n ≤ ndirect) (empty : block s ip n = 0) (mem : n ∈ P) :
    Mapped s { t with inode := fun k => if k = ip then
      { t.inode k with din := (t.inode k).din.setAddr n b } else t.inode k } ip n b P := by
  obtain ⟨u, final⟩ : ∃ u : Fs, { t with inode := fun k => if k = ip then
      { t.inode k with din := (t.inode k).din.setAddr n b } else t.inode k } = u := ⟨_, rfl⟩
  rw [final]
  have self : u.inode ip =
      { s.inode ip with din := (s.inode ip).din.setAddr n b } := by
    rw [← final, ← taken.inode]
    exact if_pos rfl
  have unchanged : region u = region t := by
    rw [← final]
    rfl
  have store := unchanged.trans taken.region
  have apart : (s.inode ip).din.word ndirect ≠ b := by
    rw [← block_word s ip (Nat.le_refl _)]
    exact owns.ne_free taken.toFree ndirect
  have blocks : ∀ pos, block u ip pos = if pos = n then b else block s ip pos := by
    intro pos
    unfold block
    rw [self, store]
    dsimp only
    by_cases direct : n < ndirect
    · rw [slot_setAddr _ _ direct, slot_update _ fun _ => apart]
    · obtain rfl : n = ndirect := by omega
      rw [block_word s ip inside] at empty
      rw [slot_setAddr_indirect (fun _ _ present => absurd empty present), slot_update _ fun _ => apart]
      intro j _ _
      rw [update_self, getAddr_zeroBlock]
  obtain ⟨grew, bytes, room⟩ := grew_take owns taken.toFree empty
    ⟨final ▸ ⟨taken.sb, taken.file, taken.proc, taken.console⟩,
      fun k other => by rw [← final, ← taken.inode]; exact if_neg other⟩ ⟨_, self⟩
    (by rw [store]) (by rw [store]) (by rw [store]) blocks (fun c _ => by rw [store])
  refine ⟨grew, bytes, room P mem, by rw [blocks, if_pos rfl], taken.toFree.nonzero, ?_, ?_⟩
  · intro q outside
    rw [blocks, if_neg (ne_of_mem_of_not_mem mem outside).symm]
  · intro c logged
    rw [← final] at logged
    refine (taken.logged c logged).imp_right ?_
    rintro (rfl | rfl)
    · exact .inl ⟨b, grew.sb ▸ taken.inside, by rw [grew.sb]⟩
    · exact .inr ⟨taken.toFree.nonzero, n, mem, by rw [blocks, if_pos rfl]⟩

theorem wp_mapAddr (laid : Laid s) (reserved : Reserved s) (owns : Owns s ip) {n : Nat}
    (inside : n ≤ ndirect) (mem : n ∈ P) (full : room P s ip < 0 → E .ballocOutOfBlocks) :
    wp (mapAddr ip n) (fun b t => Mapped s t ip n b P) E s := by
  unfold mapAddr
  rw [wp_read]
  dsimp only
  split
  · rename_i empty
    rw [← block_word s ip inside] at empty
    rw [wp_bind]
    apply wp_mono (wp_balloc laid reserved fun none => full (room_neg mem empty none))
    intro b t taken
    unfold modifyDin modifyInode
    rw [wp_bind, wp_modify, wp_pure]
    exact mapped_setAddr owns taken inside empty mem
  · rename_i present
    rw [wp_pure]
    exact ⟨owns.refl_grew, rfl, rfl, block_word s ip inside, present, fun _ _ => rfl, fun _ => .inl⟩

theorem region_data (s : Fs) (past : dataStart s.sb ≤ b) : (region s).data b = s.disk b :=
  if_pos past

/-- The entries of an indirect block are the positions after it. -/
theorem block_entry (owns : Owns s ip) {j : Nat} (inside : j < nindirect)
    (present : block s ip ndirect ≠ 0) :
    block s ip (ndirect + 1 + j) = getAddr (s.disk (block s ip ndirect)) j := by
  rw [← region_data s (owns.past _ present)]
  rw [block_word s ip (Nat.le_refl _)] at *
  unfold block slot
  unfold maxFile
  rw [if_neg (by omega), if_pos ⟨by omega, present⟩]
  congr 1
  omega

/-- An entry of the indirect block is set to a block that `balloc` has just given. -/
theorem mapped_putAddr {t u : Fs} {j : Nat} (owns : Owns s ip) (laid : Laid s)
    (taken : Taken s t b) (inside : j < nindirect) (present : block s ip ndirect ≠ 0)
    (empty : block s ip (ndirect + 1 + j) = 0) (mem : ndirect + 1 + j ∈ P) (start : ndirect ∈ P)
    (same : OnDisk (· = block s ip ndirect) t u)
    (store : region u = { region t with
      data := update (region t).data (block s ip ndirect)
        (buffer (putAddr (s.disk (block s ip ndirect)) j b)) }) :
    Mapped s u ip (ndirect + 1 + j) b P := by
  have apart : block s ip ndirect ≠ b := owns.ne_free taken.toFree ndirect
  have pointer : block s ip ndirect = (s.inode ip).din.word ndirect := block_word s ip (Nat.le_refl _)
  have small : b < 2 ^ 32 := Nat.lt_trans taken.inside laid.ordered.small
  have frame := taken.toOnDisk.trans same (D := fun c =>
    (c = bblock s.sb b ∨ c = b) ∨ c = block s ip ndirect) (fun _ => .inl) (fun _ => .inr)
  have stored : (region u).data = diskWrite (update (region s).data b zeroBlock)
      ((s.inode ip).din.word ndirect, buffer (putAddr
        (update (region s).data b zeroBlock ((s.inode ip).din.word ndirect)) j b)) := by
    rw [diskWrite_update, store, taken.region, ← pointer, update_of_ne apart,
      region_data s (owns.past _ present)]
  have blocks : ∀ pos, block u ip pos = if pos = ndirect + 1 + j then b else block s ip pos := by
    intro pos
    unfold block
    rw [frame.inode, stored, slot_putAddr inside (pointer ▸ present) small, slot_update]
    exact fun _ => pointer ▸ apart
  obtain ⟨grew, bytes, room⟩ := grew_take owns taken.toFree empty (frame.only ip) ⟨_, by rw [frame.inode]⟩
    (by rw [store, taken.region]) (by rw [store, taken.region]) (by rw [store, taken.region]) blocks
    (fun c other => by
      rw [blocks, if_neg (by omega)] at other
      rw [store, taken.region]
      exact update_of_ne other _ _)
  refine ⟨grew, bytes, room P mem, by rw [blocks, if_pos rfl], taken.toFree.nonzero, ?_, ?_⟩
  · intro q outside
    rw [blocks, if_neg (ne_of_mem_of_not_mem mem outside).symm]
  · intro c logged
    refine (frame.logged c logged).imp_right ?_
    rintro ((rfl | rfl) | rfl)
    · exact .inl ⟨b, grew.sb ▸ taken.inside, by rw [grew.sb]⟩
    · exact .inr ⟨taken.toFree.nonzero, _, mem, by rw [blocks, if_pos rfl]⟩
    · exact .inr ⟨present, _, start, by rw [blocks, if_neg (by omega)]⟩

/-- `bmap` returns the block, added if it was missing; the bytes of the file are the same. -/
theorem wp_bmap (laid : Laid s) (reserved : Reserved s) (owns : Owns s ip) {bn : Nat}
    (inside : bn < maxFile) (mem : dataPos bn ∈ P) (pointer : ndirect ≤ bn → ndirect ∈ P)
    (full : room P s ip < 0 → E .ballocOutOfBlocks) :
    wp (bmap ip bn) (fun b t => Mapped s t ip (dataPos bn) b P) E s := by
  unfold bmap
  unfold maxFile at inside
  split
  · rename_i direct
    rw [show dataPos bn = bn from if_pos direct] at mem ⊢
    exact wp_mapAddr laid reserved owns (by omega) mem full
  · rename_i past
    have pos : dataPos bn = ndirect + 1 + (bn - ndirect) := by
      rw [dataPos, if_neg past]
      omega
    have entry : bn - ndirect < nindirect := by omega
    rw [pos] at mem ⊢
    rw [if_pos entry]
    apply wp_seq (wp_mapAddr laid reserved owns (Nat.le_refl _) (pointer (by omega)) full)
    rintro indirect t ⟨grew, bytes, same, rfl, present, only, logged⟩
    have laid := grew.laid laid
    have reserved := grew.reserved reserved
    have owns := grew.owns owns
    rw [wp_bind, wp_bread, ← block_entry owns entry present]
    split
    · rename_i empty
      apply wp_seq (wp_balloc laid reserved fun none => full (same ▸ room_neg mem empty none))
      intro b v taken
      have laid' : Laid v := laid.congr taken.sb (by rw [taken.region])
      apply wp_seq (wp_logWrite_data laid' (taken.sb ▸ owns.past _ present) _)
      rintro _ u ⟨disk, store⟩
      have more := mapped_putAddr owns laid taken entry present empty mem (pointer (by omega)) disk store
      rw [wp_pure]
      refine ⟨grew.trans more.grew, more.bytes.trans bytes, more.room.trans same, more.here,
        more.present, fun q outside => (more.only q outside).trans (only q outside), ?_⟩
      intro c mem
      rcases more.logged c mem with before | here
      · exact (logged c before).imp_right more.grew.touched
      · exact .inr here
    · rename_i mapped
      rw [wp_pure]
      exact ⟨grew, bytes, same, rfl, mapped, only, logged⟩

end Bmap

end ColorXv6.Fs.Growth
