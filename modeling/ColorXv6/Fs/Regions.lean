import ColorXv6.Fs.ReadBlocks
import Mathlib.Data.Finset.Card
import Mathlib.Logic.Function.Basic

/-!
The disk as its parts: the superblock, the inodes, the free map and the data blocks.
Every store of fs.c changes one entry of one part and nothing else. What lies outside
a part is given a fixed value, so that parts can be compared as functions.
-/
namespace ColorXv6.Fs.Regions
open Function Lib.LittleEndian Lib.Wp Param Layout BlockMap Inode ReadBlocks
open Logging.Commit (Block Disk diskWrite diskWrite_same diskWrite_other)

/-- The first block after the free map. -/
def dataStart (sb : Superblock) : Nat := sb.bmapstart + sb.size / bpb + 1

theorem dataStart_pos (sb : Superblock) : 0 < dataStart sb := Nat.succ_pos _

/-- The parts are in the order of mkfs: boot block, superblock, log, inodes, free map, data. -/
structure Ordered (sb : Superblock) : Prop where
  head : 1 < sb.inodestart
  inodes : sb.inodestart + sb.ninodes / ipb < sb.bmapstart
  /-- Block numbers are 32-bit. -/
  small : sb.size < 2 ^ 32

structure Parts where
  super : Superblock
  bit : Nat → Bool
  dino : Nat → Dinode
  data : Nat → Block

def parts (sb : Superblock) (disk : Disk) : Parts where
  super := getSb (disk 1)
  bit := fun b => decide (b < sb.size) && testBit (disk (bblock sb b)) (b % bpb)
  dino := fun i => if i < sb.ninodes then dinodeAt sb disk i else {}
  data := fun b => if dataStart sb ≤ b then disk b else zeroBlock

variable {b : Nat}

section Stores
variable {sb : Superblock} (ordered : Ordered sb) (disk : Disk)
include ordered

omit ordered in
theorem bblock_range (inside : b < sb.size) :
    sb.bmapstart ≤ bblock sb b ∧ bblock sb b < dataStart sb := by
  unfold bblock dataStart
  simp only [show bpb = 4096 from rfl]
  omega

theorem iblock_range {i : Nat} (inside : i < sb.ninodes) :
    sb.inodestart ≤ iblock sb i ∧ iblock sb i < sb.bmapstart := by
  have order := ordered.inodes
  unfold iblock
  simp only [show ipb = 8 from rfl] at order ⊢
  omega

theorem order : 1 < sb.inodestart ∧ sb.inodestart < sb.bmapstart ∧ sb.bmapstart < dataStart sb := by
  have head := ordered.head
  have inodes := ordered.inodes
  unfold dataStart
  simp only [show bpb = 4096 from rfl, show ipb = 8 from rfl] at inodes ⊢
  omega

theorem parts_data (past : dataStart sb ≤ b) (block : Block) :
    parts sb (diskWrite disk (b, block)) =
      { parts sb disk with data := update (parts sb disk).data b block } := by
  have order := order ordered
  unfold parts
  dsimp only
  congr 1
  · rw [diskWrite_other _ _ _ (show 1 ≠ b by omega)]
  · funext c
    by_cases inside : c < sb.size
    · rw [diskWrite_other _ _ _ (show bblock sb c ≠ b by have := bblock_range inside; omega)]
    · simp only [inside, decide_false, Bool.false_and]
  · funext i
    split
    · rename_i inside
      exact dinodeAt_diskWrite _ (by have := iblock_range ordered inside; omega)
    · rfl
  · funext c
    by_cases here : c = b
    · rw [here, update_self, if_pos past, diskWrite_same]
    · rw [update_of_ne here, diskWrite_other _ _ _ here]

theorem parts_bit (inside : b < sb.size) {block : Block} {v : Bool}
    (bits : ∀ bi < bpb, testBit block bi =
      if bi = b % bpb then v else testBit (disk (bblock sb b)) bi) :
    parts sb (diskWrite disk (bblock sb b, buffer block)) =
      { parts sb disk with bit := update (parts sb disk).bit b v } := by
  have order := order ordered
  have range := bblock_range inside
  have positive : 0 < bpb := by decide
  unfold parts
  dsimp only
  congr 1
  · rw [diskWrite_other _ _ _ (show 1 ≠ bblock sb b by omega)]
  · funext c
    by_cases here : c = b
    · rw [here, update_self, diskWrite_same, testBit_buffer _ (Nat.mod_lt _ positive),
        bits _ (Nat.mod_lt _ positive), if_pos rfl, decide_eq_true inside, Bool.true_and]
    · rw [update_of_ne here]
      congr 1
      by_cases block : bblock sb c = bblock sb b
      · have apart : c % bpb ≠ b % bpb := by
          intro same
          have quot : c / bpb = b / bpb := by
            unfold bblock at block
            omega
          exact here (by rw [← Nat.div_add_mod c bpb, ← Nat.div_add_mod b bpb, quot, same])
        rw [block, diskWrite_same, testBit_buffer _ (Nat.mod_lt _ positive),
          bits _ (Nat.mod_lt _ positive), if_neg apart]
      · rw [diskWrite_other _ _ _ block]
  · funext i
    split
    · rename_i inside
      exact dinodeAt_diskWrite _ (by have := iblock_range ordered inside; omega)
    · rfl
  · funext c
    split
    · rw [diskWrite_other _ _ _ (show c ≠ bblock sb b by omega)]
    · rfl

theorem parts_dino {i : Nat} (inside : i < sb.ninodes) {d : Dinode} (fits : d.Fits) :
    parts sb (diskWrite disk
        (iblock sb i, buffer (putDinode (disk (iblock sb i)) (inodeOff i) d))) =
      { parts sb disk with dino := update (parts sb disk).dino i d } := by
  have order := order ordered
  have range := iblock_range ordered inside
  unfold parts
  dsimp only
  congr 1
  · rw [diskWrite_other _ _ _ (show 1 ≠ iblock sb i by omega)]
  · funext c
    by_cases inside : c < sb.size
    · rw [diskWrite_other _ _ _
        (show bblock sb c ≠ iblock sb i by have := bblock_range inside; omega)]
    · simp only [inside, decide_false, Bool.false_and]
  · funext j
    rw [dinodeAt_putDinode sb disk i j fits]
    by_cases here : j = i
    · rw [here, update_self, if_pos inside, if_pos rfl]
    · rw [update_of_ne here, if_neg here]
  · funext c
    split
    · rw [diskWrite_other _ _ _ (show c ≠ iblock sb i by omega)]
    · rfl

end Stores

/-! ### The stores of the kernel -/

def region (s : Fs) : Parts := parts s.sb s.disk

/-- The superblock in memory is the one on the disk. -/
structure Laid (s : Fs) : Prop where
  ordered : Ordered s.sb
  super : (region s).super = s.sb

/-- Nothing beside the disk and the cache differs. -/
structure Beside (s t : Fs) : Prop where
  sb : t.sb = s.sb
  file : t.file = s.file
  proc : t.proc = s.proc
  console : t.console = s.console

theorem Beside.trans {s t u : Fs} (first : Beside s t) (second : Beside t u) : Beside s u where
  sb := second.sb.trans first.sb
  file := second.file.trans first.file
  proc := second.proc.trans first.proc
  console := second.console.trans first.console

/-- Of the cache only entry `ip` differs. -/
structure Only (ip : Nat) (s t : Fs) : Prop extends Beside s t where
  others : ∀ k, k ≠ ip → t.inode k = s.inode k

theorem Only.refl (ip : Nat) (s : Fs) : Only ip s s := ⟨⟨rfl, rfl, rfl, rfl⟩, fun _ _ => rfl⟩

theorem Only.trans {ip : Nat} {s t u : Fs} (first : Only ip s t) (second : Only ip t u) :
    Only ip s u where
  toBeside := first.toBeside.trans second.toBeside
  others k other := (second.others k other).trans (first.others k other)

/-- Nothing but the disk differs, and the stores went to blocks of `B`. -/
structure OnDisk (B : Nat → Prop) (s t : Fs) : Prop extends Beside s t where
  inode : t.inode = s.inode
  logged : ∀ b ∈ t.logged, b ∈ s.logged ∨ B b

theorem OnDisk.trans {B C D : Nat → Prop} {s t u : Fs} (first : OnDisk B s t) (second : OnDisk C t u)
    (left : ∀ b, B b → D b) (right : ∀ b, C b → D b) : OnDisk D s u where
  toBeside := first.toBeside.trans second.toBeside
  inode := second.inode.trans first.inode
  logged := by
    intro b mem
    rcases second.logged b mem with before | here
    · exact (first.logged b before).imp_right (left b)
    · exact .inr (right b here)

theorem OnDisk.only {B : Nat → Prop} {s t : Fs} (same : OnDisk B s t) (ip : Nat) : Only ip s t :=
  ⟨same.toBeside, fun _ _ => by rw [same.inode]⟩

theorem Laid.congr {s t : Fs} (laid : Laid s) (sb : t.sb = s.sb)
    (super : (region t).super = (region s).super) : Laid t where
  ordered := sb ▸ laid.ordered
  super := super.trans (laid.super.trans sb.symm)

section Primitives
variable {s : Fs} (laid : Laid s) {E : Halt → Prop}
include laid

omit laid in
theorem onDisk_logWrite (b : Nat) (data : Block) :
    OnDisk (· = b) s { s with disk := diskWrite s.disk (b, buffer data), logged := s.logged ++ [b] } := by
  refine ⟨⟨rfl, rfl, rfl, rfl⟩, rfl, fun c mem => ?_⟩
  rwa [List.mem_append, List.mem_singleton] at mem

theorem wp_logWrite_data (past : dataStart s.sb ≤ b) (block : Block) :
    wp (logWrite b block) (fun _ t => OnDisk (· = b) s t ∧
      region t = { region s with data := update (region s).data b (buffer block) }) E s := by
  unfold logWrite
  rw [wp_modify]
  exact ⟨onDisk_logWrite _ _, parts_data laid.ordered s.disk past (buffer block)⟩

theorem wp_logWrite_bit (inside : b < s.sb.size) {block : Block} {v : Bool}
    (bits : ∀ bi < bpb, testBit block bi =
      if bi = b % bpb then v else testBit (s.disk (bblock s.sb b)) bi) :
    wp (logWrite (bblock s.sb b) block) (fun _ t => OnDisk (· = bblock s.sb b) s t ∧
      region t = { region s with bit := update (region s).bit b v }) E s := by
  unfold logWrite
  rw [wp_modify]
  exact ⟨onDisk_logWrite _ _, parts_bit laid.ordered s.disk inside bits⟩

theorem wp_iupdate {ip : Nat} (inside : (s.inode ip).inum < s.sb.ninodes)
    (fits : (s.inode ip).din.Fits) :
    wp (iupdate ip) (fun _ t => OnDisk (· = iblock s.sb (s.inode ip).inum) s t ∧
      region t = { region s with
        dino := update (region s).dino (s.inode ip).inum (s.inode ip).din }) E s := by
  unfold iupdate bread logWrite
  simp only [wp_bind, wp_get, wp_pure, wp_modify]
  exact ⟨onDisk_logWrite _ _, parts_dino laid.ordered s.disk inside fits⟩

theorem wp_bfree (inside : b < s.sb.size) (used : (region s).bit b = true) :
    wp (bfree b) (fun _ t => OnDisk (· = bblock s.sb b) s t ∧
      region t = { region s with bit := update (region s).bit b false }) E s := by
  have same : { s with sb := getSb (s.disk 1) } = s := by
    rw [show getSb (s.disk 1) = s.sb from laid.super]
  have test : testBit (s.disk (bblock s.sb b)) (b % bpb) = true := by
    have used : (decide (b < s.sb.size) && testBit (s.disk (bblock s.sb b)) (b % bpb)) = true := used
    exact (Bool.and_eq_true_iff.mp used).2
  unfold bfree readsb bread
  simp only [wp_bind, wp_get, wp_pure, wp_modify]
  rw [same, show getSb (s.disk 1) = s.sb from laid.super, if_pos test]
  apply wp_logWrite_bit laid inside
  intro bi _
  rw [testBit_clearBit]
  split
  · rename_i here
    rw [decide_eq_true here]
    rfl
  · rename_i here
    rw [decide_eq_false here, Bool.not_false, Bool.true_and]

omit laid in
theorem scanBits_some {data : Block} {size bi n found : Nat}
    (result : scanBits data b size bi n = some found) :
    bi ≤ found ∧ found < bi + n ∧ b + found < size ∧ testBit data found = false ∧
      ∀ j, bi ≤ j → j < found → testBit data j = true := by
  induction n generalizing bi with
  | zero => cases result
  | succ n ih =>
    unfold scanBits at result
    split at result
    · rename_i inside
      split at result
      · rename_i used
        obtain ⟨after, before, inside, clear, least⟩ := ih result
        refine ⟨by omega, by omega, inside, clear, fun j lo below => ?_⟩
        by_cases here : j = bi
        · rw [here, used]
        · exact least j (by omega) below
      · rename_i clear
        obtain rfl := Option.some.inj result
        exact ⟨Nat.le_refl _, by omega, inside, Bool.eq_false_iff.mpr clear,
          fun j lo below => absurd below (Nat.not_lt.mpr lo)⟩
    · cases result

omit laid in
theorem scanBits_none {data : Block} {size bi n : Nat} (result : scanBits data b size bi n = none)
    {j : Nat} (after : bi ≤ j) (before : j < bi + n) (inside : b + j < size) :
    testBit data j = true := by
  induction n generalizing bi with
  | zero => omega
  | succ n ih =>
    unfold scanBits at result
    rw [if_pos (by omega)] at result
    split at result
    · rename_i used
      by_cases here : j = bi
      · rw [here, used]
      · exact ih result (by omega) (by omega)
    · cases result

/-- A block `balloc` may return: no block of the file system, and not in use. -/
structure Free (s : Fs) (b : Nat) : Prop where
  past : dataStart s.sb ≤ b
  inside : b < s.sb.size
  clear : (region s).bit b = false

omit laid in
theorem Free.nonzero {s : Fs} (free : Free s b) : b ≠ 0 :=
  Nat.ne_of_gt (Nat.lt_of_lt_of_le (dataStart_pos s.sb) free.past)

/-- The blocks before the data are marked used. -/
def Reserved (s : Fs) : Prop := ∀ b < dataStart s.sb, b < s.sb.size → (region s).bit b = true

/-- The state after `balloc` returned `b`. -/
structure Taken (s t : Fs) (b : Nat) : Prop extends Free s b,
    OnDisk (fun c => c = bblock s.sb b ∨ c = b) s t where
  region : region t = { Regions.region s with
    bit := update (Regions.region s).bit b true
    data := update (Regions.region s).data b zeroBlock }

/-- The bit of `b` in the free map. -/
def inUse (s : Fs) (b : Nat) : Bool := testBit (s.disk (bblock s.sb b)) (b % bpb)

/-- `b` is the first block that is not in use. -/
structure First (s : Fs) (b : Nat) : Prop where
  inside : b < s.sb.size
  clear : inUse s b = false
  least : ∀ c < b, inUse s c = true

/-- The two stores of `balloc` for block `b`: its bit, then its contents. -/
def marking (b : Nat) : FsM Unit := do
  let s ← get
  logWrite (bblock s.sb b) (setBit (s.disk (bblock s.sb b)) (b % bpb))
  bzero b

omit laid in
/-- From an aligned `b` on, with enough turns to get to the end. -/
theorem wp_ballocFrom (b n : Nat) (aligned : b % bpb = 0) (turns : s.sb.size ≤ b + n * bpb)
    (before : ∀ c < b, c < s.sb.size → inUse s c = true) {Q : Nat → Fs → Prop}
    (first : ∀ found, First s found → wp (marking found) (fun _ t => Q found t) E s)
    (full : (∀ c < s.sb.size, inUse s c = true) → E .ballocOutOfBlocks) :
    wp (ballocFrom b n) Q E s := by
  induction n generalizing b with
  | zero => exact wp_fail (full fun c inside => before c (by omega) inside)
  | succ n ih =>
    unfold ballocFrom
    rw [wp_read]
    split
    · rw [wp_bind, wp_bread]
      have bit {bi : Nat} (inBlock : bi < bpb) :
          inUse s (b + bi) = testBit (s.disk (bblock s.sb b)) bi := by
        unfold inUse bblock
        simp only [show bpb = 4096 from rfl] at aligned inBlock ⊢
        rw [show (b + bi) / 4096 = b / 4096 by omega, show (b + bi) % 4096 = bi by omega]
      split
      · rename_i bi found
        obtain ⟨-, inBlock, inside, clear, least⟩ := scanBits_some found
        rw [Nat.zero_add] at inBlock
        have spec := first (b + bi) ⟨inside, (bit inBlock).trans clear, fun c below => by
          by_cases earlier : c < b
          · exact before c earlier (by omega)
          · obtain ⟨j, rfl⟩ : ∃ j, c = b + j := ⟨c - b, by omega⟩
            exact (bit (by omega)).trans (least j (Nat.zero_le j) (by omega))⟩
        have place : bblock s.sb (b + bi) = bblock s.sb b ∧ (b + bi) % bpb = bi := by
          unfold bblock
          simp only [show bpb = 4096 from rfl] at aligned inBlock ⊢
          omega
        unfold marking at spec
        simp only [wp_bind, wp_get, wp_pure, place.1, place.2] at spec ⊢
        exact spec
      · rename_i none
        apply ih
        · rw [Nat.add_mod_right, aligned]
        · rw [Nat.succ_mul] at turns
          omega
        · intro c below inside
          by_cases earlier : c < b
          · exact before c earlier inside
          · obtain ⟨bi, rfl⟩ : ∃ bi, c = b + bi := ⟨c - b, by omega⟩
            have inBlock : bi < bpb := by omega
            exact (bit inBlock).trans (scanBits_none none (Nat.zero_le bi) (by omega) inside)
    · exact wp_fail (full fun c inside => before c (by omega) inside)

omit laid in
/-- `balloc` marks the first free block, or there is none. -/
theorem wp_balloc_first {Q : Nat → Fs → Prop}
    (first : ∀ b, First s b → wp (marking b) (fun _ t => Q b t) E s)
    (full : (∀ c < s.sb.size, inUse s c = true) → E .ballocOutOfBlocks) : wp balloc Q E s := by
  unfold balloc
  rw [wp_read]
  refine wp_ballocFrom 0 _ rfl ?_ (fun c below => absurd below (Nat.not_lt_zero c)) first full
  have := Nat.div_add_mod s.sb.size bpb
  have := Nat.mod_lt s.sb.size (show 0 < bpb by decide)
  rw [Nat.add_mul, Nat.mul_comm]
  omega

/-- The blocks that are not in use. -/
def freeBlocks (s : Fs) : Finset Nat := (Finset.range s.sb.size).filter fun b => (region s).bit b = false

/-- `balloc` marks a free block and zeroes it, or there is none. -/
theorem wp_balloc (reserved : Reserved s) (full : freeBlocks s = ∅ → E .ballocOutOfBlocks) :
    wp balloc (fun b t => Taken s t b) E s := by
  apply wp_balloc_first
  · intro b first
    have unused : (region s).bit b = false := by
      change (decide _ && inUse s b) = false
      rw [first.clear, Bool.and_false]
    have past : dataStart s.sb ≤ b := by
      by_contra below
      rw [reserved _ (by omega) first.inside] at unused
      cases unused
    unfold marking
    rw [wp_read]
    apply wp_seq (wp_logWrite_bit laid first.inside (v := true) ?_)
    · rintro _ t ⟨same, marked⟩
      have laid' : Laid t := laid.congr same.sb (by rw [marked])
      apply wp_mono (wp_logWrite_data laid' (same.sb ▸ past) zeroBlock)
      rintro _ u ⟨last, zeroed⟩
      refine ⟨⟨past, first.inside, unused⟩, same.trans last (fun _ => .inl) (fun _ => .inr), ?_⟩
      rw [zeroed, marked, buffer_zeroBlock]
    · intro other _
      rw [testBit_setBit]
      split
      · rename_i here
        rw [decide_eq_true here, Bool.true_or]
      · rename_i here
        rw [decide_eq_false here, Bool.false_or]
  · intro used
    refine full (Finset.filter_eq_empty_iff.mpr fun b inside => ?_)
    have inside := Finset.mem_range.mp inside
    change ¬ (decide _ && inUse s b) = false
    rw [used b inside, decide_eq_true inside]
    exact Bool.noConfusion

omit laid in
theorem Free.card_freeBlocks {t : Fs} (free : Free s b) (sb : t.sb = s.sb)
    (bit : (region t).bit = update (region s).bit b true) :
    (freeBlocks t).card + 1 = (freeBlocks s).card := by
  have gone : freeBlocks t = (freeBlocks s).erase b := by
    ext c
    simp only [freeBlocks, Finset.mem_filter, Finset.mem_range, Finset.mem_erase, sb, bit, update_apply]
    by_cases here : c = b
    · simp only [here, if_true, Bool.true_eq_false, and_false, ne_eq, not_true_eq_false, false_and]
    · simp only [here, if_false, ne_eq, not_false_eq_true, true_and]
  rw [gone, Finset.card_erase_add_one]
  exact Finset.mem_filter.mpr ⟨Finset.mem_range.mpr free.inside, free.clear⟩

end Primitives

end ColorXv6.Fs.Regions
