import ColorXv6.Logging.Commit

/-!
The on-disk format of fs.h: superblock, inodes, free-block bits, block numbers
and directory entries as fields of 512-byte blocks.
-/
namespace ColorXv6.Fs.Layout
open Lib.LittleEndian Param Logging.Commit

def rootIno : Nat := 1
def ndirect : Nat := 12
def nindirect : Nat := bsize / 4
def maxFile : Nat := ndirect + nindirect
def dinodeSize : Nat := 64
/-- Inodes per block. -/
def ipb : Nat := bsize / dinodeSize
/-- Bitmap bits per block. -/
def bpb : Nat := bsize * 8
def dirSiz : Nat := 14
def direntSize : Nat := 16

def tDir : Int := 1
def tFile : Int := 2
def tDev : Int := 3

structure Superblock where
  size : Nat
  nblocks : Nat
  ninodes : Nat
  nlog : Nat
  logstart : Nat
  inodestart : Nat
  bmapstart : Nat
deriving DecidableEq

def getSb (b : Block) : Superblock where
  size := getLE b 0 4
  nblocks := getLE b 4 4
  ninodes := getLE b 8 4
  nlog := getLE b 12 4
  logstart := getLE b 16 4
  inodestart := getLE b 20 4
  bmapstart := getLE b 24 4

/-- Block containing inode `i`. -/
def iblock (sb : Superblock) (i : Nat) : Nat := i / ipb + sb.inodestart

/-- Block of the free map containing the bit of block `b`. -/
def bblock (sb : Superblock) (b : Nat) : Nat := b / bpb + sb.bmapstart

/-- The value of a `short` with these 16 bits. -/
def short (n : Nat) : Int := if n % 2 ^ 16 < 2 ^ 15 then (n % 2 ^ 16 : Nat) else (n % 2 ^ 16 : Nat) - 2 ^ 16

/-- The 16 bits of a `short`. -/
def shortBits (x : Int) : Nat := (x % 2 ^ 16).toNat

/-- Conversion of an `int` to `short`. -/
def toShort (x : Int) : Int := short (shortBits x)

/-- struct dinode, and the part of struct inode that copies it. -/
structure Dinode where
  type : Int := 0
  major : Int := 0
  minor : Int := 0
  nlink : Int := 0
  size : Nat := 0
  addrs : Fin (ndirect + 1) → Nat := fun _ => 0

/-- The fields have the values their C types can hold. -/
structure Dinode.Fits (d : Dinode) : Prop where
  type : -2 ^ 15 ≤ d.type ∧ d.type < 2 ^ 15
  major : -2 ^ 15 ≤ d.major ∧ d.major < 2 ^ 15
  minor : -2 ^ 15 ≤ d.minor ∧ d.minor < 2 ^ 15
  nlink : -2 ^ 15 ≤ d.nlink ∧ d.nlink < 2 ^ 15
  size : d.size < 2 ^ 32
  addrs : ∀ j, d.addrs j < 2 ^ 32

def getDinode (b : Block) (off : Nat) : Dinode where
  type := short (getLE b off 2)
  major := short (getLE b (off + 2) 2)
  minor := short (getLE b (off + 4) 2)
  nlink := short (getLE b (off + 6) 2)
  size := getLE b (off + 8) 4
  addrs := fun j => getLE b (off + 12 + 4 * j.val) 4

/-- Word `j` of the address array. -/
def Dinode.word (d : Dinode) (j : Nat) : Nat := if h : j < ndirect + 1 then d.addrs ⟨j, h⟩ else 0

/-- The address array with word `n` replaced. -/
def Dinode.setAddr (d : Dinode) (n addr : Nat) : Dinode :=
  { d with addrs := fun j => if j.val = n then addr else d.addrs j }

def putDinode (b : Block) (off : Nat) (d : Dinode) : Block :=
  putWords
    (putLE (putLE (putLE (putLE (putLE b off 2 (shortBits d.type)) (off + 2) 2 (shortBits d.major))
      (off + 4) 2 (shortBits d.minor)) (off + 6) 2 (shortBits d.nlink)) (off + 8) 4 d.size)
    (off + 12) d.word (ndirect + 1)

/-- Where inode `i` starts in its block. -/
def inodeOff (i : Nat) : Nat := i % ipb * dinodeSize

def testBit (b : Block) (bi : Nat) : Bool := (b (bi / 8)).toNat.testBit (bi % 8)

def setBit (b : Block) (bi : Nat) : Block := fun k =>
  if k = bi / 8 then UInt8.ofNat ((b k).toNat ||| 2 ^ (bi % 8)) else b k

def clearBit (b : Block) (bi : Nat) : Block := fun k =>
  if k = bi / 8 then UInt8.ofNat ((b k).toNat &&& (255 - 2 ^ (bi % 8))) else b k

/-- Entry `j` of a block of block numbers. -/
def getAddr (b : Block) (j : Nat) : Nat := getLE b (4 * j) 4

def putAddr (b : Block) (j addr : Nat) : Block := putLE b (4 * j) 4 addr

def zeroBlock : Block := fun _ => 0

/-- The block whose bytes are the digits of a number. -/
def unpack (bits : Nat) : Block := fun k => UInt8.ofNat (bits / 256 ^ k)

/-- What a buffer of BSIZE bytes holds when these bytes are stored in it; kept as a number, so
that the bytes of a stored block are evaluated once. -/
@[inline] def buffer (b : Bytes) : Block := unpack (getLE b 0 bsize)

/-! struct dirent: a 16-bit inode number and the bytes of the name. -/

def direntInum (de : Bytes) : Nat := getLE de 0 2

def direntName (de : Bytes) : Bytes := fun k => de (2 + k)

def strncmpFrom (p q : Bytes) (i : Nat) : Nat → Int
  | 0 => 0
  | n + 1 =>
    if p i ≠ 0 ∧ p i = q i then strncmpFrom p q (i + 1) n else (p i).toNat - (q i).toNat

def strncmp (p q : Bytes) (n : Nat) : Int := strncmpFrom p q 0 n

def namecmp (s t : Bytes) : Int := strncmp s t dirSiz

/-- Byte `k` of what `strncpy` stores for the string `t`. -/
def strncpy (t : Bytes) : Bytes := fun k => if (List.range k).all (fun j => t j ≠ 0) then t k else 0

/-- The entry `dirlink` writes. -/
def makeDirent (name : Bytes) (inum : Nat) : Bytes :=
  putLE (fun k => if 2 ≤ k ∧ k < 2 + dirSiz then strncpy name (k - 2) else 0) 0 2 inum

/-! Reading a field after writing it, and after writing another one. -/

theorem short_range (n : Nat) : -2 ^ 15 ≤ short n ∧ short n < 2 ^ 15 := by
  unfold short
  split <;> omega

theorem short_shortBits {x : Int} (range : -2 ^ 15 ≤ x ∧ x < 2 ^ 15) : short (shortBits x) = x := by
  unfold short shortBits
  split <;> omega

theorem shortBits_lt (x : Int) : shortBits x < 256 ^ 2 := by
  unfold shortBits
  omega

theorem getDinode_fits (b : Block) (off : Nat) : (getDinode b off).Fits where
  type := short_range _
  major := short_range _
  minor := short_range _
  nlink := short_range _
  size := getLE_lt b (off + 8) 4
  addrs := fun j => getLE_lt b (off + 12 + 4 * j.val) 4

theorem getDinode_putDinode (b : Block) (off : Nat) {d : Dinode} (fits : d.Fits) :
    getDinode (putDinode b off d) off = d := by
  -- a field of two bytes is below every later store
  have field : ∀ (c : Block) (o : Nat) {x : Int}, (-2 ^ 15 ≤ x ∧ x < 2 ^ 15) →
      short (getLE (putLE c o 2 (shortBits x)) o 2) = x := by
    intro c o x range
    rw [getLE_putLE_of_lt _ _ _ _ (shortBits_lt x), short_shortBits range]
  unfold getDinode putDinode
  congr 1
  · rw [getLE_putWords_disjoint _ _ _ _ _ _ (by omega), getLE_putLE_disjoint _ _ _ _ _ _ (by omega),
      getLE_putLE_disjoint _ _ _ _ _ _ (by omega), getLE_putLE_disjoint _ _ _ _ _ _ (by omega),
      getLE_putLE_disjoint _ _ _ _ _ _ (by omega), field _ _ fits.type]
  · rw [getLE_putWords_disjoint _ _ _ _ _ _ (by omega), getLE_putLE_disjoint _ _ _ _ _ _ (by omega),
      getLE_putLE_disjoint _ _ _ _ _ _ (by omega), getLE_putLE_disjoint _ _ _ _ _ _ (by omega),
      field _ _ fits.major]
  · rw [getLE_putWords_disjoint _ _ _ _ _ _ (by omega), getLE_putLE_disjoint _ _ _ _ _ _ (by omega),
      getLE_putLE_disjoint _ _ _ _ _ _ (by omega), field _ _ fits.minor]
  · rw [getLE_putWords_disjoint _ _ _ _ _ _ (by omega), getLE_putLE_disjoint _ _ _ _ _ _ (by omega),
      field _ _ fits.nlink]
  · rw [getLE_putWords_disjoint _ _ _ _ _ _ (by omega), getLE_putLE_of_lt _ _ _ _ fits.size]
  · funext j
    have word : d.word j = d.addrs j := by
      unfold Dinode.word
      rw [dif_pos j.isLt]
    rw [getLE_putWords _ _ _ _ _ j.isLt, word, Nat.mod_eq_of_lt (fits.addrs j)]

theorem putDinode_outside (b : Block) (off : Nat) (d : Dinode) {k : Nat}
    (outside : k < off ∨ off + dinodeSize ≤ k) : putDinode b off d k = b k := by
  unfold dinodeSize at outside
  unfold putDinode ndirect
  rw [putWords_outside _ _ _ _ _ (by omega), putLE_outside _ _ _ _ _ (by omega),
    putLE_outside _ _ _ _ _ (by omega), putLE_outside _ _ _ _ _ (by omega),
    putLE_outside _ _ _ _ _ (by omega), putLE_outside _ _ _ _ _ (by omega)]

/-- An inode read is determined by its own 64 bytes. -/
theorem getDinode_congr {b c : Block} {off : Nat}
    (same : ∀ k, off ≤ k → k < off + dinodeSize → b k = c k) : getDinode b off = getDinode c off := by
  unfold dinodeSize at same
  unfold getDinode
  congr 1
  case e_addrs =>
    funext j
    have inside := j.isLt
    unfold ndirect at inside
    exact getLE_congr _ _ _ _ fun k lo hi => same k (by omega) (by omega)
  case e_size => exact getLE_congr _ _ _ _ fun k lo hi => same k (by omega) (by omega)
  all_goals
    exact congrArg short (getLE_congr _ _ _ _ fun k lo hi => same k (by omega) (by omega))

theorem getDinode_putDinode_other (b : Block) {off other : Nat} (d : Dinode)
    (apart : other + dinodeSize ≤ off ∨ off + dinodeSize ≤ other) :
    getDinode (putDinode b off d) other = getDinode b other :=
  getDinode_congr fun _ lo hi => putDinode_outside b off d (by omega)

/-- Two inodes of one block have disjoint fields. -/
theorem inodeOff_apart {i j : Nat} (block : i / ipb = j / ipb) (different : i ≠ j) :
    inodeOff i + dinodeSize ≤ inodeOff j ∨ inodeOff j + dinodeSize ≤ inodeOff i := by
  unfold inodeOff
  simp only [show ipb = 8 from rfl, show dinodeSize = 64 from rfl] at block ⊢
  omega

theorem testBit_setBit (b : Block) (bi other : Nat) :
    testBit (setBit b bi) other = (decide (other = bi) || testBit b other) := by
  unfold testBit setBit
  by_cases byte : other / 8 = bi / 8
  · have small := (b (bi / 8)).toNat_lt
    have mask : 2 ^ (bi % 8) < 2 ^ 8 := Nat.pow_lt_pow_right (by decide) (by omega)
    have fits : (b (bi / 8)).toNat ||| 2 ^ (bi % 8) < 2 ^ 8 := Nat.or_lt_two_pow small mask
    rw [if_pos byte, byte, UInt8.toNat_ofNat_of_lt' fits, Nat.testBit_or, Nat.testBit_two_pow,
      Bool.or_comm]
    congr 1
    exact decide_eq_decide.mpr ⟨fun same => by omega, fun same => by omega⟩
  · rw [if_neg byte, decide_eq_false (by omega : ¬ other = bi), Bool.false_or]

theorem testBit_clearBit (b : Block) (bi other : Nat) :
    testBit (clearBit b bi) other = (!decide (other = bi) && testBit b other) := by
  unfold testBit clearBit
  by_cases byte : other / 8 = bi / 8
  · have small := (b (bi / 8)).toNat_lt
    have mask : 2 ^ (bi % 8) < 2 ^ 8 := Nat.pow_lt_pow_right (by decide) (by omega)
    have fits : (b (bi / 8)).toNat &&& (255 - 2 ^ (bi % 8)) < 2 ^ 8 :=
      Nat.lt_of_le_of_lt Nat.and_le_left small
    have complement : 255 - 2 ^ (bi % 8) = 2 ^ 8 - (2 ^ (bi % 8) + 1) := by omega
    rw [if_pos byte, byte, UInt8.toNat_ofNat_of_lt' fits, Nat.testBit_and, complement,
      Nat.testBit_two_pow_sub_succ mask, Nat.testBit_two_pow, Bool.and_comm,
      decide_eq_true (by omega : other % 8 < 8), Bool.true_and]
    congr 2
    exact decide_eq_decide.mpr ⟨fun same => by omega, fun same => by omega⟩
  · rw [if_neg byte, decide_eq_false (by omega : ¬ other = bi), Bool.not_false, Bool.true_and]

theorem getAddr_putAddr (b : Block) (j : Nat) {addr other : Nat} (small : addr < 2 ^ 32) :
    getAddr (putAddr b j addr) other = if other = j then addr else getAddr b other := by
  unfold getAddr putAddr
  by_cases same : other = j
  · rw [if_pos same, same, getLE_putLE_of_lt _ _ _ _ small]
  · rw [if_neg same, getLE_putLE_disjoint _ _ _ _ _ _ (by omega)]

theorem buffer_apply (b : Bytes) (k : Nat) : buffer b k = if k < bsize then b k else 0 := by
  unfold buffer unpack
  split
  · rename_i inside
    apply UInt8.toNat_inj.mp
    rw [UInt8.toNat_ofNat', getLE_digit b 0 inside, Nat.zero_add]
  · rename_i outside
    have small := getLE_lt b 0 bsize
    have below : getLE b 0 bsize < 256 ^ k :=
      Nat.lt_of_lt_of_le small (Nat.pow_le_pow_right (by decide) (by omega))
    rw [Nat.div_eq_of_lt below]
    rfl

theorem getAddr_zeroBlock (j : Nat) : getAddr zeroBlock j = 0 := rfl

/-! Names: only the bytes before a NUL, and at most 14 of them, count. -/

/-- The string of at most `n` bytes at `i`. -/
def nameFrom (b : Bytes) (i : Nat) : Nat → List UInt8
  | 0 => []
  | n + 1 => if b i = 0 then [] else b i :: nameFrom b (i + 1) n

def nameOf (b : Bytes) : List UInt8 := nameFrom b 0 dirSiz

theorem strncmpFrom_eq_zero (p q : Bytes) (i n : Nat) :
    strncmpFrom p q i n = 0 ↔ nameFrom p i n = nameFrom q i n := by
  induction n generalizing i with
  | zero => simp [strncmpFrom, nameFrom]
  | succ n ih =>
    unfold strncmpFrom nameFrom
    by_cases same : p i = q i
    · by_cases nul : p i = 0
      · rw [if_neg (by simp [nul]), if_pos nul, if_pos (same ▸ nul), same]
        simp
      · rw [if_pos ⟨nul, same⟩, if_neg nul, if_neg (same ▸ nul), ih, same]
        simp
    · have values : ((p i).toNat : Int) - (q i).toNat ≠ 0 := by
        intro equal
        exact same (UInt8.toNat_inj.mp (by omega))
      rw [if_neg (by simp [same])]
      refine iff_of_false values ?_
      by_cases left : p i = 0
      · have right : q i ≠ 0 := fun zero => same (left.trans zero.symm)
        simp [left, right]
      · by_cases right : q i = 0
        · simp [left, right]
        · simp [left, right, same]

/-- `namecmp` compares names. -/
theorem namecmp_eq_zero (s t : Bytes) : namecmp s t = 0 ↔ nameOf s = nameOf t :=
  strncmpFrom_eq_zero s t 0 dirSiz

theorem nameFrom_congr {b c : Bytes} {i n : Nat} (same : ∀ k, i ≤ k → k < i + n → b k = c k) :
    nameFrom b i n = nameFrom c i n := by
  induction n generalizing i with
  | zero => rfl
  | succ n ih =>
    unfold nameFrom
    rw [same i (Nat.le_refl i) (by omega), ih fun k lo hi => same k (by omega) (by omega)]

/-- The name in an array that holds the bytes of `s`. -/
theorem nameFrom_getD {s : List UInt8} (terminated : 0 ∉ s) (i n : Nat) :
    nameFrom (fun k => s.getD k 0) i n = (s.drop i).take n := by
  induction n generalizing i with
  | zero => rfl
  | succ n ih =>
    rw [nameFrom, ih, List.getD_eq_getElem?_getD]
    by_cases inside : i < s.length
    · rw [List.getElem?_eq_getElem inside, Option.getD_some, List.drop_eq_getElem_cons inside,
        List.take_succ_cons, if_neg]
      exact fun nul => terminated (nul ▸ List.getElem_mem inside)
    · rw [List.getElem?_eq_none (by omega), Option.getD_none, if_pos rfl,
        List.drop_eq_nil_of_le (by omega), List.take_nil]

/-- `strncpy` keeps the name. -/
theorem nameFrom_strncpy (t : Bytes) (i n : Nat) (whole : ∀ j < i, t j ≠ 0) :
    nameFrom (strncpy t) i n = nameFrom t i n := by
  induction n generalizing i with
  | zero => rfl
  | succ n ih =>
    have copied : strncpy t i = t i := by
      unfold strncpy
      rw [if_pos (by simpa using whole)]
    unfold nameFrom
    rw [copied]
    by_cases nul : t i = 0
    · rw [if_pos nul, if_pos nul]
    · rw [if_neg nul, if_neg nul, ih (i + 1) ?_]
      intro j below
      by_cases last : j = i
      · rw [last]
        exact nul
      · exact whole j (by omega)

theorem direntInum_makeDirent (name : Bytes) {inum : Nat} (small : inum < 2 ^ 16) :
    direntInum (makeDirent name inum) = inum :=
  getLE_putLE_of_lt _ _ _ _ small

theorem nameOf_makeDirent (name : Bytes) (inum : Nat) :
    nameOf (direntName (makeDirent name inum)) = nameOf name := by
  unfold nameOf
  rw [← nameFrom_strncpy name 0 dirSiz (by simp)]
  apply nameFrom_congr
  intro k _ below
  unfold direntName makeDirent
  rw [putLE_outside _ _ _ _ _ (by omega), if_pos (by omega), Nat.add_sub_cancel_left]

end ColorXv6.Fs.Layout
