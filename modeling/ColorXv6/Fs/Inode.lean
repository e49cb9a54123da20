import ColorXv6.Fs.Layout
import ColorXv6.Lib.Slots
import ColorXv6.Lib.Wp

/-!
fs.c up to the contents of inodes. A system call runs to its end before the next
one starts; the disk is the one seen through the buffer cache, where the changes
of a transaction are visible at once. A sleep-lock that its only contender already
holds is a deadlock. There is one device, so its number is left out.
-/
namespace ColorXv6.Fs.Inode
open Lib.LittleEndian Lib.Slots Lib.Wp Param Logging.Commit Layout

/-- How a system call can stop the kernel: the panics of fs.c, file.c and sysfile.c, and what
C leaves undefined. -/
inductive Halt where
  | ballocOutOfBlocks
  | freeingFreeBlock
  | iallocNoInodes
  | igetNoInodes
  | ilock
  | ilockNoType
  | iunlock
  | bmapOutOfRange
  | dirlookupNotDir
  | dirlookupRead
  | dirlinkRead
  | dirlink
  | isdiremptyReadi
  | unlinkNlink
  | unlinkWritei
  | createDots
  | createDirlink
  | filedup
  | fileclose
  | fileread
  | filewrite
  | shortFilewrite
  | deadlock
  | nullPointer
  | outOfBounds
  | endless
deriving DecidableEq, Repr

/-- struct inode: `din` is the copy of the disk inode. -/
structure Inode where
  inum : Nat := 0
  ref : Int := 0
  locked : Bool := false
  valid : Bool := false
  din : Dinode := {}

inductive FdType where
  | none
  | inode
deriving DecidableEq, Repr

/-- struct file, for files that are not pipes. -/
structure File where
  type : FdType := .none
  ref : Int := 0
  readable : Bool := false
  writable : Bool := false
  ip : Nat := 0
  off : Nat := 0

/-- What a process has of the file system. -/
structure Proc where
  live : Bool := false
  cwd : Option Nat := none
  ofile : Nat → Option Nat := fun _ => none

structure Fs where
  disk : Disk
  sb : Superblock
  inode : Nat → Inode
  file : Nat → File
  proc : Nat → Proc
  /-- What the console driver answers to a request for `n` bytes. -/
  console : Nat → Int × Bytes
  /-- The blocks given to `log_write` in the current transaction, oldest first. -/
  logged : List Nat

abbrev FsM (α : Type) := Prog Fs Halt α

def bread (b : Nat) : FsM Block := do
  let s ← get
  return s.disk b

/-- Store a modified buffer and `log_write` it. -/
def logWrite (b : Nat) (data : Block) : FsM Unit :=
  modify fun s => { s with disk := diskWrite s.disk (b, buffer data), logged := s.logged ++ [b] }

def readsb : FsM Unit := do
  let data ← bread 1
  modify fun s => { s with sb := getSb data }

def bzero (bno : Nat) : FsM Unit := logWrite bno zeroBlock

/-- The inner loop of `balloc`: the first clear bit of a bitmap block, from bit `bi` on. -/
def scanBits (data : Block) (b size bi : Nat) : Nat → Option Nat
  | 0 => none
  | n + 1 =>
    if b + bi < size then
      if testBit data bi then scanBits data b size (bi + 1) n else some bi
    else none

/-- The outer loop of `balloc`, at the bitmap block of `b`. -/
def ballocFrom (b : Nat) : Nat → FsM Nat
  | 0 => throw .ballocOutOfBlocks
  | n + 1 => do
    let s ← get
    if b < s.sb.size then
      let data ← bread (bblock s.sb b)
      match scanBits data b s.sb.size 0 bpb with
      | some bi =>
        logWrite (bblock s.sb b) (setBit data bi)
        bzero (b + bi)
        return b + bi
      | none => ballocFrom (b + bpb) n
    else
      throw .ballocOutOfBlocks

def balloc : FsM Nat := do
  let s ← get
  ballocFrom 0 (s.sb.size / bpb + 1)

def bfree (b : Nat) : FsM Unit := do
  readsb
  let s ← get
  let data ← bread (bblock s.sb b)
  if testBit data (b % bpb) then
    logWrite (bblock s.sb b) (clearBit data (b % bpb))
  else
    throw .freeingFreeBlock

/-! Inodes -/

def modifyInode (ip : Nat) (f : Inode → Inode) : FsM Unit :=
  modify fun s => { s with inode := fun k => if k = ip then f (s.inode k) else s.inode k }

def modifyDin (ip : Nat) (f : Dinode → Dinode) : FsM Unit :=
  modifyInode ip fun i => { i with din := f i.din }

def acquiresleep (ip : Nat) : FsM Unit := do
  let s ← get
  if (s.inode ip).locked then
    throw .deadlock
  else
    modifyInode ip fun i => { i with locked := true }

def releasesleep (ip : Nat) : FsM Unit := modifyInode ip fun i => { i with locked := false }

def iupdate (ip : Nat) : FsM Unit := do
  let s ← get
  let i := s.inode ip
  let data ← bread (iblock s.sb i.inum)
  logWrite (iblock s.sb i.inum) (putDinode data (inodeOff i.inum) i.din)

def iget (inum : Nat) : FsM Nat := do
  let s ← get
  match firstSlot ninode fun k => 0 < (s.inode k).ref ∧ (s.inode k).inum = inum with
  | some ip =>
    modifyInode ip fun i => { i with ref := i.ref + 1 }
    return ip
  | none =>
    match firstSlot ninode fun k => (s.inode k).ref = 0 with
    | none => throw .igetNoInodes
    | some empty =>
      modifyInode empty fun i => { i with inum, ref := 1, valid := false }
      return empty

def idup (ip : Nat) : FsM Nat := do
  modifyInode ip fun i => { i with ref := i.ref + 1 }
  return ip

/-- The loop of `ialloc`, at `inum`. -/
def iallocFrom (type : Int) (inum : Nat) : Nat → FsM Nat
  | 0 => throw .iallocNoInodes
  | n + 1 => do
    let s ← get
    if inum < s.sb.ninodes then
      let data ← bread (iblock s.sb inum)
      if (getDinode data (inodeOff inum)).type = 0 then
        logWrite (iblock s.sb inum) (putDinode data (inodeOff inum) { type })
        iget inum
      else
        iallocFrom type (inum + 1) n
    else
      throw .iallocNoInodes

def ialloc (type : Int) : FsM Nat := do
  let s ← get
  iallocFrom type 1 s.sb.ninodes

def ilock (ip : Nat) : FsM Unit := do
  let s ← get
  if (s.inode ip).ref < 1 then
    throw .ilock
  else
    acquiresleep ip
    if (s.inode ip).valid then
      return ()
    else
      let data ← bread (iblock s.sb (s.inode ip).inum)
      let din := getDinode data (inodeOff (s.inode ip).inum)
      modifyInode ip fun i => { i with din, valid := true }
      if din.type = 0 then
        throw .ilockNoType
      else
        return ()

def iunlock (ip : Nat) : FsM Unit := do
  let s ← get
  if !(s.inode ip).locked ∨ (s.inode ip).ref < 1 then
    throw .iunlock
  else
    releasesleep ip

/-- `ip->addrs[n]`, allocated if there is none. -/
def mapAddr (ip n : Nat) : FsM Nat := do
  let s ← get
  let addr := (s.inode ip).din.word n
  if addr = 0 then
    let addr ← balloc
    modifyDin ip fun d => d.setAddr n addr
    return addr
  else
    return addr

def bmap (ip bn : Nat) : FsM Nat := do
  if bn < ndirect then
    mapAddr ip bn
  else if bn - ndirect < nindirect then
    let indirect ← mapAddr ip ndirect
    let a ← bread indirect
    if getAddr a (bn - ndirect) = 0 then
      let addr ← balloc
      logWrite indirect (putAddr a (bn - ndirect) addr)
      return addr
    else
      return getAddr a (bn - ndirect)
  else
    throw .bmapOutOfRange

/-- The first loop of `itrunc`, over the first `n` addresses. -/
def truncDirect (ip : Nat) : Nat → FsM Unit
  | 0 => return ()
  | n + 1 => do
    truncDirect ip n
    let s ← get
    let addr := (s.inode ip).din.word n
    if addr = 0 then
      return ()
    else
      bfree addr
      modifyDin ip fun d => d.setAddr n 0

/-- The second loop of `itrunc`, over the first `n` entries of the indirect block. -/
def truncIndirect (a : Block) : Nat → FsM Unit
  | 0 => return ()
  | n + 1 => do
    truncIndirect a n
    if getAddr a n = 0 then
      return ()
    else
      bfree (getAddr a n)

def itrunc (ip : Nat) : FsM Unit := do
  truncDirect ip ndirect
  let s ← get
  let indirect := (s.inode ip).din.word ndirect
  if indirect ≠ 0 then
    let a ← bread indirect
    truncIndirect a nindirect
    bfree indirect
    modifyDin ip fun d => d.setAddr ndirect 0
  modifyDin ip fun d => { d with size := 0 }
  iupdate ip

def iput (ip : Nat) : FsM Unit := do
  acquiresleep ip
  let s ← get
  let i := s.inode ip
  if i.valid ∧ i.din.nlink = 0 ∧ i.ref = 1 then
    itrunc ip
    modifyDin ip fun d => { d with type := 0 }
    iupdate ip
    modifyInode ip fun i => { i with valid := false }
  releasesleep ip
  modifyInode ip fun i => { i with ref := i.ref - 1 }

def iunlockput (ip : Nat) : FsM Unit := do
  iunlock ip
  iput ip

/-! Contents -/

/-- The major number of the only device with a driver. -/
def console : Int := 1

/-- Whether `devsw[major]` has the function that is about to be called. -/
def hasDriver (major : Int) : Bool := ¬(major < 0 ∨ major ≥ ndev) ∧ major = console

/-- Bytes moved by one iteration of `readi` or `writei`. -/
def chunk (off n tot : Nat) : Nat := min (n - tot) (bsize - off % bsize)

/-- The loop of `readi`; `dst` holds the first `tot` bytes. -/
def readBlocks (ip n : Nat) (off tot : Nat) (dst : Bytes) : Nat → FsM Bytes
  | 0 => throw .endless
  | fuel + 1 =>
    if tot < n then do
      let b ← bmap ip (off / bsize)
      let data ← bread b
      let m := chunk off n tot
      readBlocks ip n (off + m) (tot + m) (putBytes dst tot m fun k => data (off % bsize + k)) fuel
    else
      return dst

/-- Iterations that `n` bytes at any offset can take, and the final test. -/
def blockFuel (n : Nat) : Nat := n / bsize + 3

/-- The returned value and the bytes stored at the destination. -/
def readi (ip off n : Nat) : FsM (Int × Bytes) := do
  let s ← get
  let d := (s.inode ip).din
  if d.type = tDev then
    if hasDriver d.major then return s.console n else return (-1, zeroBlock)
  else if off > d.size ∨ (off + n) % 2 ^ 32 < off then
    return (-1, zeroBlock)
  else
    let n := if (off + n) % 2 ^ 32 > d.size then d.size - off else n
    let dst ← readBlocks ip n off 0 zeroBlock (blockFuel n)
    return (n, dst)

/-- The loop of `writei`; returns the offset after the last byte. -/
def writeBlocks (ip : Nat) (src : Bytes) (n off tot : Nat) : Nat → FsM Nat
  | 0 => throw .endless
  | fuel + 1 =>
    if tot < n then do
      let b ← bmap ip (off / bsize)
      let data ← bread b
      let m := chunk off n tot
      logWrite b (putBytes data (off % bsize) m fun k => src (tot + k))
      writeBlocks ip src n (off + m) (tot + m) fuel
    else
      return off

def writei (ip : Nat) (src : Bytes) (off n : Nat) : FsM Int := do
  let s ← get
  let d := (s.inode ip).din
  if d.type = tDev then
    -- consolewrite returns n
    if hasDriver d.major then return n else return -1
  else if off > d.size ∨ (off + n) % 2 ^ 32 < off then
    return -1
  else if (off + n) % 2 ^ 32 > maxFile * bsize then
    return -1
  else
    let off ← writeBlocks ip src n off 0 (blockFuel n)
    if n > 0 ∧ off > d.size then
      modifyDin ip fun d => { d with size := off }
      iupdate ip
    return n

/-- `stati`: inode number, type, links and size. -/
def stati (ip : Nat) : FsM (Nat × Int × Int × Nat) := do
  let s ← get
  let i := s.inode ip
  return (i.inum, i.din.type, i.din.nlink, i.din.size)

end ColorXv6.Fs.Inode
