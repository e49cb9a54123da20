import ColorXv6.Fs.Layout
import ColorXv6.Lib.Wp

/-!
mkfs.c: the program that builds a file-system image from host files. The image is a
file that a write past its end extends and a read past its end fails on. The host is
little-endian, so `xshort` and `xint` are the identity. A run that exits with an error
or a failed assertion is a stop.
-/
namespace ColorXv6.Fs.Mkfs
open Lib.LittleEndian Lib.Wp Param Logging.Commit Layout

def ninodes : Nat := 200
def nbitmap : Nat := fsSize / (bsize * 8) + 1
def ninodeblocks : Nat := ninodes / ipb + 1
def nlog : Nat := logSize
def nmeta : Nat := 2 + nlog + ninodeblocks + nbitmap

def sb : Superblock where
  size := fsSize
  nblocks := fsSize - nmeta
  ninodes := ninodes
  nlog := nlog
  logstart := 2
  inodestart := 2 + nlog
  bmapstart := 2 + nlog + ninodeblocks

/-- The bytes of struct superblock. -/
def putSb (sb : Superblock) : Bytes :=
  putLE (putLE (putLE (putLE (putLE (putLE (putLE zeroBlock 0 4 sb.size) 4 4 sb.nblocks)
    8 4 sb.ninodes) 12 4 sb.nlog) 16 4 sb.logstart) 20 4 sb.inodestart) 24 4 sb.bmapstart

/-- A host file: its base name, and what each `read` of it returns. -/
structure HostFile where
  name : List UInt8
  reads : List (List UInt8)
  fits : ∀ r ∈ reads, 0 < r.length ∧ r.length ≤ bsize

def HostFile.content (f : HostFile) : List UInt8 := f.reads.flatten

/-- Why mkfs stops. -/
inductive Fail where
  | read
  | fileTooBig
  | rootIno
  | bitmap
  | endless
deriving DecidableEq, Repr

/-- The image file, `len` blocks long, and the two counters. -/
structure Image where
  disk : Disk
  len : Nat
  freeinode : Nat
  freeblock : Nat

abbrev MkM (α : Type) := Prog Image Fail α

def wsect (sec : Nat) (buf : Block) : MkM Unit :=
  modify fun s =>
    { s with disk := diskWrite s.disk (sec, buffer buf), len := max s.len (sec + 1) }

def rsect (sec : Nat) : MkM Block := do
  let s ← get
  if sec < s.len then return s.disk sec else throw .read

def winode (inum : Nat) (ip : Dinode) : MkM Unit := do
  let buf ← rsect (iblock sb inum)
  wsect (iblock sb inum) (putDinode buf (inodeOff inum) ip)

def rinode (inum : Nat) : MkM Dinode := do
  let buf ← rsect (iblock sb inum)
  return getDinode buf (inodeOff inum)

def ialloc (type : Int) : MkM Nat := do
  let s ← get
  set { s with freeinode := s.freeinode + 1 }
  winode s.freeinode { type, nlink := 1 }
  return s.freeinode

/-- `freeblock++` -/
def nextBlock : MkM Nat := do
  let s ← get
  set { s with freeblock := s.freeblock + 1 }
  return s.freeblock

/-- The bitmap block with the bits of the first `used` blocks set. -/
def usedBits : Nat → Block
  | 0 => zeroBlock
  | i + 1 => setBit (usedBits i) i

def balloc (used : Nat) : MkM Unit :=
  if used < bsize * 8 then wsect sb.bmapstart (usedBits used) else throw .bitmap

/-- `din.addrs[k]`, allocated if there is none. -/
def allocAddr (din : Dinode) (k : Nat) : MkM Dinode := do
  if din.word k = 0 then
    let b ← nextBlock
    return din.setAddr k b
  else
    return din

/-- The block for index `fbn` of the file, and the inode with it. -/
def mapBlock (din : Dinode) (fbn : Nat) : MkM (Dinode × Nat) := do
  if fbn < ndirect then
    let din ← allocAddr din fbn
    return (din, din.word fbn)
  else
    let din ← allocAddr din ndirect
    let indirect ← rsect (din.word ndirect)
    if getAddr indirect (fbn - ndirect) = 0 then
      let b ← nextBlock
      let indirect := putAddr indirect (fbn - ndirect) b
      wsect (din.word ndirect) indirect
      return (din, getAddr indirect (fbn - ndirect))
    else
      return (din, getAddr indirect (fbn - ndirect))

/-- The loop of `iappend`, at offset `off` of the file, when `p` is `done` bytes further and `n`
bytes are left. Returns the inode and the offset at the end. -/
def appendFrom (p : Bytes) (din : Dinode) (off done n : Nat) : Nat → MkM (Dinode × Nat)
  | 0 => throw .endless
  | fuel + 1 => do
    if n > 0 then
      let fbn := off / bsize
      if fbn < maxFile then
        let (din, x) ← mapBlock din fbn
        let n1 := min n ((fbn + 1) * bsize - off)
        let buf ← rsect x
        wsect x (putBytes buf (off - fbn * bsize) n1 fun k => p (done + k))
        appendFrom p din (off + n1) (done + n1) (n - n1) fuel
      else
        throw .fileTooBig
    else
      return (din, off)

def iappend (inum : Nat) (p : Bytes) (n : Nat) : MkM Unit := do
  let din ← rinode inum
  let (din, off) ← appendFrom p din din.size 0 n (n / bsize + 3)
  winode inum { din with size := off }

/-- A C string. -/
def cstring (s : List UInt8) : Bytes := fun k => s.getD k 0

/-- The loop over the reads of a file. -/
def copyReads (inum : Nat) : List (List UInt8) → MkM Unit
  | [] => return ()
  | r :: rest => do
    iappend inum (cstring r) r.length
    copyReads inum rest

def addFile (rootino : Nat) (f : HostFile) : MkM Unit := do
  let inum ← ialloc tFile
  iappend rootino (makeDirent (cstring f.name) inum) direntSize
  copyReads inum f.reads

def addFiles (rootino : Nat) : List HostFile → MkM Unit
  | [] => return ()
  | f :: rest => do
    addFile rootino f
    addFiles rootino rest

/-- Write zeroes to the first `n` blocks. -/
def zeroSectors : Nat → MkM Unit
  | 0 => return ()
  | n + 1 => do
    zeroSectors n
    wsect n zeroBlock

/-- fix size of root inode dir -/
def roundRoot (rootino : Nat) : MkM Unit := do
  let din ← rinode rootino
  winode rootino { din with size := (din.size / bsize + 1) * bsize }

/-- The root directory with its first two entries. -/
def makeRoot : MkM Nat := do
  let rootino ← ialloc tDir
  if rootino = rootIno then
    iappend rootino (makeDirent (cstring [46]) rootino) direntSize
    iappend rootino (makeDirent (cstring [46, 46]) rootino) direntSize
    return rootino
  else
    throw .rootIno

def mkfs (files : List HostFile) : MkM Unit := do
  zeroSectors fsSize
  wsect 1 (putSb sb)
  let rootino ← makeRoot
  addFiles rootino files
  roundRoot rootino
  let s ← get
  balloc s.freeblock

/-- The truncated image file. -/
def start : Image := { disk := fun _ => zeroBlock, len := 0, freeinode := 1, freeblock := nmeta }

end ColorXv6.Fs.Mkfs
