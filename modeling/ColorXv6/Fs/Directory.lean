import ColorXv6.Fs.Inode

/-!
Directories and path names: the rest of fs.c.
-/
namespace ColorXv6.Fs.Directory
open Lib.LittleEndian Lib.Wp Param Logging.Commit Layout Inode

/-- The loops over the entries of a directory, from offset `off` on: stop at the first entry
that passes the test. Returns the offset reached, and the entry if one passed. -/
def scanEntries (dp : Nat) (stop : Bytes → Bool) (short : Halt) (off : Nat) :
    Nat → FsM (Nat × Option Bytes)
  | 0 => throw .endless
  | fuel + 1 => do
    let s ← get
    if off < (s.inode dp).din.size then
      let (r, de) ← readi dp off direntSize
      if r ≠ direntSize then
        throw short
      else if stop de then
        return (off, some de)
      else
        scanEntries dp stop short (off + direntSize) fuel
    else
      return (off, none)

/-- Entries of the longest file, and the final test. -/
def entryFuel : Nat := maxFile * bsize / direntSize + 1

/-- The inode of the entry with this name, and the offset of the entry. -/
def dirlookup (dp : Nat) (name : Bytes) : FsM (Option (Nat × Nat)) := do
  let s ← get
  if (s.inode dp).din.type ≠ tDir then
    throw .dirlookupNotDir
  else
    let (off, found) ← scanEntries dp
      (fun de => direntInum de ≠ 0 ∧ namecmp name (direntName de) = 0) .dirlookupRead 0 entryFuel
    match found with
    | none => return none
    | some de =>
      let ip ← iget (direntInum de)
      return some (ip, off)

def dirlink (dp : Nat) (name : Bytes) (inum : Nat) : FsM Int := do
  match ← dirlookup dp name with
  | some (ip, _) =>
    iput ip
    return -1
  | none =>
    let (off, _) ← scanEntries dp (fun de => direntInum de = 0) .dirlinkRead 0 entryFuel
    let r ← writei dp (makeDirent name inum) off direntSize
    if r ≠ direntSize then
      throw .dirlink
    else
      return 0

def slash : UInt8 := 47

/-- The bytes of the array `name` after an element was copied to it. -/
def nameBytes (elem : List UInt8) : Bytes := fun k => if k < dirSiz then elem.getD k 0 else 0

/-- The array that an element was copied to holds its first bytes. -/
theorem nameOf_nameBytes {elem : List UInt8} (terminated : 0 ∉ elem) :
    nameOf (nameBytes elem) = elem.take dirSiz := by
  apply Eq.trans ?_ (nameFrom_getD terminated 0 dirSiz)
  exact nameFrom_congr fun k _ inside => if_pos (by omega)

/-- The first element of a path and the path after it. -/
def skipelem (path : List UInt8) : Option (Bytes × List UInt8) :=
  let path := path.dropWhile (· = slash)
  if path = [] then none
  else some (nameBytes (path.takeWhile (· ≠ slash)),
    (path.dropWhile (· ≠ slash)).dropWhile (· = slash))

/-- The loop of `namex`, at inode `ip`; an iteration consumes at least one byte of the path. -/
def namexFrom (parent : Bool) (ip : Nat) (path : List UInt8) (name : Bytes) :
    Nat → FsM (Option (Nat × Bytes))
  | 0 => throw .endless
  | fuel + 1 => do
    match skipelem path with
    | none =>
      if parent then
        iput ip
        return none
      else
        return some (ip, name)
    | some (name, path) =>
      ilock ip
      let s ← get
      if (s.inode ip).din.type ≠ tDir then
        iunlockput ip
        return none
      else if parent ∧ path = [] then
        iunlock ip
        return some (ip, name)
      else
        match ← dirlookup ip name with
        | none =>
          iunlockput ip
          return none
        | some (next, _) =>
          iunlockput ip
          namexFrom parent next path name fuel

/-- The inode and the last element copied to `name`. -/
def namex (p : Nat) (path : List UInt8) (parent : Bool) : FsM (Option (Nat × Bytes)) := do
  let s ← get
  if path.head? = some slash then
    let ip ← iget rootIno
    namexFrom parent ip path zeroBlock (path.length + 1)
  else
    match (s.proc p).cwd with
    | none => throw .nullPointer
    | some cwd =>
      let ip ← idup cwd
      namexFrom parent ip path zeroBlock (path.length + 1)

def namei (p : Nat) (path : List UInt8) : FsM (Option Nat) := do
  let r ← namex p path false
  return r.map Prod.fst

def nameiparent (p : Nat) (path : List UInt8) : FsM (Option (Nat × Bytes)) := namex p path true

end ColorXv6.Fs.Directory
