import ColorXv6.Descriptors
import ColorXv6.Fs.Directory
import ColorXv6.Lib.Runs

/-!
Open files and the file-system system calls: file.c, sysfile.c, and what `fork`,
`exit` and `exec` do to files. Pipes do not touch the file system and are left out.
-/
namespace ColorXv6.Fs.SysFile
open Lib.LittleEndian Lib.Slots Lib.Wp Lib.Runs Param Descriptors Logging.Commit Layout Inode Directory

def beginOp : FsM Unit := modify fun s => { s with logged := [] }

def modifyFile (i : Nat) (f : File → File) : FsM Unit :=
  modify fun s => { s with file := fun k => if k = i then f (s.file k) else s.file k }

def modifyProc (p : Nat) (f : Proc → Proc) : FsM Unit :=
  modify fun s => { s with proc := fun k => if k = p then f (s.proc k) else s.proc k }

def setOfile (fd : Nat) (f : Option Nat) (proc : Proc) : Proc :=
  { proc with ofile := fun k => if k = fd then f else proc.ofile k }

def filealloc : FsM (Option Nat) := do
  let s ← get
  match firstSlot nfile fun i => (s.file i).ref = 0 with
  | none => return none
  | some i =>
    modifyFile i fun f => { f with ref := 1 }
    return some i

def filedup (i : Nat) : FsM Unit := do
  let s ← get
  if (s.file i).ref < 1 then
    throw .filedup
  else
    modifyFile i fun f => { f with ref := f.ref + 1 }

def fileclose (i : Nat) : FsM Unit := do
  let s ← get
  let ff := s.file i
  if ff.ref < 1 then
    throw .fileclose
  else if ff.ref - 1 > 0 then
    modifyFile i fun f => { f with ref := f.ref - 1 }
  else
    modifyFile i fun f => { f with ref := 0, type := .none }
    if ff.type = .inode then
      beginOp
      iput ff.ip

/-- The fields of struct stat that depend on the inode. -/
def filestat (i : Nat) : FsM (Option (Nat × Int × Int × Nat)) := do
  let s ← get
  if (s.file i).type = .inode then
    ilock (s.file i).ip
    let st ← stati (s.file i).ip
    iunlock (s.file i).ip
    return some st
  else
    return none

def fileread (i n : Nat) : FsM (Int × Bytes) := do
  let s ← get
  let f := s.file i
  if !f.readable then
    return (-1, zeroBlock)
  else if f.type = .inode then
    ilock f.ip
    let (r, data) ← readi f.ip f.off n
    if r > 0 then
      modifyFile i fun f => { f with off := (f.off + r.toNat) % 2 ^ 32 }
    iunlock f.ip
    return (r, data)
  else
    throw .fileread

/-- `max` of `filewrite`. -/
def maxChunk : Nat := (maxOpBlocks - 1 - 1 - 2) / 2 * 512

/-- The loop of `filewrite` when `done` bytes have been written. -/
def writeChunks (i : Nat) (addr : Bytes) (n done : Nat) : Nat → FsM Int
  | 0 => throw .endless
  | fuel + 1 =>
    if done < n then do
      let n1 := min (n - done) maxChunk
      beginOp
      let s ← get
      let f := s.file i
      ilock f.ip
      let r ← writei f.ip (fun k => addr (done + k)) f.off n1
      if r > 0 then
        modifyFile i fun f => { f with off := (f.off + r.toNat) % 2 ^ 32 }
      iunlock f.ip
      if r < 0 then
        return -1
      else if r ≠ n1 then
        throw .shortFilewrite
      else
        writeChunks i addr n (done + n1) fuel
    else
      return n

def filewrite (i : Nat) (addr : Bytes) (n : Nat) : FsM Int := do
  let s ← get
  if !(s.file i).writable then
    return -1
  else if (s.file i).type = .inode then
    writeChunks i addr n 0 (n / maxChunk + 2)
  else
    throw .filewrite

/-! System calls of process `p`. A path is the string that `argstr` found. -/

/-- The descriptor and its file. -/
def argfd (p : Nat) (fd : Int) : FsM (Option (Nat × Nat)) := do
  let s ← get
  if fd < 0 ∨ fd ≥ nofile then
    return none
  else
    return ((s.proc p).ofile fd.toNat).map fun f => (fd.toNat, f)

def fdalloc (p f : Nat) : FsM (Option Nat) := do
  let s ← get
  match firstSlot nofile fun fd => ((s.proc p).ofile fd).isNone with
  | none => return none
  | some fd =>
    modifyProc p (setOfile fd (some f))
    return some fd

def sysDup (p : Nat) (fd : Int) : FsM Int := do
  match ← argfd p fd with
  | none => return -1
  | some (_, f) =>
    match ← fdalloc p f with
    | none => return -1
    | some fd =>
      filedup f
      return fd

def fileOps : FileOps Fs Halt Nat where
  ofile := readOfile (fun s p => (s.proc p).ofile) .outOfBounds
  setOfile p fd f := modifyProc p (setOfile fd f)
  filedup := filedup
  fileclose := fileclose

def sysDup2 (p : Nat) (oldfd newfd : Int) : FsM Int := fileOps.sysDup2 p oldfd newfd

def sysRead (p : Nat) (fd : Int) (n : Nat) : FsM (Int × Bytes) := do
  match ← argfd p fd with
  | none => return (-1, zeroBlock)
  | some (_, f) => fileread f n

def sysWrite (p : Nat) (fd : Int) (addr : Bytes) (n : Nat) : FsM Int := do
  match ← argfd p fd with
  | none => return -1
  | some (_, f) => filewrite f addr n

def sysClose (p : Nat) (fd : Int) : FsM Int := do
  match ← argfd p fd with
  | none => return -1
  | some (fd, f) =>
    modifyProc p (setOfile fd none)
    fileclose f
    return 0

def sysFstat (p : Nat) (fd : Int) : FsM (Option (Nat × Int × Int × Nat)) := do
  match ← argfd p fd with
  | none => return none
  | some (_, f) => filestat f

def dot : Bytes := nameBytes [46]
def dotdot : Bytes := nameBytes [46, 46]

/-- `bad` of `sys_link`: take the link count back. -/
def unlinkBad (ip : Nat) : FsM Int := do
  ilock ip
  modifyDin ip fun d => { d with nlink := toShort (d.nlink - 1) }
  iupdate ip
  iunlockput ip
  return -1

def sysLink (p : Nat) (old new : List UInt8) : FsM Int := do
  beginOp
  match ← namei p old with
  | none => return -1
  | some ip =>
    ilock ip
    let s ← get
    if (s.inode ip).din.type = tDir then
      iunlockput ip
      return -1
    else
      modifyDin ip fun d => { d with nlink := toShort (d.nlink + 1) }
      iupdate ip
      iunlock ip
      match ← nameiparent p new with
      | none => unlinkBad ip
      | some (dp, name) =>
        ilock dp
        if (← dirlink dp name (s.inode ip).inum) < 0 then
          iunlockput dp
          unlinkBad ip
        else
          iunlockput dp
          iput ip
          return 0

def isdirempty (dp : Nat) : FsM Bool := do
  let (_, found) ← scanEntries dp (fun de => direntInum de ≠ 0) .isdiremptyReadi (2 * direntSize)
    entryFuel
  return found.isNone

/-- `bad` of `sys_unlink`. -/
def putBad (dp : Nat) : FsM Int := do
  iunlockput dp
  return -1

/-- The test of `sys_unlink`: a directory must be empty. -/
def mayRemove (ip : Nat) (type : Int) : FsM Bool :=
  if type = tDir then isdirempty ip else return true

/-- A removed directory no longer links to its parent `dp`. -/
def dropParent (dp : Nat) (type : Int) : FsM Unit :=
  if type = tDir then do
    modifyDin dp fun d => { d with nlink := toShort (d.nlink - 1) }
    iupdate dp
  else
    return ()

/-- The end of `sys_unlink`: the entry at `off` of `dp` named `ip`, which has this type. -/
def removeEntry (dp ip off : Nat) (type : Int) : FsM Int := do
  let r ← writei dp zeroBlock off direntSize
  if r ≠ direntSize then
    throw .unlinkWritei
  else
    dropParent dp type
    iunlockput dp
    modifyDin ip fun d => { d with nlink := toShort (d.nlink - 1) }
    iupdate ip
    iunlockput ip
    return 0

/-- `sys_unlink` once the entry is found. -/
def unlinkFound (dp ip off : Nat) : FsM Int := do
  ilock ip
  let s ← get
  let d := (s.inode ip).din
  if d.nlink < 1 then
    throw .unlinkNlink
  else if ← mayRemove ip d.type then
    removeEntry dp ip off d.type
  else
    iunlockput ip
    putBad dp

/-- `sys_unlink` once the directory is locked. -/
def unlinkFrom (dp : Nat) (name : Bytes) : FsM Int := do
  if namecmp name dot = 0 ∨ namecmp name dotdot = 0 then
    putBad dp
  else
    match ← dirlookup dp name with
    | none => putBad dp
    | some (ip, off) => unlinkFound dp ip off

def sysUnlink (p : Nat) (path : List UInt8) : FsM Int := do
  beginOp
  match ← nameiparent p path with
  | none => return -1
  | some (dp, name) =>
    ilock dp
    unlinkFrom dp name

/-- The part of `create` for directories: the entries of the new one. -/
def makeDots (type : Int) (ip dp : Nat) : FsM Unit := do
  if type = tDir then
    modifyDin dp fun d => { d with nlink := toShort (d.nlink + 1) }
    iupdate dp
    let s ← get
    if (← dirlink ip dot (s.inode ip).inum) < 0 then
      throw .createDots
    else if (← dirlink ip dotdot (s.inode dp).inum) < 0 then
      throw .createDots
    else
      return ()
  else
    return ()

/-- Returns the inode locked. `ialloc` does not return null. -/
def create (p : Nat) (path : List UInt8) (type major minor : Int) : FsM (Option Nat) := do
  match ← nameiparent p path with
  | none => return none
  | some (dp, name) =>
    ilock dp
    match ← dirlookup dp name with
    | some (ip, _) =>
      iunlockput dp
      ilock ip
      let s ← get
      if type = tFile ∧ (s.inode ip).din.type = tFile then
        return some ip
      else
        iunlockput ip
        return none
    | none =>
      let ip ← ialloc type
      ilock ip
      modifyDin ip fun d => { d with major, minor, nlink := 1 }
      iupdate ip
      makeDots type ip dp
      let s ← get
      if (← dirlink dp name (s.inode ip).inum) < 0 then
        throw .createDirlink
      else
        iunlockput dp
        return some ip

def oRdonly : Nat := 0
def oWronly : Nat := 1
def oRdwr : Nat := 2
def oCreate : Nat := 0x200

/-- The first half of `sys_open`: the inode, locked. -/
def openInode (p : Nat) (path : List UInt8) (omode : Nat) : FsM (Option Nat) := do
  if omode &&& oCreate ≠ 0 then
    create p path tFile 0 0
  else
    match ← namei p path with
    | none => return none
    | some ip =>
      ilock ip
      let s ← get
      if (s.inode ip).din.type = tDir ∧ omode ≠ oRdonly then
        iunlockput ip
        return none
      else
        return some ip

def sysOpen (p : Nat) (path : List UInt8) (omode : Nat) : FsM Int := do
  beginOp
  match ← openInode p path omode with
  | none => return -1
  | some ip =>
    match ← filealloc with
    | none =>
      iunlockput ip
      return -1
    | some f =>
      match ← fdalloc p f with
      | none =>
        fileclose f
        iunlockput ip
        return -1
      | some fd =>
        iunlock ip
        modifyFile f fun f => { f with
          type := .inode, ip, off := 0, readable := omode &&& oWronly = 0,
          writable := omode &&& oWronly ≠ 0 ∨ omode &&& oRdwr ≠ 0 }
        return fd

def sysMkdir (p : Nat) (path : List UInt8) : FsM Int := do
  beginOp
  match ← create p path tDir 0 0 with
  | none => return -1
  | some ip =>
    iunlockput ip
    return 0

def sysMknod (p : Nat) (path : List UInt8) (major minor : Int) : FsM Int := do
  beginOp
  match ← create p path tDev (toShort major) (toShort minor) with
  | none => return -1
  | some ip =>
    iunlockput ip
    return 0

def putCwd (cwd : Option Nat) : FsM Unit :=
  match cwd with
  | none => throw .nullPointer
  | some cwd => iput cwd

def sysChdir (p : Nat) (path : List UInt8) : FsM Int := do
  beginOp
  match ← namei p path with
  | none => return -1
  | some ip =>
    ilock ip
    let s ← get
    if (s.inode ip).din.type ≠ tDir then
      iunlockput ip
      return -1
    else
      iunlock ip
      putCwd (s.proc p).cwd
      modifyProc p fun proc => { proc with cwd := some ip }
      return 0

/-- The reads of `exec`, each an offset and a number of bytes. -/
def readAll (ip : Nat) : List (Nat × Nat) → FsM Unit
  | [] => return ()
  | (off, n) :: reads => do
    let _ ← readi ip off n
    readAll ip reads

/-- The part of `exec` that reads the file. -/
def execFile (p : Nat) (path : List UInt8) (reads : List (Nat × Nat)) : FsM Unit := do
  beginOp
  match ← namei p path with
  | none => return ()
  | some ip =>
    ilock ip
    readAll ip reads
    iunlockput ip

/-- The part of `fork` that concerns files; `np` is the process `allocproc` found. -/
def forkFiles (p np : Nat) : FsM Unit := do
  fileOps.dupFiles p np nofile
  let s ← get
  match (s.proc p).cwd with
  | none => throw .nullPointer
  | some cwd =>
    let cwd ← idup cwd
    modifyProc np fun proc => { proc with cwd := some cwd, live := true }

/-- The part of `exit` that concerns files. -/
def exitFiles (p : Nat) : FsM Unit := do
  fileOps.closeFiles p nofile
  beginOp
  let s ← get
  putCwd (s.proc p).cwd
  modifyProc p fun proc => { proc with cwd := none, live := false }

/-- The first process starts in the root directory. -/
def userinit (p : Nat) : FsM Unit := do
  match ← namei p [slash] with
  | none => throw .nullPointer
  | some ip => modifyProc p fun proc => { proc with cwd := some ip, live := true }

/-! The system: one system call after the other. -/

inductive Action where
  | userinit (p : Nat)
  | fork (p np : Nat)
  | exit (p : Nat)
  | exec (p : Nat) (path : List UInt8) (reads : List (Nat × Nat))
  | openFile (p : Nat) (path : List UInt8) (omode : Nat)
  | close (p : Nat) (fd : Int)
  | dup (p : Nat) (fd : Int)
  | dup2 (p : Nat) (oldfd newfd : Int)
  | read (p : Nat) (fd : Int) (n : Nat)
  | write (p : Nat) (fd : Int) (addr : Bytes) (n : Nat)
  | fstat (p : Nat) (fd : Int)
  | link (p : Nat) (old new : List UInt8)
  | unlink (p : Nat) (path : List UInt8)
  | mkdir (p : Nat) (path : List UInt8)
  | mknod (p : Nat) (path : List UInt8) (major minor : Int)
  | chdir (p : Nat) (path : List UInt8)
  | input (console : Nat → Int × Bytes)

/-- The process exists, and a new one does not yet; counts are `int`s. -/
def enabled (s : Fs) : Action → Prop
  | .userinit p => p < nproc ∧ ∀ q, (s.proc q).live = false
  | .fork p np => (s.proc p).live = true ∧ p < nproc ∧ np < nproc ∧ (s.proc np).live = false
  | .read p _ n | .write p _ _ n => (s.proc p).live = true ∧ p < nproc ∧ n < 2 ^ 31
  | .exit p | .exec p _ _ | .openFile p _ _ | .close p _ | .dup p _ | .dup2 p _ _ | .fstat p _
  | .link p _ _ | .unlink p _ | .mkdir p _ | .mknod p _ _ _ | .chdir p _ =>
    (s.proc p).live = true ∧ p < nproc
  | .input _ => True

def ignore {α : Type} (m : FsM α) : FsM Unit := do
  let _ ← m
  return ()

def perform : Action → FsM Unit
  | .userinit p => userinit p
  | .fork p np => forkFiles p np
  | .exit p => exitFiles p
  | .exec p path reads => execFile p path reads
  | .openFile p path omode => ignore (sysOpen p path omode)
  | .close p fd => ignore (sysClose p fd)
  | .dup p fd => ignore (sysDup p fd)
  | .dup2 p oldfd newfd => ignore (sysDup2 p oldfd newfd)
  | .read p fd n => ignore (sysRead p fd n)
  | .write p fd addr n => ignore (sysWrite p fd addr n)
  | .fstat p fd => ignore (sysFstat p fd)
  | .link p old new => ignore (sysLink p old new)
  | .unlink p path => ignore (sysUnlink p path)
  | .mkdir p path => ignore (sysMkdir p path)
  | .mknod p path major minor => ignore (sysMknod p path major minor)
  | .chdir p path => ignore (sysChdir p path)
  | .input console => modify fun s => { s with console }

/-- A system call that ran to its end. -/
def Step (s : Fs) (act : Action) (t : Fs) : Prop := enabled s act ∧ perform act s = .ok ((), t)

/-- The state after boot: an empty inode cache over a disk. -/
def mount (disk : Disk) : Fs :=
  { disk, sb := getSb (disk 1), inode := fun _ => {}, file := fun _ => {}, proc := fun _ => {},
    console := fun _ => (-1, zeroBlock), logged := [] }

end ColorXv6.Fs.SysFile
