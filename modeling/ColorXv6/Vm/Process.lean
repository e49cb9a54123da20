import ColorXv6.Descriptors
import ColorXv6.Lib.Slots
import ColorXv6.Vm.Exec

/-!
Processes, open files and pipes as far as they own memory: proc.c, the table of
file.c, the ends of pipe.c, `sys_sbrk` and the page-fault case of `trap`. An
action runs to its end before the next one starts. The contents of pipes and the
inodes behind files are not needed here and are left out.
-/
namespace ColorXv6.Vm.Process
open Lib.LittleEndian Lib.Slots Lib.Wp Param Descriptors Mmu Kalloc PageDir Exec

inductive ProcState where
  | unused
  | embryo
  | sleeping
  | runnable
  | running
  | zombie
deriving DecidableEq, Repr

/-- The fields of the user trap frame that the modelled functions read or write. -/
structure TrapFrame where
  eip : Nat := 0
  esp : Nat := 0
  eax : Nat := 0

/-- `parent` and `chan` name a slot of the process table, `ofile` a slot of the file table. -/
structure Proc (ld : Link) where
  sz : Nat := 0
  pgdir : Option (PgDir ld) := none
  kstack : Option (Frame ld) := none
  state : ProcState := .unused
  prio : Nat := 0
  pid : Int := 0
  ret : Int := 0
  parent : Option Nat := none
  tf : TrapFrame := {}
  chan : Option Nat := none
  killed : Bool := false
  ofile : Nat → Option Nat := fun _ => none
  name : List UInt8 := []

inductive FdType where
  | none
  | pipe
  | inode
deriving DecidableEq, Repr

/-- `pipe` is the page of the pipe a file of type `pipe` is an end of. -/
structure File where
  type : FdType := .none
  ref : Nat := 0
  readable : Bool := false
  writable : Bool := false
  pipe : Nat := 0

structure Pipe (ld : Link) where
  page : Frame ld
  readopen : Bool
  writeopen : Bool

structure Machine (ld : Link) where
  kmem : Kmem ld
  proc : Nat → Proc ld
  file : Nat → File
  pipes : List (Pipe ld)
  initproc : Option Nat
  nextpid : Int
  kpgdir : Option (PgDir ld)
  /-- Pages the boot code allocates and keeps. -/
  boot : List (Frame ld)

variable {ld : Link}

/-- Where an action can stop without returning: in an operation on memory, at a panic, or,
in the last three, at what the C source leaves undefined. -/
inductive Halt where
  | memory (stop : Stop)
  | userinitOutOfMemory
  | initExiting
  | filedup
  | fileclose
  /-- A null pointer is dereferenced. -/
  | nullPointer
  /-- An array is indexed past its end. -/
  | outOfBounds
  /-- A pipe is used after its page was freed. -/
  | freedPipe
deriving DecidableEq, Repr

abbrev MachineM (ld : Link) (α : Type) := Prog (Machine ld) Halt α

def inKmem {α : Type} (m : Prog (Kmem ld) Stop α) : MachineM ld α :=
  zoom Machine.kmem (fun s kmem => { s with kmem }) Halt.memory m

def modifyProc (p : Nat) (f : Proc ld → Proc ld) : MachineM ld Unit :=
  modify fun s => { s with proc := fun q => if q = p then f (s.proc q) else s.proc q }

def modifyFile (i : Nat) (f : File → File) : MachineM ld Unit :=
  modify fun s => { s with file := fun j => if j = i then f (s.file j) else s.file j }

def setOfile (fd : Nat) (f : Option Nat) (p : Proc ld) : Proc ld :=
  { p with ofile := fun fd' => if fd' = fd then f else p.ofile fd' }

/-! Files and pipes -/

def filealloc : MachineM ld (Option Nat) := do
  let s ← get
  match firstSlot nfile fun i => (s.file i).ref = 0 with
  | none => return none
  | some i =>
    modifyFile i fun f => { f with ref := 1 }
    return some i

def filedup (i : Nat) : MachineM ld Unit := do
  let s ← get
  if (s.file i).ref < 1 then
    throw .filedup
  else
    modifyFile i fun f => { f with ref := f.ref + 1 }

def Pipe.close (pipe : Pipe ld) (writable : Bool) : Pipe ld :=
  if writable then { pipe with writeopen := false } else { pipe with readopen := false }

/-- The ends of the pipe on page `pa` after one of them is closed; both closed frees it. -/
def pipeclose (pa : Nat) (writable : Bool) : MachineM ld Unit := do
  let s ← get
  match s.pipes.find? fun pipe => pipe.page.pa = pa with
  | none => throw .freedPipe
  | some pipe =>
    let closed := pipe.close writable
    if !closed.readopen && !closed.writeopen then
      set { s with pipes := s.pipes.eraseP fun other : Pipe ld => other.page.pa = pa }
      inKmem (kfree (p2v pa))
    else
      set { s with
        pipes := s.pipes.map fun other : Pipe ld => if other.page.pa = pa then closed else other }

def fileclose (i : Nat) : MachineM ld Unit := do
  let s ← get
  let ff := s.file i
  if ff.ref < 1 then
    throw .fileclose
  else if ff.ref - 1 > 0 then
    modifyFile i fun f => { f with ref := f.ref - 1 }
  else
    modifyFile i fun f => { f with ref := 0, type := .none }
    if ff.type = .pipe then
      pipeclose ff.pipe ff.writable
    else
      return ()

def pipealloc : MachineM ld (Option (Nat × Nat)) := do
  match ← filealloc with
  | none => return none
  | some f0 =>
    match ← filealloc with
    | none =>
      fileclose f0
      return none
    | some f1 =>
      match ← inKmem kalloc with
      | none =>
        fileclose f0
        fileclose f1
        return none
      | some page =>
        modify fun s => { s with pipes := ⟨page, true, true⟩ :: s.pipes }
        modifyFile f0 fun f =>
          { f with type := .pipe, readable := true, writable := false, pipe := page.pa }
        modifyFile f1 fun f =>
          { f with type := .pipe, readable := false, writable := true, pipe := page.pa }
        return some (f0, f1)

def fdalloc (p f : Nat) : MachineM ld (Option Nat) := do
  let s ← get
  match firstSlot nofile fun fd => ((s.proc p).ofile fd).isNone with
  | none => return none
  | some fd =>
    modifyProc p (setOfile fd (some f))
    return some fd

def sysPipe (p : Nat) : MachineM ld Int := do
  match ← pipealloc with
  | none => return -1
  | some (rf, wf) =>
    match ← fdalloc p rf with
    | none =>
      fileclose rf
      fileclose wf
      return -1
    | some fd0 =>
      match ← fdalloc p wf with
      | none =>
        modifyProc p (setOfile fd0 none)
        fileclose rf
        fileclose wf
        return -1
      | some _ => return 0

/-- The file table's part of `sys_open`. -/
def sysOpen (p : Nat) (readable writable : Bool) : MachineM ld Int := do
  match ← filealloc with
  | none => return -1
  | some f =>
    match ← fdalloc p f with
    | none =>
      fileclose f
      return -1
    | some fd =>
      modifyFile f fun file => { file with type := .inode, readable, writable }
      return fd

def sysDup (p fd : Nat) : MachineM ld Int := do
  let s ← get
  if fd ≥ nofile then
    return -1
  else
    match (s.proc p).ofile fd with
    | none => return -1
    | some f =>
      match ← fdalloc p f with
      | none => return -1
      | some new =>
        filedup f
        return new

def sysClose (p fd : Nat) : MachineM ld Int := do
  let s ← get
  if fd ≥ nofile then
    return -1
  else
    match (s.proc p).ofile fd with
    | none => return -1
    | some f =>
      modifyProc p (setOfile fd none)
      fileclose f
      return 0

def fileOps : FileOps (Machine ld) Halt Nat where
  ofile := readOfile (fun s p => (s.proc p).ofile) .outOfBounds
  setOfile p fd f := modifyProc p (setOfile fd f)
  filedup := filedup
  fileclose := fileclose

def sysDup2 (p : Nat) (oldfd newfd : Int) : MachineM ld Int := fileOps.sysDup2 p oldfd newfd

/-! Processes -/

/-- The process returned is in state EMBRYO and has a kernel stack. A failed allocation
leaves the slot UNUSED with the pid it was given. -/
def allocproc : MachineM ld (Option Nat) := do
  let s ← get
  match firstSlot nproc fun p => (s.proc p).state = .unused with
  | none => return none
  | some p =>
    modifyProc p fun proc => { proc with state := .embryo, pid := s.nextpid }
    modify fun s => { s with nextpid := s.nextpid + 1 }
    match ← inKmem kalloc with
    | none =>
      modifyProc p fun proc => { proc with kstack := none, state := .unused }
      return none
    | some kstack =>
      modifyProc p fun proc => { proc with kstack := some kstack }
      return some p

/-- `kfree` of a pointer that may be null. -/
def kfreeStack (kstack : Option (Frame ld)) : MachineM ld Unit :=
  match kstack with
  | none => throw (.memory .kfree)
  | some f => inKmem (kfree (p2v f.pa))

def kvmalloc : MachineM ld Unit := do
  let kpgdir ← inKmem setupkvm
  modify fun s => { s with kpgdir }

/-- The stack of one more CPU, from `startothers`. -/
def startother : MachineM ld Unit := do
  match ← inKmem kalloc with
  | none => throw .nullPointer
  | some stack => modify fun s => { s with boot := stack :: s.boot }

def userinit (init : Bytes) (size : Nat) : MachineM ld Unit := do
  match ← allocproc with
  | none => throw .nullPointer
  | some p =>
    modify fun s => { s with initproc := some p }
    match ← inKmem setupkvm with
    | none => throw .userinitOutOfMemory
    | some d =>
      let (d, lost) ← inKmem (inituvm d init size)
      modify fun s => { s with boot := lost.toList ++ s.boot }
      modifyProc p fun proc => { proc with
        prio := 0, pgdir := some d, sz := pgSize, tf := { eip := 0, esp := pgSize, eax := 0 },
        state := .runnable }

/-- `sz + n` for an `int` n, in `uint` arithmetic. -/
def addInt (sz : Nat) (n : Int) : Nat := ((sz + n) % 2 ^ 32).toNat

/-- A `uint` read as an `int`. -/
def toInt (w : Nat) : Int := if w < 2 ^ 31 then w else (w : Int) - 2 ^ 32

def growproc (p : Nat) (n : Int) : MachineM ld Int := do
  let s ← get
  match (s.proc p).pgdir with
  | none => throw .nullPointer
  | some d =>
    let sz := (s.proc p).sz
    if n > 0 then
      let (d, sz) ← inKmem (allocuvm d sz (addInt sz n))
      modifyProc p fun proc => { proc with pgdir := some d }
      if sz = 0 then
        return -1
      else
        modifyProc p fun proc => { proc with sz }
        return 0
    else if n < 0 then
      let (d, sz) ← inKmem (deallocuvm d sz (addInt sz n))
      modifyProc p fun proc => { proc with pgdir := some d }
      if sz = 0 then
        return -1
      else
        modifyProc p fun proc => { proc with sz }
        return 0
    else
      return 0

/-- Growing only moves the break; the pages come with the page faults. -/
def sysSbrk (p : Nat) (n : Int) : MachineM ld Int := do
  let s ← get
  let szanterior := toInt (s.proc p).sz
  if n ≥ 0 then
    modifyProc p fun proc => { proc with sz := addInt proc.sz n }
    return szanterior
  else if (← growproc p n) < 0 then
    return -1
  else
    return szanterior

def fork (p : Nat) : MachineM ld Int := do
  match ← allocproc with
  | none => return -1
  | some np =>
    let s ← get
    match (s.proc p).pgdir with
    | none => throw .nullPointer
    | some parent =>
      match ← inKmem (copyuvm parent (s.proc p).sz) with
      | none =>
        kfreeStack (s.proc np).kstack
        modifyProc np fun proc => { proc with pgdir := none, kstack := none, state := .unused }
        return -1
      | some d =>
        modifyProc np fun proc => { proc with
          pgdir := some d, sz := (s.proc p).sz, parent := some p,
          tf := { (s.proc p).tf with eax := 0 } }
        fileOps.dupFiles p np nofile
        modifyProc np fun proc => { proc with
          name := (s.proc p).name, prio := (s.proc p).prio, state := .runnable }
        return (s.proc np).pid

def wakeup1 (chan : Option Nat) : MachineM ld Unit :=
  modify fun s => { s with
    proc := fun q =>
      if (s.proc q).state = .sleeping ∧ (s.proc q).chan = chan then
        { s.proc q with state := .runnable }
      else s.proc q }

/-- Pass the children of `p` to init. -/
def reparent (p : Nat) : MachineM ld Unit := do
  let s ← get
  modify fun s => { s with
    proc := fun q =>
      if (s.proc q).parent = some p then { s.proc q with parent := s.initproc } else s.proc q }
  if (List.range nproc).any fun q => (s.proc q).parent = some p ∧ (s.proc q).state = .zombie then
    wakeup1 s.initproc
  else
    return ()

def exit (p : Nat) (status : Int) : MachineM ld Unit := do
  let s ← get
  if s.initproc = some p then
    throw .initExiting
  else
    fileOps.closeFiles p nofile
    let s ← get
    wakeup1 (s.proc p).parent
    reparent p
    match (s.proc p).pgdir with
    | none => throw .nullPointer
    | some d =>
      let (d, _) ← inKmem (deallocuvm d kernBase 0)
      modifyProc p fun proc => { proc with pgdir := some d, state := .zombie, ret := status }

/-- One scan of `wait`: the pid reaped, -1, or nothing when the caller goes to sleep and
scans again once it is woken. -/
def wait (p : Nat) : MachineM ld (Option Int) := do
  let s ← get
  match firstSlot nproc fun q => (s.proc q).parent = some p ∧ (s.proc q).state = .zombie with
  | some q =>
    kfreeStack (s.proc q).kstack
    inKmem (freevm (s.proc q).pgdir false)
    modifyProc q fun proc => { proc with
      kstack := none, pid := 0, parent := none, name := [], killed := false, state := .unused }
    return some (s.proc q).pid
  | none =>
    if !((List.range nproc).any fun q => (s.proc q).parent = some p) || (s.proc p).killed then
      return some (-1)
    else
      modifyProc p fun proc => { proc with chan := some p, state := .sleeping }
      return none

def kill (pid : Int) : MachineM ld Int := do
  let s ← get
  match firstSlot nproc fun q => (s.proc q).pid = pid with
  | none => return -1
  | some q =>
    modifyProc q fun proc => { proc with
      killed := true, state := if proc.state = .sleeping then .runnable else proc.state }
    return 0

/-- The program name: what follows the last '/' of the path, at most 15 bytes of it. -/
def progName (path : List UInt8) : List UInt8 :=
  ((path.reverse.takeWhile fun c => c ≠ 47).reverse).take 15

/-- `file` is what `namei(path)` found. -/
def exec (p : Nat) (path : List UInt8) (file : Option Image) (argv : List (List UInt8)) :
    MachineM ld Int := do
  match file with
  | none => return -1
  | some img =>
    match ← inKmem (buildImage img argv) with
    | none => return -1
    | some image =>
      let s ← get
      modifyProc p fun proc => { proc with
        name := progName path, pgdir := some image.pgdir, sz := image.sz,
        tf := { proc.tf with eip := image.entry, esp := image.sp } }
      inKmem (freevm (s.proc p).pgdir true)
      return 0

section Rules
variable {α : Type} {E : Halt → Prop} {s : Machine ld}

/-- Rule for a memory operation inside an action. -/
theorem wp_inKmem_of {m : Prog (Kmem ld) Stop α} {Q : α → Machine ld → Prop}
    (spec : wp m (fun r k => Q r { s with kmem := k }) (fun e => E (.memory e)) s.kmem) :
    wp (inKmem m) Q E s := by
  unfold inKmem
  rwa [wp_zoom]

theorem wp_modifyProc {p : Nat} {f : Proc ld → Proc ld} {Q : Unit → Machine ld → Prop}
    (after : Q () { s with proc := fun q => if q = p then f (s.proc q) else s.proc q }) :
    wp (modifyProc p f) Q E s :=
  (wp_modify ..).mpr after

theorem wp_modifyFile {i : Nat} {f : File → File} {Q : Unit → Machine ld → Prop}
    (after : Q () { s with file := fun j => if j = i then f (s.file j) else s.file j }) :
    wp (modifyFile i f) Q E s :=
  (wp_modify ..).mpr after

end Rules

end ColorXv6.Vm.Process
