import ColorXv6.Lib.Runs
import ColorXv6.Vm.Process

/-!
How a process enters the kernel: the pointer checks of syscall.c, the page-fault
case of trap.c, and the actions of the whole system as labelled steps.
-/
namespace ColorXv6.Vm.Kernel
open Lib.LittleEndian Lib.Wp Lib.Runs Param Mmu Kalloc PageDir Exec Process

/-! Pointers that come from user code. `sz` is the size of the calling process; the
result says whether the source goes on to use the range. -/

def fetchint (sz addr : Nat) : Bool := !(addr ≥ sz || word (addr + 4) > sz)

/-- `i` is the argument as the `uint` it is compared as, `size` an `int`. -/
def argptr (sz i : Nat) (size : Int) : Bool := !(size < 0 || i ≥ sz || addInt i size > sz)

/-- Scan `n` bytes from `s` for a NUL; `byte` is what the process has in its memory. -/
def scan (byte : Bytes) (s : Nat) : Nat → Option Nat
  | 0 => none
  | n + 1 => if byte s = 0 then some s else scan byte (s + 1) n

/-- The length of the string at `addr`, if its NUL is inside the process. -/
def fetchstr (byte : Bytes) (sz addr : Nat) : Option Nat :=
  if addr ≥ sz then none else (scan byte addr (sz - addr)).map (· - addr)

/-- The ranges the three checks accept: first address and length. -/
inductive Accepted (sz : Nat) : Nat → Nat → Prop where
  | fetchint (addr : Nat) (small : addr < 2 ^ 32) (ok : fetchint sz addr = true) :
      Accepted sz addr 4
  | argptr (i : Nat) (size : Int) (small : i < 2 ^ 32) (int : size < 2 ^ 31)
      (ok : argptr sz i size = true) : Accepted sz i size.toNat
  | fetchstr (byte : Bytes) (addr length : Nat) (ok : fetchstr byte sz addr = some length) :
      Accepted sz addr (length + 1)

variable {ld : Link}

/-- Where control goes when `trap` is done. -/
inductive TrapReturn where
  | resume
  | exited
deriving DecidableEq, Repr

def tPgflt : Nat := 14

/-- The page-fault case of `trap`: `cr2` is the faulting address, `err` the error code in
the process's own trap frame. -/
def pageFault (p cr2 err : Nat) : MachineM ld Unit := do
  let s ← get
  let verr := pgRoundDown cr2
  if pgRoundUp cr2 > (s.proc p).sz ∨ verr ≥ kernBase then
    modifyProc p fun proc => { proc with killed := true }
  else if err = 7 ∨ err = 5 then
    modifyProc p fun proc => { proc with killed := true }
  else
    match ← inKmem kalloc with
    | none => modifyProc p fun proc => { proc with killed := true }
    | some mem =>
      inKmem (memset mem.pa 0)
      match (s.proc p).pgdir with
      | none => throw .nullPointer
      | some d =>
        let (d, mapped) ← inKmem (mappages d verr pgSize mem.pa (pteW ||| pteU))
        modifyProc p fun proc => { proc with pgdir := some d }
        if mapped then
          return ()
        else
          inKmem (kfree (p2v mem.pa))
          modifyProc p fun proc => { proc with killed := true }

/-- `trap` on a page fault. A fault from user code is described by its own frame, with the
processor's error code. A fault inside a system call leaves the frame of that call as the
process's, and its error code is 0. Only a fault from user code ends a killed process. -/
def trap (p : Nat) (user : Bool) (cr2 code : Nat) : MachineM ld TrapReturn := do
  pageFault p cr2 (if user then code else 0)
  let s ← get
  if (s.proc p).killed && user then
    exit p (tPgflt + 1)
    return .exited
  else
    return .resume

inductive Action where
  | kvmalloc
  | startother
  | userinit (init : Bytes) (size : Nat)
  | schedule (p : Nat)
  | yield (p : Nat)
  | fork (p : Nat)
  | exec (p : Nat) (path : List UInt8) (file : Option Image) (argv : List (List UInt8))
  | exit (p : Nat) (status : Int)
  | wait (p : Nat)
  | kill (p : Nat) (pid : Int)
  | sbrk (p : Nat) (n : Int)
  | fault (p : Nat) (user : Bool) (cr2 code : Nat)
  | pipe (p : Nat)
  | openFile (p : Nat) (readable writable : Bool)
  | close (p fd : Nat)
  | dup (p fd : Nat)
  | dup2 (p : Nat) (oldfd newfd : Int)

/-- Boot actions happen once; the others are those of a running process, and an `int` or
`uint` argument is in range. -/
def enabled (s : Machine ld) : Action → Prop
  | .kvmalloc => s.kpgdir = none
  | .startother => True
  | .userinit _ _ => s.initproc = none
  | .schedule p => p < nproc ∧ (s.proc p).state = .runnable
  | .sbrk p n => p < nproc ∧ (s.proc p).state = .running ∧ -2 ^ 31 ≤ n ∧ n < 2 ^ 31
  | .fault p _ cr2 _ => p < nproc ∧ (s.proc p).state = .running ∧ cr2 < 2 ^ 32
  | .yield p | .fork p | .exec p _ _ _ | .exit p _ | .wait p | .kill p _ | .pipe p
  | .openFile p _ _ | .close p _ | .dup p _ | .dup2 p _ _ =>
    p < nproc ∧ (s.proc p).state = .running

def ignore {α : Type} (m : MachineM ld α) : MachineM ld Unit := do
  let _ ← m
  return ()

theorem wp_ignore {α : Type} {m : MachineM ld α} {Q : Machine ld → Prop} {E : Halt → Prop}
    {s : Machine ld} (spec : wp m (fun _ t => Q t) E s) : wp (ignore m) (fun _ t => Q t) E s :=
  wp_seq spec fun _ _ after => wp_ret after

/-- What `scheduler` and `yield` do to a process. -/
def setState (p : Nat) (state : ProcState) : MachineM ld Unit :=
  modifyProc p fun proc => { proc with state }

def perform : Action → MachineM ld Unit
  | .kvmalloc => kvmalloc
  | .startother => startother
  | .userinit init size => userinit init size
  | .schedule p => setState p .running
  | .yield p => setState p .runnable
  | .fork p => ignore (fork p)
  | .exec p path file argv => ignore (exec p path file argv)
  | .exit p status => exit p status
  | .wait p => ignore (wait p)
  | .kill _ pid => ignore (kill pid)
  | .sbrk p n => ignore (sysSbrk p n)
  | .fault p user cr2 code => ignore (trap p user cr2 code)
  | .pipe p => ignore (sysPipe p)
  | .openFile p readable writable => ignore (sysOpen p readable writable)
  | .close p fd => ignore (sysClose p fd)
  | .dup p fd => ignore (sysDup p fd)
  | .dup2 p oldfd newfd => ignore (sysDup2 p oldfd newfd)

/-- An action that ran to its end. -/
def Step (s : Machine ld) (act : Action) (t : Machine ld) : Prop :=
  enabled s act ∧ perform act s = .ok ((), t)

/-- Every process is within the user half of the address space. -/
def Bounded (s : Machine ld) : Prop := ∀ p, (s.proc p).sz ≤ kernBase

/-- The machine before any allocation: the pages `kinit` put on the list. -/
def powerOn (pages : List (Frame ld)) (mem : Nat → Bytes) : Machine ld :=
  { kmem := { freelist := pages, mem }, proc := fun _ => {}, file := fun _ => {}, pipes := [],
    initproc := none, nextpid := 1, kpgdir := none, boot := [] }

end ColorXv6.Vm.Kernel
