import ColorXv6.Logging.Commit
import ColorXv6.Logging.GroupCommit

/-!
bio.c under log.c: the cache of disk blocks, shared by processes that read, modify
and log blocks, and by the commit of the last `end_op`. A step is one critical section
of bcache.lock, log.lock or a sleep-lock, one transfer by `iderw`, or one access to a
buffer by the process that holds it. Recovery has run, so the log is empty at the start.
-/
namespace ColorXv6.Bio.Cache
open Lib.LittleEndian Param Logging.Commit
open Logging.GroupCommit (absorb)

/-- struct buf without its links. -/
structure Buf where
  dev : Nat := 0
  blockno : Nat := 0
  valid : Bool := false
  dirty : Bool := false
  refcnt : Int := 0
  locked : Bool := false
  data : Block := fun _ => 0

/-- Where a process is inside a call on a buffer. -/
inductive Call where
  | none
  /-- in bget for block `b`: counted in refcnt, before it has the sleep-lock -/
  | lock (i b : Nat)
  /-- in bread with the sleep-lock, before the test of B_VALID -/
  | fill (i b : Nat)
  /-- in log_write past its tests, before acquire(&log.lock) -/
  | logWrite (i : Nat)
  /-- in brelse after releasesleep, before acquire(&bcache.lock) -/
  | unref (i : Nat)
  deriving DecidableEq, Repr

structure Proc where
  call : Call := .none
  /-- Buffers whose sleep-lock the process has. -/
  held : Nat → Bool := fun _ => false
  /-- Those it has modified without writing them yet. -/
  touched : Nat → Bool := fun _ => false
  /-- Between begin_op and end_op. -/
  inOp : Bool := false

inductive Phase where
  | writeLog (tail : Nat)
  | writeHead (erase : Bool)
  | installTrans (tail : Nat)
  | finish
  deriving DecidableEq, Repr

/-- The lines of an iteration of write_log and install_trans, and of write_head, which has
one buffer. -/
inductive Line where
  | breadLog | breadHome | copy | bwrite | brelse | brelseLast
  deriving DecidableEq, Repr

/-- Where commit is: `log` and `home` are the buffers it has read so far in this iteration. -/
structure Committer where
  proc : Nat
  phase : Phase
  line : Line := .breadLog
  log : Nat := 0
  home : Nat := 0
  deriving DecidableEq, Repr

/-- The device that holds the log. -/
structure Device where
  dev : Nat
  start : Nat
  size : Nat

structure State where
  buf : Nat → Buf
  /-- The list of all buffers from head.next on. -/
  mru : List Nat
  disk : Disk
  outstanding : Int
  committing : Bool
  /-- log.lh.block[0..n) -/
  block : List Nat
  proc : Nat → Proc
  commit : Option Committer
  /-- What the writers left in each block; no step reads it. -/
  flat : Nat → Block

@[simp, grind] def modifyBuf (s : State) (i : Nat) (f : Buf → Buf) : State :=
  { s with buf := fun j => if j = i then f (s.buf j) else s.buf j }

@[simp, grind] def modifyProc (s : State) (p : Nat) (f : Proc → Proc) : State :=
  { s with proc := fun q => if q = p then f (s.proc q) else s.proc q }

@[grind =] def assign (f : Nat → Bool) (i : Nat) (v : Bool) : Nat → Bool := fun j => if j = i then v else f j

@[grind] def setCall (s : State) (p : Nat) (call : Call) : State :=
  modifyProc s p fun proc => { proc with call }

variable (d : Device)

/-- bget up to the release of bcache.lock, and the buffer it found. -/
def bget (s : State) (p b : Nat) : Option (Nat × State) :=
  match s.mru.find? fun i => (s.buf i).dev = d.dev ∧ (s.buf i).blockno = b with
  | some i =>
    some (i, setCall (modifyBuf s i fun buf => { buf with refcnt := buf.refcnt + 1 }) p (.lock i b))
  | none =>
    match s.mru.reverse.find? fun i => (s.buf i).refcnt = 0 ∧ (s.buf i).dirty = false with
    | some i =>
      some (i, setCall (modifyBuf s i fun buf => { buf with
        dev := d.dev, blockno := b, valid := false, dirty := false, refcnt := 1 }) p (.lock i b))
    | none => none

/-- acquiresleep in bget, when the lock is free. -/
def acquiresleep (s : State) (p i b : Nat) : Option State :=
  if (s.buf i).locked then none
  else some (modifyProc (modifyBuf s i fun buf => { buf with locked := true }) p fun proc =>
    { proc with call := .fill i b, held := assign proc.held i true })

/-- Transfer one block; the tests at the start panic. -/
def iderw (s : State) (i : Nat) : Option State :=
  let buf := s.buf i
  if !buf.locked ∨ (buf.valid ∧ !buf.dirty) then none
  else if buf.dirty then
    some (modifyBuf { s with disk := diskWrite s.disk (buf.blockno, buf.data) } i fun buf =>
      { buf with valid := true, dirty := false })
  else
    some (modifyBuf s i fun buf => { buf with valid := true, data := s.disk buf.blockno })

/-- The end of bread. -/
def fill (s : State) (p i : Nat) : Option State :=
  if (s.buf i).valid then some (setCall s p .none)
  else (iderw s i).map fun t => setCall t p .none

/-- A store to the data of a buffer by the process that holds it. -/
def store (s : State) (p i : Nat) (data : Block) : State :=
  modifyProc (modifyBuf { s with flat := diskWrite s.flat ((s.buf i).blockno, data) } i fun buf =>
    { buf with data }) p fun proc => { proc with touched := assign proc.touched i true }

def bwrite (s : State) (p i : Nat) : Option State :=
  if (s.proc p).held i then
    (iderw (modifyBuf s i fun buf => { buf with dirty := true }) i).map fun t =>
      modifyProc t p fun proc => { proc with touched := assign proc.touched i false }
  else none

/-- brelse up to the end of releasesleep. -/
def releasesleep (s : State) (p i : Nat) : Option State :=
  if (s.proc p).held i then
    some (modifyProc (modifyBuf s i fun buf => { buf with locked := false }) p fun proc =>
      { proc with call := .unref i, held := assign proc.held i false })
  else none

/-- The critical section of brelse. -/
def unref (s : State) (p i : Nat) : State :=
  let s := setCall (modifyBuf s i fun buf => { buf with refcnt := buf.refcnt - 1 }) p .none
  if (s.buf i).refcnt = 0 then { s with mru := i :: s.mru.erase i } else s

/-! log.c -/

def beginOp (s : State) (p : Nat) : Option State :=
  if s.committing ∨ s.block.length + (s.outstanding + 1) * maxOpBlocks > logSize then none
  else some { modifyProc s p fun proc => { proc with inOp := true } with
    outstanding := s.outstanding + 1 }

/-- The tests of log_write, made without log.lock. -/
def logWriteTests (s : State) (p i : Nat) : Option State :=
  if s.block.length ≥ logSize ∨ (s.block.length : Int) ≥ d.size - 1 ∨ s.outstanding < 1 then none
  else some (setCall s p (.logWrite i))

/-- The critical section of log_write; a store past the end of log.lh.block is not modelled. -/
def logWrite (s : State) (p i : Nat) : Option State :=
  if (s.buf i).blockno ∉ s.block ∧ s.block.length ≥ logSize then none
  else some (modifyProc { modifyBuf s i fun buf => { buf with dirty := true } with
    block := absorb s.block (s.buf i).blockno } p fun proc =>
    { proc with call := .none, touched := assign proc.touched i false })

/-- end_op; commit does nothing when no block was logged. -/
def endOp (s : State) (p : Nat) : Option State :=
  let s := { modifyProc s p fun proc => { proc with inOp := false } with
    outstanding := s.outstanding - 1 }
  if s.committing then none
  else if s.outstanding = 0 then
    some { s with
      committing := true,
      commit := some { proc := p, phase := if s.block.length > 0 then .writeLog 0 else .finish } }
  else some s

/-- What write_head stores. -/
def headerData (buf : Block) (block : List Nat) : Block :=
  putWords (putLE buf 0 4 block.length) 4 (fun i => block.getD i 0) block.length

def goto (s : State) (c : Committer) : State := { s with commit := some c }

/-- bread of the log block and of the home block. -/
def breadLog (s : State) (c : Committer) (b : Nat) (next : Line) : Option State :=
  (bget d s c.proc b).map fun r => goto r.2 { c with line := next, log := r.1 }

def breadHome (s : State) (c : Committer) (b : Nat) (next : Line) : Option State :=
  (bget d s c.proc b).map fun r => goto r.2 { c with line := next, home := r.1 }

/-- The next iteration of write_log, or the header. -/
def afterWriteLog (s : State) (c : Committer) (tail : Nat) : State :=
  if tail + 1 < s.block.length then goto s { proc := c.proc, phase := .writeLog (tail + 1) }
  else goto s { proc := c.proc, phase := .writeHead false }

/-- The next iteration of install_trans, or `log.lh.n = 0` and the header. -/
def afterInstall (s : State) (c : Committer) (tail : Nat) : State :=
  if tail + 1 < s.block.length then goto s { proc := c.proc, phase := .installTrans (tail + 1) }
  else goto { s with block := [] } { proc := c.proc, phase := .writeHead true }

def commitLine (s : State) (c : Committer) : Option State :=
  match c.phase, c.line with
  | .writeLog tail, .breadLog => breadLog d s c (d.start + tail + 1) .breadHome
  | .writeLog tail, .breadHome => breadHome d s c (s.block.getD tail 0) .copy
  | .writeLog _, .copy =>
    some (goto (store s c.proc c.log (s.buf c.home).data) { c with line := .bwrite })
  | .writeLog _, .bwrite => (bwrite s c.proc c.log).map fun t => goto t { c with line := .brelse }
  | .writeLog _, .brelse =>
    (releasesleep s c.proc c.home).map fun t => goto t { c with line := .brelseLast }
  | .writeLog tail, .brelseLast => (releasesleep s c.proc c.log).map fun t => afterWriteLog t c tail
  | .writeHead _, .breadLog => breadLog d s c d.start .copy
  | .writeHead _, .copy =>
    some (goto (store s c.proc c.log (headerData (s.buf c.log).data s.block))
      { c with line := .bwrite })
  | .writeHead _, .bwrite =>
    (bwrite s c.proc c.log).map fun t => goto t { c with line := .brelseLast }
  | .writeHead erase, .brelseLast =>
    (releasesleep s c.proc c.log).map fun t =>
      goto t { proc := c.proc, phase := if erase then .finish else .installTrans 0 }
  | .writeHead _, _ => none
  | .installTrans tail, .breadLog => breadLog d s c (d.start + tail + 1) .breadHome
  | .installTrans tail, .breadHome => breadHome d s c (s.block.getD tail 0) .copy
  | .installTrans _, .copy =>
    -- The home block gets what its last writer left there, so `flat` stays.
    some (goto (modifyBuf s c.home fun buf => { buf with data := (s.buf c.log).data })
      { c with line := .bwrite })
  | .installTrans _, .bwrite =>
    (bwrite s c.proc c.home).map fun t => goto t { c with line := .brelse }
  | .installTrans _, .brelse =>
    (releasesleep s c.proc c.log).map fun t => goto t { c with line := .brelseLast }
  | .installTrans tail, .brelseLast =>
    (releasesleep s c.proc c.home).map fun t => afterInstall t c tail
  | .finish, _ => some { s with committing := false, commit := none }

inductive Action where
  | beginOp (p : Nat)
  | endOp (p : Nat)
  | bread (p b : Nat)
  | acquiresleep (p : Nat)
  | fill (p : Nat)
  | modify (p i : Nat) (data : Block)
  | logWriteTests (p i : Nat)
  | logWrite (p : Nat)
  | bwrite (p i : Nat)
  | brelse (p i : Nat)
  | unref (p : Nat)
  | commit (p : Nat)

/-- Process `p` is between two calls and not in commit. -/
def free (s : State) (p : Nat) : Bool :=
  p < nproc ∧ (s.proc p).call = .none ∧ ∀ c, s.commit = some c → c.proc ≠ p

/-- A process modifies only buffers it holds, and does not release a modified buffer without
writing it. -/
def next (s : State) : Action → Option State
  | .beginOp p => if free s p ∧ !(s.proc p).inOp then beginOp s p else none
  | .endOp p => if free s p ∧ (s.proc p).inOp then endOp s p else none
  | .bread p b => if free s p then (bget d s p b).map Prod.snd else none
  | .acquiresleep p =>
    match (s.proc p).call with
    | .lock i b => acquiresleep s p i b
    | _ => none
  | .fill p =>
    match (s.proc p).call with
    | .fill i _ => fill s p i
    | _ => none
  | .modify p i data => if free s p ∧ (s.proc p).held i then some (store s p i data) else none
  | .logWriteTests p i => if free s p ∧ (s.proc p).held i then logWriteTests d s p i else none
  | .logWrite p =>
    match (s.proc p).call with
    | .logWrite i => logWrite s p i
    | _ => none
  | .bwrite p i => if free s p then bwrite s p i else none
  | .brelse p i => if free s p ∧ !(s.proc p).touched i then releasesleep s p i else none
  | .unref p =>
    match (s.proc p).call with
    | .unref i => some (unref s p i)
    | _ => none
  | .commit p =>
    match s.commit with
    | some c => if c.proc = p ∧ (s.proc p).call = .none then commitLine d s c else none
    | none => none

/-- binit, and an empty log on any disk. -/
def boot (disk : Disk) : State where
  buf := fun _ => {}
  mru := (List.range nbuf).reverse
  disk
  outstanding := 0
  committing := false
  block := []
  proc := fun _ => {}
  commit := none
  flat := disk

def Step (s : State) (a : Action) (t : State) : Prop := next d s a = some t

end ColorXv6.Bio.Cache
