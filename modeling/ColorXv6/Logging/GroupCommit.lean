import ColorXv6.Param
import ColorXv6.Lib.Population
import ColorXv6.Lib.Runs

/-!
# log.c: concurrent operations and group commit

Any number of processes run begin_op, log_write and end_op; the last end_op of
a group commits. A step is one critical section of log.lock, one of the tests
that log_write makes before it takes the lock, or one phase of commit, which
runs without the lock. Processes asleep in begin_op test again only after a
wakeup. `committed` and `events` record the history and no step reads them.
-/
namespace ColorXv6.Logging.GroupCommit
open Param Lib.Population Lib.Runs

/-- Where a committing process stands in commit and the end of end_op. -/
inductive Phase where
  | writeLog | writeHead | installTrans | erase | finish
  deriving DecidableEq, Repr

/-- Where a process stands. An operation in progress carries its number and
the blocks it has passed to log_write. -/
inductive Pc where
  | idle
  /-- in begin_op, about to test log.committing and the log space -/
  | beginOp
  /-- in begin_op, asleep on &log -/
  | asleep
  | inOp (op : Nat) (logged : List Nat)
  /-- in log_write(b) past the two panic tests, before acquire(&log.lock) -/
  | inLogWrite (op : Nat) (logged : List Nat) (b : Nat)
  | commit (phase : Phase)
  deriving DecidableEq, Repr

/-- One completed log_write: the operation, the block, and how many
transactions had been committed before it. -/
structure Event where
  op : Nat
  block : Nat
  transaction : Nat
  deriving DecidableEq, Repr

/-- struct log and the processes; `block` is log.lh.block[0..n). -/
structure State where
  size : Nat
  outstanding : Int
  committing : Bool
  block : List Nat
  procs : List Pc
  nextOp : Nat
  committed : List (List Nat)
  events : List Event
  deriving DecidableEq, Repr

inductive Stop where
  | tooBigTransaction
  | logWriteOutsideOfTrans
  | logCommitting
  /-- a store past the end of log.lh.block -/
  | overrun
  deriving DecidableEq, Repr

inductive Outcome where
  | next (s : State)
  | disabled
  | stop (reason : Stop)
  deriving DecidableEq, Repr

inductive Action where
  | callBegin (p : Nat)
  | tryBegin (p : Nat)
  | callLogWrite (p b : Nat)
  | doLogWrite (p : Nat)
  | endOp (p : Nat)
  | commitStep (p : Nat)
  deriving DecidableEq, Repr

def State.n (s : State) : Nat := s.block.length

def State.setPc (s : State) (p : Nat) (pc : Pc) : State := { s with procs := s.procs.set p pc }

def wake : Pc → Pc
  | .asleep => .beginOp
  | pc => pc

/-- wakeup(&log). -/
def State.wakeup (s : State) : State := { s with procs := s.procs.map wake }

/-- The search loop of log_write and its store: the first entry equal to `b`
is overwritten by itself, otherwise `b` is stored at index n. -/
def absorb : List Nat → Nat → List Nat
  | [], b => [b]
  | c :: rest, b => if c = b then b :: rest else c :: absorb rest b

def beginOp (s : State) (p : Nat) : State :=
  if s.committing then s.setPc p .asleep
  else if s.n + (s.outstanding + 1) * maxOpBlocks > logSize then s.setPc p .asleep
  else { s.setPc p (.inOp s.nextOp []) with
    outstanding := s.outstanding + 1, nextOp := s.nextOp + 1 }

/-- The tests of log_write, made without holding log.lock. -/
def logWriteTests (s : State) : Option Stop :=
  if s.n ≥ logSize ∨ (s.n : Int) ≥ s.size - 1 then some .tooBigTransaction
  else if s.outstanding < 1 then some .logWriteOutsideOfTrans
  else none

def logWrite (s : State) (p op : Nat) (logged : List Nat) (b : Nat) : Outcome :=
  if b ∉ s.block ∧ s.n ≥ logSize then .stop .overrun
  else .next { s.setPc p (.inOp op (logged ++ [b])) with
    block := absorb s.block b
    events := s.events ++ [⟨op, b, s.committed.length⟩] }

def endOp (s : State) (p : Nat) : Outcome :=
  let s := { s with outstanding := s.outstanding - 1 }
  if s.committing then .stop .logCommitting
  else if s.outstanding = 0 then .next { s.setPc p (.commit .writeLog) with committing := true }
  else .next (s.setPc p .idle).wakeup

/-- commit and the last critical section of end_op, one phase at a time; the
transaction is committed when its header reaches the disk. -/
def commitPhase (s : State) (p : Nat) : Phase → State
  | .writeLog => if s.n > 0 then s.setPc p (.commit .writeHead) else s.setPc p (.commit .finish)
  | .writeHead =>
    { s.setPc p (.commit .installTrans) with committed := s.committed ++ [s.block] }
  | .installTrans => s.setPc p (.commit .erase)
  | .erase => { s.setPc p (.commit .finish) with block := [] }
  | .finish => ({ s.setPc p .idle with committing := false }).wakeup

def step (s : State) : Action → Outcome
  | .callBegin p =>
    match s.procs[p]? with
    | some .idle => .next (s.setPc p .beginOp)
    | _ => .disabled
  | .tryBegin p =>
    match s.procs[p]? with
    | some .beginOp => .next (beginOp s p)
    | _ => .disabled
  | .callLogWrite p b =>
    match s.procs[p]? with
    | some (.inOp op logged) =>
      match logWriteTests s with
      | some reason => .stop reason
      | none => .next (s.setPc p (.inLogWrite op logged b))
    | _ => .disabled
  | .doLogWrite p =>
    match s.procs[p]? with
    | some (.inLogWrite op logged b) => logWrite s p op logged b
    | _ => .disabled
  | .endOp p =>
    match s.procs[p]? with
    | some (.inOp _ _) => endOp s p
    | _ => .disabled
  | .commitStep p =>
    match s.procs[p]? with
    | some (.commit phase) => .next (commitPhase s p phase)
    | _ => .disabled

/-- After initlog: an empty log of `size` blocks and `n` processes outside any operation. -/
def initial (size n : Nat) : State where
  size := size
  outstanding := 0
  committing := false
  block := []
  procs := List.replicate n .idle
  nextOp := 0
  committed := []
  events := []

def Step (s : State) (a : Action) (t : State) : Prop := step s a = .next t

/-- The state after a schedule all of whose actions meet `cond`, if none of them
is disabled or stops. -/
def execute (cond : State → Action → Bool) : State → List Action → Option State
  | s, [] => some s
  | s, a :: rest =>
    if cond s a then
      match step s a with
      | .next t => execute cond t rest
      | _ => none
    else none

theorem execute_run (cond : State → Action → Bool) (acts : List Action) (s t : State)
    (result : execute cond s acts = some t) :
    Run (Guarded (fun s a => cond s a = true) Step) s acts t := by
  induction acts generalizing s with
  | nil =>
    simp only [execute, Option.some.injEq] at result
    subst result
    exact .nil s
  | cons a rest ih =>
    unfold execute at result
    split at result
    · rename_i meets
      cases taken : step s a with
      | next u =>
        simp only [taken] at result
        exact .cons ⟨meets, taken⟩ (ih u result)
      | disabled => simp [taken] at result
      | stop reason => simp [taken] at result
    · cases result

/-- 1 for a process between its begin_op and its end_op. -/
def active : Pc → Nat
  | .inOp _ _ => 1
  | .inLogWrite _ _ _ => 1
  | _ => 0

/-- 1 for a process in the commit of its end_op. -/
def isCommitting : Pc → Nat
  | .commit _ => 1
  | _ => 0

/-- 1 for a committing process between its header write and the erasure. -/
def headerWritten : Pc → Nat
  | .commit .installTrans => 1
  | .commit .erase => 1
  | _ => 0

def opOf : Pc → Option Nat
  | .inOp op _ => some op
  | .inLogWrite op _ _ => some op
  | _ => none

end ColorXv6.Logging.GroupCommit
