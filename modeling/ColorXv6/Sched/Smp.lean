import ColorXv6.Sched.Scheduler

/-!
The process table with any number of CPUs, each running `scheduler`. A CPU is on
its own scheduler stack or on the kernel stack of a process; `swtch` is the only
way from one to the other, and `ptable.lock` is held across it. What runs under
the lock is one step up to the next `swtch`; what `fork` does to its EMBRYO
without the lock are steps of their own, at any time.
-/
namespace ColorXv6.Sched.Smp
open Lib.Runs Lib.Slots Param
open Table (Ptable Prio Chan setState allocproc zombieChild havekids reap)
open Scheduler (Place)
open Vm.Process (ProcState)

/-- Where `sched` was called from, or `forkret` for a process that never ran. -/
inductive Resume where
  | yield
  | sleep
  | wait
  | exit
  | forkret
deriving DecidableEq, Repr

/-- The kernel thread of a process, seen from `ptable.lock`. -/
inductive Stage where
  /-- outside the lock -/
  | running
  /-- in the loop of `wait`, with the lock -/
  | scanning
  /-- in `sched`, before `swtch`, with the lock -/
  | leaving (k : Resume)
  /-- switched away from -/
  | saved (k : Resume)
  /-- switched to, with the lock the scheduler took -/
  | resumed (k : Resume)
deriving DecidableEq, Repr

/-- How far a process is in `fork`. A timer interrupt can make it `yield` in between. -/
inductive Call where
  | none
  /-- `allocproc` has found slot `np`, before `kalloc` -/
  | found (np : Nat)
  /-- `allocproc` has returned -/
  | stacked (np : Nat)
  /-- `np->parent` is set -/
  | linked (np : Nat)
deriving DecidableEq, Repr

/-- What a CPU executes. -/
inductive Where where
  /-- the loops of `scheduler` -/
  | sched (place : Place)
  /-- `scheduler` after `swtch` has come back, before `c->proc = 0` -/
  | returned (place : Place)
  /-- on the kernel stack of `p`; `c->scheduler` goes on at `back` -/
  | on (p : Nat) (back : Place)
deriving DecidableEq, Repr

structure Cpu where
  proc : Option Nat
  at_ : Where

structure State (ι : Type) where
  ptable : Ptable
  cpu : ι → Cpu
  /-- holder of `ptable.lock` -/
  lock : Option ι
  stage : Nat → Stage
  call : Nat → Call
  /-- the slot has a kernel stack -/
  kstack : Nat → Bool

inductive Act where
  /-- the CPU goes on under the lock, or takes it at the top of `scheduler` -/
  | run
  | yield
  | forkAlloc
  /-- `kalloc` gives `allocproc` a stack -/
  | forkStack
  /-- `kalloc` or `copyuvm` fails -/
  | forkFail
  | forkLink
  | forkRun
  | exit (status : Int)
  | wait
  | sleep (addr : Nat)
  /-- by the process, or from an interrupt -/
  | wakeup (chan : Chan)
  | kill (pid : Int)
  | setprio (pid : Int) (prio : Prio)
deriving DecidableEq

variable {ι : Type} [DecidableEq ι]

def State.stateOf (s : State ι) (p : Nat) : ProcState := (s.ptable.proc p).state

def State.onTable (s : State ι) (f : Ptable → Ptable) : State ι := { s with ptable := f s.ptable }

def State.setCpu (s : State ι) (c : ι) (cpu : Cpu) : State ι := { s with cpu := Function.update s.cpu c cpu }

def State.setStage (s : State ι) (p : Nat) (stage : Stage) : State ι :=
  { s with stage := Function.update s.stage p stage }

def State.setCall (s : State ι) (p : Nat) (call : Call) : State ι :=
  { s with call := Function.update s.call p call }

def State.setKstack (s : State ι) (p : Nat) (b : Bool) : State ι :=
  { s with kstack := Function.update s.kstack p b }

def State.setLock (s : State ι) (lock : Option ι) : State ι := { s with lock }

/-- What `swtch` makes of a thread. One that was not switched away from goes on where it is, now
on two CPUs. -/
def Stage.switchTo : Stage → Stage
  | .saved k => .resumed k
  | stage => stage

/-- `c->proc = p; p->state = RUNNING; swtch(&(c->scheduler), p->context)`. -/
def dispatch (s : State ι) (c : ι) (p : Nat) (back : Place) : State ι :=
  ((s.onTable (setState p .running)).setCpu c { proc := some p, at_ := .on p back }).setStage p
    (s.stage p).switchTo

/-- One turn of a loop of `scheduler`. -/
def look (s : State ι) (c : ι) (cpu : Cpu) : Place → Option (State ι)
  | .top =>
    if s.lock = none then
      some ((s.setCpu c { cpu with at_ := .sched (.scan 0 0 none) }).setLock (some c))
    else none
  | .scan i nalta pnormal =>
    if i < nproc then
      if s.stateOf i ≠ .runnable then
        some (s.setCpu c { cpu with at_ := .sched (.scan (i + 1) nalta pnormal) })
      else if (s.ptable.proc i).prio = .high then
        some (dispatch s c i (.scan (i + 1) (nalta + 1) pnormal))
      else some (s.setCpu c { cpu with at_ := .sched (.scan (i + 1) nalta (pnormal.or (some i))) })
    else
      match nalta, pnormal with
      | 0, some q => some (s.setCpu c { cpu with at_ := .sched (.second q) })
      | _, _ => some ((s.setCpu c { cpu with at_ := .sched .top }).setLock none)
  | .second i =>
    if i < nproc then
      if s.stateOf i ≠ .runnable then some (s.setCpu c { cpu with at_ := .sched (.second (i + 1)) })
      else some (dispatch s c i (.second (i + 1)))
    else some ((s.setCpu c { cpu with at_ := .sched .top }).setLock none)

/-- The loop of `wait`, from one scan to its end or to the next `sleep`. -/
def scan (s : State ι) (p curproc : Nat) : State ι :=
  match zombieChild curproc s.ptable with
  | some q => (((s.onTable (reap q)).setKstack q false).setStage p .running).setLock none
  | none =>
    if !havekids curproc s.ptable || (s.ptable.proc curproc).killed then
      (s.setStage p .running).setLock none
    else (s.onTable (Table.sleep curproc (.proc curproc))).setStage p (.leaving .wait)

def clearChan (p : Nat) (t : Ptable) : Ptable := t.modify p fun proc => { proc with chan := none }

/-- What follows `sched` when the process is switched to again. -/
def resume (s : State ι) (p curproc : Nat) : Resume → Option (State ι)
  | .yield | .forkret => some ((s.setStage p .running).setLock none)
  | .sleep => some (((s.onTable (clearChan curproc)).setStage p .running).setLock none)
  | .wait => some ((s.onTable (clearChan curproc)).setStage p .scanning)
  -- panic("zombie exit")
  | .exit => none

/-- The CPU is on the kernel stack of `p`, whose thread takes `myproc()` for `curproc`. -/
def thread (s : State ι) (c : ι) : Option (Nat × Nat) :=
  match (s.cpu c).at_ with
  | .on p _ => (s.cpu c).proc.map fun curproc => (p, curproc)
  | _ => none

def proceed (s : State ι) (c : ι) : Option (State ι) :=
  match (s.cpu c).at_ with
  | .sched place => look s c (s.cpu c) place
  | .returned place => some (s.setCpu c { proc := none, at_ := .sched place })
  | .on p back =>
    match (s.cpu c).proc, s.stage p with
    | some _, .leaving k =>
      some ((s.setCpu c { s.cpu c with at_ := .returned back }).setStage p (.saved k))
    | some curproc, .resumed k => resume s p curproc k
    | some curproc, .scanning => some (scan s p curproc)
    | _, _ => none

/-- A system call, or an interrupt, of the thread on CPU `c`, which is outside the lock. -/
def calls (s : State ι) (c : ι) (p curproc : Nat) : Act → Option (State ι)
  | .run => none
  | .yield =>
    if s.lock = none then
      some (((s.onTable (setState curproc .runnable)).setStage p (.leaving .yield)).setLock (some c))
    else none
  | .forkAlloc =>
    if s.lock = none ∧ s.call p = .none then
      match allocproc s.ptable with
      | none => some s
      | some (np, ptable) =>
        -- as in `Table.next`, `nextpid++` does not overflow
        if ptable.nextpid < 2 ^ 31 then some ({ s with ptable }.setCall p (.found np)) else none
    else none
  | .forkStack =>
    match s.call p with
    | .found np => some ((s.setKstack np true).setCall p (.stacked np))
    | _ => none
  | .forkFail =>
    match s.call p with
    | .found np => some ((s.onTable (setState np .unused)).setCall p .none)
    | .stacked np => some (((s.onTable (setState np .unused)).setKstack np false).setCall p .none)
    | _ => none
  | .forkLink =>
    match s.call p with
    | .stacked np =>
      some ((s.onTable fun t => t.modify np fun proc => { proc with parent := some curproc }).setCall p
        (.linked np))
    | _ => none
  | .forkRun =>
    match s.call p with
    | .linked np =>
      if s.lock = none then
        some (((s.onTable fun t => t.modify np fun proc => { proc with
          prio := (t.proc curproc).prio, state := .runnable }).setStage np (.saved .forkret)).setCall p
            .none)
      else none
    | _ => none
  | .exit status =>
    if s.lock = none ∧ s.call p = .none ∧ curproc ≠ s.ptable.initproc then
      some (((s.onTable (Table.exit curproc status)).setStage p (.leaving .exit)).setLock (some c))
    else none
  | .wait =>
    if s.lock = none ∧ s.call p = .none then some ((s.setStage p .scanning).setLock (some c)) else none
  | .sleep addr =>
    if s.lock = none ∧ s.call p = .none then
      some (((s.onTable (Table.sleep curproc (.other addr))).setStage p (.leaving .sleep)).setLock
        (some c))
    else none
  | .wakeup chan => if s.lock = none then some (s.onTable (Table.wakeup1 chan)) else none
  | .kill pid => if s.lock = none then some (s.onTable (Table.kill pid)) else none
  | .setprio pid prio => if s.lock = none then some (s.onTable (Table.setprocprio pid prio)) else none

def next (s : State ι) (c : ι) (act : Act) : Option (State ι) :=
  match act, thread s c with
  | .run, _ => proceed s c
  -- an interrupt in the scheduler's `sti`
  | .wakeup chan, none => if s.lock = none then some (s.onTable (Table.wakeup1 chan)) else none
  | _, none => none
  | act, some (p, curproc) => if s.stage p = .running then calls s c p curproc act else none

def Step (s : State ι) (act : ι × Act) (t : State ι) : Prop := next s act.1 act.2 = some t

/-- After `userinit`, with every CPU about to take the lock. -/
def boot : State ι where
  ptable := Table.boot.ptable
  cpu := fun _ => { proc := none, at_ := .sched .top }
  lock := none
  stage := fun _ => .saved .forkret
  call := fun _ => .none
  kstack := fun p => p = 0

end ColorXv6.Sched.Smp
