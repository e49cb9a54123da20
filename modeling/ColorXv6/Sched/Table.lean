import ColorXv6.Lib.Runs
import ColorXv6.Vm.Process
import Mathlib.Logic.Function.Basic

/-!
proc.c: the process table and the pieces of `fork`, `exit`, `wait`, `kill`, `sleep`,
`wakeup` and `setprocprio` that run under `ptable.lock`. The memory, the files and the
current directory of a process are left out. Where `wait` stores the status of a child
through a pointer, the model gives it back next to the pid.
-/
namespace ColorXv6.Sched.Table
open Lib.Runs Lib.Slots Param
open Vm.Process (ProcState)

/-- `two` is not in the enum, but `sys_setprio` lets it through. -/
inductive Prio where
  | normal
  | high
  | two
deriving DecidableEq, Repr

/-- What a process sleeps on: an entry of the process table, in `wait`, or another address. -/
inductive Chan where
  | proc (p : Nat)
  | other (addr : Nat)
deriving DecidableEq, Repr

/-- `parent` names a slot of the table. -/
structure Proc where
  state : ProcState := .unused
  prio : Prio := .normal
  pid : Int := 0
  ret : Int := 0
  parent : Option Nat := none
  chan : Option Chan := none
  killed : Bool := false
deriving DecidableEq

structure Ptable where
  proc : Nat → Proc
  initproc : Nat
  nextpid : Int

def Ptable.modify (t : Ptable) (p : Nat) (f : Proc → Proc) : Ptable :=
  { t with proc := Function.update t.proc p (f (t.proc p)) }

/-- The part of `allocproc` under the lock. -/
def allocproc (t : Ptable) : Option (Nat × Ptable) :=
  match firstSlot nproc fun p => (t.proc p).state = .unused with
  | none => none
  | some p =>
    some (p, { t.modify p fun proc => { proc with state := .embryo, pid := t.nextpid } with
      nextpid := t.nextpid + 1 })

def wakeup1 (chan : Chan) (t : Ptable) : Ptable :=
  { t with
    proc := fun q =>
      if (t.proc q).state = .sleeping ∧ (t.proc q).chan = some chan then
        { t.proc q with state := .runnable }
      else t.proc q }

/-- One turn of the loop of `exit` that passes the children of `p` to init. -/
def adopt (p : Nat) (t : Ptable) (q : Nat) : Ptable :=
  if (t.proc q).parent = some p then
    let passed := t.modify q fun proc => { proc with parent := some t.initproc }
    if (t.proc q).state = .zombie then wakeup1 (.proc t.initproc) passed else passed
  else t

def reparent (p : Nat) (t : Ptable) : Ptable := (List.range nproc).foldl (adopt p) t

/-- `wakeup1(curproc->parent)`; init, which has no parent, does not get here. -/
def wakeParent (p : Nat) (t : Ptable) : Ptable :=
  match (t.proc p).parent with
  | none => t
  | some parent => wakeup1 (.proc parent) t

/-- The part of `exit` under the lock. -/
def exit (p : Nat) (status : Int) (t : Ptable) : Ptable :=
  (reparent p (wakeParent p t)).modify p fun proc => { proc with state := .zombie, ret := status }

/-- The first ZOMBIE child in the order of the scan. -/
def zombieChild (p : Nat) (t : Ptable) : Option Nat :=
  firstSlot nproc fun q => (t.proc q).parent = some p ∧ (t.proc q).state = .zombie

def havekids (p : Nat) (t : Ptable) : Bool :=
  (List.range nproc).any fun q => (t.proc q).parent = some p

/-- What `wait` does to the slot of the child it returns. -/
def reap (q : Nat) (t : Ptable) : Ptable :=
  t.modify q fun proc => { proc with pid := 0, parent := none, killed := false, state := .unused }

def sleep (p : Nat) (chan : Chan) (t : Ptable) : Ptable :=
  t.modify p fun proc => { proc with chan := some chan, state := .sleeping }

def kill (pid : Int) (t : Ptable) : Ptable :=
  match firstSlot nproc fun p => (t.proc p).pid = pid with
  | none => t
  | some p =>
    t.modify p fun proc => { proc with
      killed := true, state := if proc.state = .sleeping then .runnable else proc.state }

def setprocprio (pid : Int) (prio : Prio) (t : Ptable) : Ptable :=
  match firstSlot nproc fun p => (t.proc p).pid = pid with
  | none => t
  | some p => t.modify p fun proc => { proc with prio }

def setState (p : Nat) (state : ProcState) (t : Ptable) : Ptable :=
  t.modify p fun proc => { proc with state }

/-! The system: every process goes on from where it is, in any order. -/

/-- Where a process is in the calls that take several pieces. -/
inductive Pc where
  | user
  /-- in `fork`, `allocproc` has found a slot -/
  | forkAlloc (np : Nat)
  /-- in `fork`, `np->parent` is set -/
  | forkLinked (np : Nat)
  /-- in the `sleep` of `wait` -/
  | waiting
  /-- in another `sleep` -/
  | asleep
deriving DecidableEq, Repr

/-- A return from `wait`. Processes are told apart by the order of their births. -/
inductive WaitResult where
  | child (waiter child : Nat) (pid status : Int)
  | failed (waiter : Nat)
deriving DecidableEq

/-- The fields after `pc` are bookkeeping: which process has each slot, how many there were,
who forked each and with which pid, who exited with which status, and what `wait` returned. -/
structure State where
  ptable : Ptable
  pc : Nat → Pc
  id : Nat → Nat
  born : Nat
  forker : Nat → Option Nat
  pidOf : Nat → Int
  exits : List (Nat × Int)
  waits : List WaitResult

/-- Pieces of the calls of process `p`, and what can happen at any time: a `wakeup`, from an
interrupt too, and a `kill` or `setprio`. -/
inductive Act where
  | schedule (p : Nat)
  | yield (p : Nat)
  | forkAlloc (p : Nat)
  | forkFail (p : Nat)
  | forkLink (p : Nat)
  | forkRun (p : Nat)
  | exit (p : Nat) (status : Int)
  | wait (p : Nat)
  | sleep (p addr : Nat)
  | wakeup (chan : Chan)
  | kill (pid : Int)
  | setprio (pid : Int) (prio : Prio)
deriving DecidableEq

def State.goto (s : State) (p : Nat) (pc : Pc) : State := { s with pc := Function.update s.pc p pc }

def State.onTable (s : State) (f : Ptable → Ptable) : State := { s with ptable := f s.ptable }

/-- The loop of `wait`, from one scan to the next. -/
def waitLoop (s : State) (p : Nat) : State :=
  match zombieChild p s.ptable with
  | some q =>
    let proc := s.ptable.proc q
    { (s.onTable (reap q)).goto p .user with
      waits := s.waits ++ [.child (s.id p) (s.id q) proc.pid proc.ret] }
  | none =>
    if !havekids p s.ptable || (s.ptable.proc p).killed then
      { s.goto p .user with waits := s.waits ++ [.failed (s.id p)] }
    else (s.onTable (sleep p (.proc p))).goto p .waiting

/-- What `sleep` does when it is switched to again; in `wait` the loop goes on without giving
up the lock. -/
def resume (s : State) (p : Nat) : State :=
  let tidy := s.onTable fun t => t.modify p fun proc => { proc with chan := none }
  match s.pc p with
  | .waiting => waitLoop tidy p
  | .asleep => tidy.goto p .user
  | _ => s

def running (s : State) (p : Nat) : Prop := p < nproc ∧ (s.ptable.proc p).state = .running

instance (s : State) (p : Nat) : Decidable (running s p) := instDecidableAnd

def next (s : State) : Act → Option State
  | .schedule p =>
    if p < nproc ∧ (s.ptable.proc p).state = .runnable then
      some (resume (s.onTable (setState p .running)) p)
    else none
  | .yield p => if running s p then some (s.onTable (setState p .runnable)) else none
  | .forkAlloc p =>
    if running s p ∧ s.pc p = .user then
      match allocproc s.ptable with
      | none => some s
      | some (np, ptable) =>
        -- there is no step after the one whose `nextpid++` overflows
        if ptable.nextpid < 2 ^ 31 then
          some { s.goto p (.forkAlloc np) with
            ptable
            id := Function.update s.id np s.born
            born := s.born + 1
            forker := Function.update s.forker s.born none
            pidOf := Function.update s.pidOf s.born s.ptable.nextpid }
        else none
    else none
  | .forkFail p =>
    match s.pc p with
    | .forkAlloc np => if running s p then some ((s.onTable (setState np .unused)).goto p .user) else none
    | _ => none
  | .forkLink p =>
    match s.pc p with
    | .forkAlloc np =>
      if running s p then
        some { (s.onTable fun t => t.modify np fun proc => { proc with parent := some p }).goto p
            (.forkLinked np) with
          forker := Function.update s.forker (s.id np) (some (s.id p)) }
      else none
    | _ => none
  | .forkRun p =>
    match s.pc p with
    | .forkLinked np =>
      if running s p then
        some ((s.onTable fun t => t.modify np fun proc => { proc with
          prio := (t.proc p).prio, state := .runnable }).goto p .user)
      else none
    | _ => none
  | .exit p status =>
    if running s p ∧ s.pc p = .user ∧ p ≠ s.ptable.initproc then
      some { s.onTable (exit p status) with exits := s.exits ++ [(s.id p, status)] }
    else none
  | .wait p => if running s p ∧ s.pc p = .user then some (waitLoop s p) else none
  | .sleep p addr =>
    if running s p ∧ s.pc p = .user then some ((s.onTable (sleep p (.other addr))).goto p .asleep)
    else none
  | .wakeup chan => some (s.onTable (wakeup1 chan))
  | .kill pid => some (s.onTable (kill pid))
  | .setprio pid prio => some (s.onTable (setprocprio pid prio))

def Step (s : State) (act : Act) (t : State) : Prop := next s act = some t

/-- After `userinit`: init is RUNNABLE in the first slot. -/
def boot : State where
  ptable :=
    { proc := fun p => if p = 0 then { state := .runnable, pid := 1 } else {}
      initproc := 0
      nextpid := 2 }
  pc := fun _ => .user
  id := fun _ => 0
  born := 1
  forker := fun _ => none
  pidOf := fun _ => 1
  exits := []
  waits := []

/-! What the pieces do to the table. -/

@[simp] theorem modify_nextpid (t : Ptable) (p : Nat) (f : Proc → Proc) :
    (t.modify p f).nextpid = t.nextpid := rfl

@[simp] theorem modify_same (t : Ptable) (p : Nat) (f : Proc → Proc) :
    (t.modify p f).proc p = f (t.proc p) :=
  Function.update_self ..

variable {p : Nat} {t u : Ptable}

theorem modify_other (t : Ptable) {q : Nat} (f : Proc → Proc) (other : q ≠ p) :
    (t.modify p f).proc q = t.proc q :=
  Function.update_of_ne other ..

/-- A field that a change leaves alone. -/
theorem modify_field {α : Type} (field : Proc → α) (t : Ptable) (p q : Nat) {f : Proc → Proc}
    (same : field (f (t.proc p)) = field (t.proc p)) :
    field ((t.modify p f).proc q) = field (t.proc q) := by
  by_cases here : q = p
  · rw [here, modify_same, same]
  · rw [modify_other t f here]

/-- A field that a change sets. -/
theorem modify_set {α : Type} (field : Proc → α) (t : Ptable) (p q : Nat) {f : Proc → Proc} {a : α}
    (now : field (f (t.proc p)) = a) :
    field ((t.modify p f).proc q) = if q = p then a else field (t.proc q) := by
  by_cases here : q = p
  · rw [here, modify_same, now, if_pos rfl]
  · rw [modify_other t f here, if_neg here]

/-- All but the fields that `exit` changes in other processes. -/
def rest (proc : Proc) : Prio × Int × Int × Option Chan × Bool :=
  (proc.prio, proc.pid, proc.ret, proc.chan, proc.killed)

/-- Some processes were asleep and are RUNNABLE now, and nothing else has changed but
parents. -/
structure Wakes (t u : Ptable) : Prop where
  init : u.initproc = t.initproc
  rest : ∀ q, rest (u.proc q) = rest (t.proc q)
  state : ∀ q, (u.proc q).state = (t.proc q).state ∨
    (t.proc q).state = .sleeping ∧ (u.proc q).state = .runnable

theorem Wakes.refl (t : Ptable) : Wakes t t := ⟨rfl, fun _ => rfl, fun _ => Or.inl rfl⟩

theorem Wakes.trans {v : Ptable} (first : Wakes t u) (second : Wakes u v) : Wakes t v where
  init := second.init.trans first.init
  rest q := (second.rest q).trans (first.rest q)
  state q := by
    rcases first.state q with same | ⟨slept, awake⟩
    · rw [← same]
      exact second.state q
    · refine Or.inr ⟨slept, ?_⟩
      rcases second.state q with same | ⟨sleeping, -⟩
      · exact same.trans awake
      · rw [awake] at sleeping
        cases sleeping

theorem Wakes.zombie (wakes : Wakes t u) (q : Nat) :
    (u.proc q).state = .zombie ↔ (t.proc q).state = .zombie := by
  rcases wakes.state q with same | ⟨slept, awake⟩
  · rw [same]
  · simp [slept, awake]

theorem Wakes.chan (wakes : Wakes t u) (q : Nat) :
    (u.proc q).chan = (t.proc q).chan :=
  congrArg (fun r => r.2.2.2.1) (wakes.rest q)

/-- A process that is still asleep was so before. -/
theorem Wakes.sleeping (wakes : Wakes t u) {q : Nat}
    (asleep : (u.proc q).state = .sleeping) : (t.proc q).state = .sleeping := by
  rcases wakes.state q with same | ⟨slept, -⟩
  · exact same.symm.trans asleep
  · exact slept

theorem wakeup1_wakes (chan : Chan) (t : Ptable) : Wakes t (wakeup1 chan t) where
  init := rfl
  rest q := by
    unfold wakeup1
    dsimp only
    split <;> rfl
  state q := by
    unfold wakeup1
    dsimp only
    split
    · rename_i waits
      exact Or.inr ⟨waits.1, rfl⟩
    · exact Or.inl rfl

theorem wakeup1_parent (chan : Chan) (t : Ptable) (q : Nat) :
    ((wakeup1 chan t).proc q).parent = (t.proc q).parent := by
  unfold wakeup1
  dsimp only
  split <;> rfl

/-- Nobody is left asleep on the channel. -/
theorem wakeup1_rouses (chan : Chan) (t : Ptable) (q : Nat) :
    ¬ (((wakeup1 chan t).proc q).state = .sleeping ∧ ((wakeup1 chan t).proc q).chan = some chan) := by
  unfold wakeup1
  dsimp only
  split
  · simp
  · assumption

theorem wakeParent_wakes (p : Nat) (t : Ptable) : Wakes t (wakeParent p t) := by
  unfold wakeParent
  split
  · exact .refl t
  · exact wakeup1_wakes _ t

theorem wakeParent_parent (p : Nat) (t : Ptable) (q : Nat) :
    ((wakeParent p t).proc q).parent = (t.proc q).parent := by
  unfold wakeParent
  split
  · rfl
  · exact wakeup1_parent _ t q

/-- The loop of `exit` after `n` slots. -/
structure Adopted (p n : Nat) (t u : Ptable) : Prop where
  wakes : Wakes t u
  parent : ∀ q, (u.proc q).parent =
    if q < n ∧ (t.proc q).parent = some p then some t.initproc else (t.proc q).parent
  roused : ∀ q < n, (t.proc q).parent = some p → (t.proc q).state = .zombie →
    ¬ ((u.proc t.initproc).state = .sleeping ∧
      (u.proc t.initproc).chan = some (.proc t.initproc))

theorem Adopted.pass {n : Nat} {v : Ptable} (adopted : Adopted p n t u) (wakes : Wakes u v)
    (parent : ∀ q, (v.proc q).parent =
      if q = n ∧ (t.proc q).parent = some p then some t.initproc else (u.proc q).parent)
    (roused : (t.proc n).parent = some p → (t.proc n).state = .zombie →
      ¬ ((v.proc t.initproc).state = .sleeping ∧
        (v.proc t.initproc).chan = some (.proc t.initproc))) : Adopted p (n + 1) t v where
  wakes := adopted.wakes.trans wakes
  parent q := by
    rw [parent, adopted.parent]
    grind
  roused q below child zombie := by
    rcases Nat.lt_succ_iff_lt_or_eq.mp below with before | rfl
    · intro asleep
      refine adopted.roused q before child zombie ⟨wakes.sleeping asleep.1, ?_⟩
      rw [← wakes.chan]
      exact asleep.2
    · exact roused child zombie

theorem adopted_adopt {n : Nat} (adopted : Adopted p n t u) :
    Adopted p (n + 1) t (adopt p u n) := by
  have here : (u.proc n).parent = (t.proc n).parent := by
    rw [adopted.parent, if_neg (by simp)]
  have passing : ∀ q, ((u.modify n fun proc => { proc with parent := some u.initproc }).proc q).parent =
      if q = n then some t.initproc else (u.proc q).parent := by
    intro q
    rw [modify_set Proc.parent u n q rfl, adopted.wakes.init]
  have still : Wakes u (u.modify n fun proc => { proc with parent := some u.initproc }) := by
    refine ⟨rfl, fun q => ?_, fun q => Or.inl ?_⟩
    · exact modify_field rest u n q rfl
    · exact modify_field Proc.state u n q rfl
  unfold adopt
  split
  · rename_i child
    rw [here] at child
    split
    · rename_i zombie
      refine adopted.pass (still.trans (wakeup1_wakes _ _)) ?_ ?_
      · intro q
        rw [wakeup1_parent, passing]
        grind
      · intro _ _
        rw [adopted.wakes.init]
        exact wakeup1_rouses _ _ _
    · rename_i living
      refine adopted.pass still ?_ ?_
      · intro q
        rw [passing]
        grind
      · intro _ zombie
        exact absurd ((adopted.wakes.zombie n).mpr zombie) living
  · rename_i other
    rw [here] at other
    refine adopted.pass (.refl u) ?_ ?_
    · intro q
      grind
    · intro child
      exact absurd child other

theorem adopted_reparent (p : Nat) (t : Ptable) : Adopted p nproc t (reparent p t) := by
  have turns : ∀ n, Adopted p n t ((List.range n).foldl (adopt p) t) := by
    intro n
    induction n with
    | zero => exact ⟨.refl t, by simp, by simp⟩
    | succ n ih =>
      rw [List.range_succ, List.foldl_append]
      exact adopted_adopt ih
  exact turns nproc

theorem adopt_nextpid (p q : Nat) (t : Ptable) : (adopt p t q).nextpid = t.nextpid := by
  unfold adopt
  split
  · dsimp only
    split <;> rfl
  · rfl

theorem exit_nextpid (p : Nat) (status : Int) (t : Ptable) : (exit p status t).nextpid = t.nextpid := by
  have parent : (wakeParent p t).nextpid = t.nextpid := by
    unfold wakeParent
    split <;> rfl
  have turns : ∀ (slots : List Nat) (u : Ptable), (slots.foldl (adopt p) u).nextpid = u.nextpid := by
    intro slots
    induction slots with
    | nil => intro u; rfl
    | cons q rest ih => intro u; rw [List.foldl_cons, ih, adopt_nextpid]
  rw [exit, modify_nextpid, reparent, turns, parent]

/-- What `exit` leaves behind. -/
structure Leaves (p : Nat) (status : Int) (t u : Ptable) : Prop where
  init : u.initproc = t.initproc
  zombie : (u.proc p).state = .zombie
  ret : (u.proc p).ret = status
  pid : ∀ q, (u.proc q).pid = (t.proc q).pid
  rest : ∀ q, q ≠ p → rest (u.proc q) = rest (t.proc q)
  state : ∀ q, q ≠ p → (u.proc q).state = (t.proc q).state ∨
    (t.proc q).state = .sleeping ∧ (u.proc q).state = .runnable
  parent : ∀ q, (u.proc q).parent =
    if q < nproc ∧ (t.proc q).parent = some p then some t.initproc else (t.proc q).parent
  /-- neither the parent nor, where it inherits a ZOMBIE, init stays asleep in `wait` -/
  roused : ∀ r, r ≠ p → (u.proc r).state = .sleeping → (u.proc r).chan = some (.proc r) →
    (t.proc p).parent ≠ some r ∧
      ∀ q < nproc, (t.proc q).parent = some p → (t.proc q).state = .zombie → r ≠ t.initproc

theorem wakeParent_rouses (p : Nat) (t : Ptable) {r : Nat} (parent : (t.proc p).parent = some r) :
    ¬ (((wakeParent p t).proc r).state = .sleeping ∧
      ((wakeParent p t).proc r).chan = some (.proc r)) := by
  unfold wakeParent
  rw [parent]
  exact wakeup1_rouses _ _ _

theorem leaves_of_adopted (status : Int) (adopted : Adopted p nproc (wakeParent p t) u) :
    Leaves p status t (u.modify p fun proc => { proc with state := .zombie, ret := status }) := by
  have first := wakeParent_wakes p t
  have wakes := first.trans adopted.wakes
  have others : ∀ q, q ≠ p →
      (u.modify p fun proc => { proc with state := .zombie, ret := status }).proc q = u.proc q :=
    fun q away => modify_other u _ away
  refine ⟨wakes.init, by rw [modify_same], by rw [modify_same], ?_, ?_, ?_, ?_, ?_⟩
  · intro q
    rw [modify_field Proc.pid u p q rfl]
    exact congrArg (fun r => r.2.1) (wakes.rest q)
  · intro q away
    rw [others q away]
    exact wakes.rest q
  · intro q away
    rw [others q away]
    exact wakes.state q
  · intro q
    rw [modify_field Proc.parent u p q rfl, adopted.parent, wakeParent_parent, first.init]
  · intro r away sleeping chan
    rw [others r away] at sleeping chan
    constructor
    · intro parent
      refine wakeParent_rouses p t parent ⟨adopted.wakes.sleeping sleeping, ?_⟩
      rw [← adopted.wakes.chan]
      exact chan
    · rintro q inside child zombie rfl
      refine adopted.roused q inside ?_ ((first.zombie q).mpr zombie) ?_
      · rw [wakeParent_parent, child]
      · rw [first.init]
        exact ⟨sleeping, chan⟩

theorem exit_leaves (p : Nat) (status : Int) (t : Ptable) : Leaves p status t (exit p status t) :=
  leaves_of_adopted status (adopted_reparent p (wakeParent p t))

end ColorXv6.Sched.Table
