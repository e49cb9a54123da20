import ColorXv6.Sched.SmpControl

/-!
A process runs on at most one CPU. Next to the control of the CPUs, the slots of
the table are accounted for: who forks into an EMBRYO, which slots have a kernel
stack, and that a pid is given once.
-/
namespace ColorXv6.Sched.SmpSafety
open Lib.Runs Lib.Slots Param Smp SmpControl
open Table (Ptable Prio Chan Wakes modify_same modify_other modify_field modify_set)
open Scheduler (Place)
open Vm.Process (ProcState)

variable {ι : Type} {s t : State ι} {c : ι} {p q : Nat}

/-! Pids, kernel stacks and the EMBRYOs of `fork`. -/

/-- The slot a process is forking into. -/
def Call.child : Call → Option Nat
  | .none => none
  | .found np | .stacked np | .linked np => some np

/-- The same, once it has its kernel stack. -/
def Call.stacked : Call → Option Nat
  | .none | .found _ => none
  | .stacked np | .linked np => some np

def State.pidOf (s : State ι) (p : Nat) : Int := (s.ptable.proc p).pid

def Alive (state : ProcState) : Prop := state ≠ .unused ∧ state ≠ .embryo

theorem alive_woken {before after : ProcState} (woken : before = .sleeping ∧ after = .runnable) :
    Alive before ∧ Alive after := by
  rw [woken.1, woken.2]
  exact ⟨⟨by simp, by simp⟩, by simp, by simp⟩

/-- A pid is given once. -/
structure Pids (s : State ι) : Prop where
  pid : ∀ p q, s.stateOf p ≠ .unused → s.stateOf q ≠ .unused → State.pidOf s p = State.pidOf s q → p = q
  below : ∀ p, s.stateOf p ≠ .unused → State.pidOf s p < s.ptable.nextpid

structure Tables (s : State ι) : Prop extends Pids s where
  child : ∀ p np, Call.child (s.call p) = some np → s.stateOf np = .embryo
  only : ∀ p q np, Call.child (s.call p) = some np → Call.child (s.call q) = some np → p = q
  stack : ∀ p, Alive (s.stateOf p) → s.kstack p = true
  childStack : ∀ p np, Call.stacked (s.call p) = some np → s.kstack np = true

/-- No process has come, and those that are left have their pids. -/
theorem Pids.keep (pids : Pids s)
    (used : ∀ q, t.stateOf q ≠ .unused → s.stateOf q ≠ .unused ∧ State.pidOf t q = State.pidOf s q)
    (nextpid : t.ptable.nextpid = s.ptable.nextpid) : Pids t := by
  constructor
  · intro q r first second same
    obtain ⟨usedQ, pidQ⟩ := used q first
    obtain ⟨usedR, pidR⟩ := used r second
    rw [pidQ, pidR] at same
    exact pids.pid q r usedQ usedR same
  · intro q here
    obtain ⟨before, pid⟩ := used q here
    rw [pid, nextpid]
    exact pids.below q before

section Tables
variable (tables : Tables s)
include tables

/-- A step in which no slot is taken or given back. -/
theorem Tables.keep (call : t.call = s.call) (kstack : t.kstack = s.kstack)
    (state : ∀ q, t.stateOf q = s.stateOf q ∨ Alive (s.stateOf q) ∧ Alive (t.stateOf q))
    (pid : ∀ q, State.pidOf t q = State.pidOf s q) (nextpid : t.ptable.nextpid = s.ptable.nextpid) :
    Tables t := by
  refine ⟨tables.toPids.keep ?_ nextpid, ?_, ?_, ?_, ?_⟩
  · intro q here
    refine ⟨?_, pid q⟩
    rcases state q with same | ⟨alive, -⟩
    · rwa [← same]
    · exact alive.1
  · intro p np forking
    rw [call] at forking
    have embryo := tables.child p np forking
    rcases state np with same | ⟨alive, -⟩
    · rw [same, embryo]
    · exact absurd embryo alive.2
  · rw [call]
    exact tables.only
  · intro q alive
    rw [kstack]
    refine tables.stack q ?_
    rcases state q with same | ⟨before, -⟩
    · rwa [← same]
    · exact before
  · rw [call, kstack]
    exact tables.childStack

/-- A slot is given back: by `wait`, or by a `fork` that fails. -/
theorem Tables.give_back (unused : t.stateOf q = .unused)
    (state : ∀ r, r ≠ q → t.stateOf r = s.stateOf r) (kstack : ∀ r, r ≠ q → t.kstack r = s.kstack r)
    (call : ∀ p, t.call p = s.call p ∨ t.call p = .none)
    (done : ∀ p, Call.child (t.call p) ≠ some q)
    (pid : ∀ r, r ≠ q → State.pidOf t r = State.pidOf s r)
    (nextpid : t.ptable.nextpid = s.ptable.nextpid) : Tables t := by
  have forking : ∀ {p np}, Call.child (t.call p) = some np → Call.child (s.call p) = some np ∧ np ≠ q := by
    intro p np child
    refine ⟨?_, fun self => done p (self ▸ child)⟩
    rcases call p with same | none
    · rwa [← same]
    · rw [none] at child
      cases child
  have other : ∀ {r}, t.stateOf r ≠ .unused → r ≠ q := by
    rintro r used rfl
    exact used unused
  refine ⟨tables.toPids.keep ?_ nextpid, ?_, ?_, ?_, ?_⟩
  · intro r used
    have apart := other used
    rw [state r apart] at used
    exact ⟨used, pid r apart⟩
  · intro p np child
    obtain ⟨before, apart⟩ := forking child
    rw [state np apart]
    exact tables.child p np before
  · intro p r np first second
    exact tables.only p r np (forking first).1 (forking second).1
  · intro r alive
    have apart := other alive.1
    rw [kstack r apart]
    rw [state r apart] at alive
    exact tables.stack r alive
  · intro p np stacked
    have child : Call.child (t.call p) = some np := by
      cases place : t.call p with
      | none | found => simp [place, Call.stacked] at stacked
      | stacked | linked => simpa [place, Call.stacked, Call.child] using stacked
    rw [kstack np (forking child).2]
    rcases call p with same | none
    · exact tables.childStack p np (same ▸ stacked)
    · rw [none] at stacked
      cases stacked

/-- `allocproc` takes an UNUSED slot. -/
theorem Tables.take (unused : s.stateOf q = .unused) (idle : s.call p = .none)
    (embryo : t.stateOf q = .embryo) (state : ∀ r, r ≠ q → t.stateOf r = s.stateOf r)
    (kstack : t.kstack = s.kstack) (call : t.call p = .found q)
    (calls : ∀ r, r ≠ p → t.call r = s.call r) (new : State.pidOf t q = s.ptable.nextpid)
    (pid : ∀ r, r ≠ q → State.pidOf t r = State.pidOf s r)
    (nextpid : t.ptable.nextpid = s.ptable.nextpid + 1) : Tables t := by
  have forking : ∀ {r np}, Call.child (t.call r) = some np →
      (r = p ∧ np = q) ∨ (r ≠ p ∧ np ≠ q ∧ Call.child (s.call r) = some np) := by
    intro r np child
    by_cases self : r = p
    · subst self
      rw [call] at child
      cases child
      exact Or.inl ⟨rfl, rfl⟩
    · rw [calls r self] at child
      refine Or.inr ⟨self, ?_, child⟩
      rintro rfl
      have embryo := tables.child r np child
      rw [unused] at embryo
      cases embryo
  have used : ∀ {r}, r ≠ q → t.stateOf r ≠ .unused →
      s.stateOf r ≠ .unused ∧ State.pidOf t r < s.ptable.nextpid := by
    intro r apart here
    rw [state r apart] at here
    exact ⟨here, pid r apart ▸ tables.below r here⟩
  refine ⟨⟨?_, ?_⟩, ?_, ?_, ?_, ?_⟩
  · intro r r' first second same
    by_cases self : r = q
    · by_cases self' : r' = q
      · rw [self, self']
      · have small := (used self' second).2
        rw [self, new] at same
        omega
    · by_cases self' : r' = q
      · have small := (used self first).2
        rw [self', new] at same
        omega
      · rw [pid r self, pid r' self'] at same
        exact tables.pid r r' (used self first).1 (used self' second).1 same
  · intro r here
    rw [nextpid]
    by_cases self : r = q
    · rw [self, new]
      omega
    · have small := (used self here).2
      omega
  · intro r np child
    rcases forking child with ⟨-, rfl⟩ | ⟨-, apart, before⟩
    · exact embryo
    · rw [state np apart]
      exact tables.child r np before
  · intro r r' np first second
    rcases forking first with ⟨rfl, rfl⟩ | ⟨-, apart, before⟩
    · rcases forking second with ⟨rfl, -⟩ | ⟨-, apart, -⟩
      · rfl
      · exact absurd rfl apart
    · rcases forking second with ⟨-, self⟩ | ⟨-, -, before'⟩
      · exact absurd self apart
      · exact tables.only r r' np before before'
  · intro r alive
    have apart : r ≠ q := by
      rintro rfl
      exact alive.2 embryo
    rw [kstack]
    rw [state r apart] at alive
    exact tables.stack r alive
  · intro r np stacked
    rw [kstack]
    by_cases self : r = p
    · rw [self, call] at stacked
      cases stacked
    · rw [calls r self] at stacked
      exact tables.childStack r np stacked

/-- `fork` goes on with its EMBRYO, which gets a kernel stack if it had none. -/
theorem Tables.advance (child : Call.child (s.call p) = some q)
    (still : Call.child (t.call p) = some q) (calls : ∀ r, r ≠ p → t.call r = s.call r)
    (state : ∀ r, t.stateOf r = s.stateOf r)
    (stack : Call.stacked (t.call p) ≠ none → t.kstack q = true)
    (kstack : ∀ r, s.kstack r = true → t.kstack r = true)
    (pid : ∀ r, State.pidOf t r = State.pidOf s r) (nextpid : t.ptable.nextpid = s.ptable.nextpid) :
    Tables t := by
  have forking : ∀ r, Call.child (t.call r) = Call.child (s.call r) := by
    intro r
    by_cases self : r = p
    · rw [self, still, child]
    · rw [calls r self]
  refine ⟨tables.toPids.keep (fun r here => ⟨state r ▸ here, pid r⟩) nextpid, ?_, ?_, ?_, ?_⟩
  · intro r np here
    rw [state]
    exact tables.child r np (forking r ▸ here)
  · intro r r' np first second
    exact tables.only r r' np (forking r ▸ first) (forking r' ▸ second)
  · intro r alive
    rw [state] at alive
    exact kstack r (tables.stack r alive)
  · intro r np stacked
    by_cases self : r = p
    · subst self
      have same : np = q := by
        cases place : t.call r with
        | none | found => simp [place, Call.stacked] at stacked
        | stacked m | linked m =>
          rw [place] at stacked still
          cases stacked
          cases still
          rfl
      rw [same]
      exact stack (by simp [stacked])
    · rw [calls r self] at stacked
      exact kstack np (tables.childStack r np stacked)

/-- The last piece of `fork` makes the child RUNNABLE. -/
theorem Tables.birth (child : s.call p = .linked q) (none : t.call p = .none)
    (calls : ∀ r, r ≠ p → t.call r = s.call r) (kstack : t.kstack = s.kstack)
    (state : ∀ r, r ≠ q → t.stateOf r = s.stateOf r) (pid : ∀ r, State.pidOf t r = State.pidOf s r)
    (nextpid : t.ptable.nextpid = s.ptable.nextpid) :
    Tables t := by
  have embryo := tables.child p q (by rw [child]; rfl)
  have forking : ∀ {r np}, Call.child (t.call r) = some np →
      r ≠ p ∧ np ≠ q ∧ Call.child (s.call r) = some np := by
    intro r np here
    have apart : r ≠ p := by
      rintro rfl
      rw [none] at here
      cases here
    rw [calls r apart] at here
    refine ⟨apart, ?_, here⟩
    rintro rfl
    exact apart (tables.only r p np here (by rw [child]; rfl))
  refine ⟨tables.toPids.keep ?_ nextpid, ?_, ?_, ?_, ?_⟩
  · intro r here
    refine ⟨?_, pid r⟩
    by_cases self : r = q
    · rw [self, embryo]
      simp
    · rwa [← state r self]
  · intro r np here
    obtain ⟨-, apart, before⟩ := forking here
    rw [state np apart]
    exact tables.child r np before
  · intro r r' np first second
    exact tables.only r r' np (forking first).2.2 (forking second).2.2
  · intro r alive
    rw [kstack]
    by_cases self : r = q
    · rw [self]
      exact tables.childStack p q (by rw [child]; rfl)
    · rw [state r self] at alive
      exact tables.stack r alive
  · intro r np stacked
    rw [kstack]
    have apart : r ≠ p := by
      rintro rfl
      rw [none] at stacked
      cases stacked
    rw [calls r apart] at stacked
    exact tables.childStack r np stacked

end Tables

theorem tables_boot : Tables (boot : State ι) := by
  have first : ∀ p, (boot : State ι).stateOf p ≠ .unused → p = 0 := by
    intro p used
    by_contra other
    refine used ?_
    show (if p = 0 then _ else _ : Table.Proc).state = .unused
    rw [if_neg other]
  refine ⟨⟨?_, ?_⟩, ?_, ?_, ?_, ?_⟩
  · intro p q usedP usedQ _
    rw [first p usedP, first q usedQ]
  · intro p used
    rw [first p used]
    show (1 : Int) < 2
    decide
  · intro p np child
    cases child
  · intro p q np child
    cases child
  · intro p alive
    show decide (p = 0) = true
    simpa using first p alive.1
  · intro p np stacked
    cases stacked

/-! One step. -/

/-- What every step from a good state keeps and respects. -/
structure Kept (s t : State ι) : Prop where
  control : Control t
  tables : Tables t
  /-- a CPU gets on a stack only when the process is RUNNABLE -/
  starts : ∀ d p, On t d p → On s d p ∨ s.stateOf p = .runnable
  /-- a kernel stack is freed only when no CPU is on it -/
  frees : ∀ q, s.kstack q = true → t.kstack q = false → ∀ d, ¬ On s d q

theorem starts_same (cpu : t.cpu = s.cpu) (d : ι) (p : Nat) (here : On t d p) :
    On s d p ∨ s.stateOf p = .runnable := by
  rw [On, cpu] at here
  exact Or.inl here

theorem frees_none (kstack : t.kstack = s.kstack) (q : Nat) (before : s.kstack q = true)
    (after : t.kstack q = false) (d : ι) : ¬ On s d q := by
  rw [kstack, before] at after
  cases after

variable {np : Nat}

section Steps
variable (control : Control s) (tables : Tables s)
include control tables

/-- The thread of `p` changes the table under the lock and comes to another stage; no slot is given
back. -/
theorem kept_stage (f : Ptable → Ptable) (stage : Stage) (lock : Option ι) (here : On s c p)
    (held : s.lock = none ∨ s.lock = some c)
    (hosted : Hosted ((f s.ptable).proc p).state stage (lock = some c))
    (state : ∀ q, q ≠ p → ((f s.ptable).proc q).state = (s.ptable.proc q).state ∨
      (s.ptable.proc q).state = .sleeping ∧ ((f s.ptable).proc q).state = .runnable)
    (pid : ∀ q, ((f s.ptable).proc q).pid = (s.ptable.proc q).pid)
    (nextpid : (f s.ptable).nextpid = s.ptable.nextpid) :
    Kept s (((s.onTable f).setStage p stage).setLock lock) where
  control := by
    refine control.thread_step here rfl held ?_ (fun q other => Function.update_of_ne other ..)
      fun q other => (state q other).imp_right Or.inl
    show Hosted ((f s.ptable).proc p).state (Function.update s.stage p stage p) _
    rwa [Function.update_self]
  tables := by
    refine tables.keep rfl rfl ?_ pid nextpid
    intro q
    by_cases self : q = p
    · subst self
      obtain ⟨back, here⟩ := here
      exact Or.inr ⟨(control.on c q back here).2.2.alive, hosted.alive⟩
    · exact (state q self).imp_right alive_woken
  starts := starts_same rfl
  frees := frees_none rfl

/-- The same with the table as it was. -/
theorem kept_move (stage : Stage) (lock : Option ι) (here : On s c p)
    (held : s.lock = none ∨ s.lock = some c) (hosted : Hosted (s.stateOf p) stage (lock = some c)) :
    Kept s ((s.setStage p stage).setLock lock) :=
  kept_stage control tables id stage lock here held hosted (fun _ _ => Or.inl rfl) (fun _ => rfl) rfl

/-- `wait` gives the slot of a ZOMBIE back. -/
theorem kept_reap (here : On s c p)
    (mine : s.lock = some c) (running : s.stateOf p = .running) (zombie : s.stateOf q = .zombie) :
    Kept s ((((s.onTable (Table.reap q)).setKstack q false).setStage p .running).setLock none) := by
  have other : q ≠ p := by
    rintro rfl
    rw [running] at zombie
    cases zombie
  have state : ∀ r, ((Table.reap q s.ptable).proc r).state =
      if r = q then .unused else (s.ptable.proc r).state :=
    fun r => modify_set Table.Proc.state s.ptable q r rfl
  constructor
  · refine control.thread_step here rfl (Or.inr mine) ?_ (fun r apart => Function.update_of_ne apart ..) ?_
    · show Hosted ((Table.reap q s.ptable).proc p).state (Function.update s.stage p .running p) _
      rw [Function.update_self, state, if_neg (Ne.symm other)]
      exact running
    · intro r _
      show Passive _ ((Table.reap q s.ptable).proc r).state
      rw [state]
      by_cases self : r = q
      · rw [if_pos self, self]
        exact Or.inr (Or.inr ⟨zombie, rfl⟩)
      · rw [if_neg self]
        exact Or.inl rfl
  · refine tables.give_back (q := q) ?_ ?_ (fun r apart => Function.update_of_ne apart ..)
      (fun _ => Or.inl rfl) ?_ ?_ rfl
    · exact (state q).trans (if_pos rfl)
    · exact fun r apart => (state r).trans (if_neg apart)
    · intro r child
      have embryo := tables.child r q child
      rw [zombie] at embryo
      cases embryo
    · intro r apart
      have same : (Table.reap q s.ptable).proc r = s.ptable.proc r := modify_other s.ptable _ apart
      exact congrArg Table.Proc.pid same
  · exact starts_same rfl
  · intro r before after
    have self : r = q := by
      by_contra apart
      have same : Function.update s.kstack q false r = s.kstack r := Function.update_of_ne apart ..
      have now : s.kstack r = false := same.symm.trans after
      rw [before] at now
      cases now
    rw [self]
    exact control.not_on_waiting (unlocked_of_here (Or.inr mine) here other) (by simp [zombie])

/-- The loop of `wait`. -/
theorem kept_scan (here : On s c p)
    (mine : s.lock = some c) (running : s.stateOf p = .running) : Kept s (scan s p p) := by
  unfold scan
  split
  · rename_i q found
    have zombie : (s.ptable.proc q).parent = some p ∧ (s.ptable.proc q).state = .zombie := by
      simpa using (firstSlot_some found).2
    exact kept_reap control tables here mine running zombie.2
  · split
    · exact kept_move control tables .running none here (Or.inr mine) running
    · have state := sleep_state s.ptable p (.proc p)
      refine kept_stage control tables (Table.sleep p (.proc p)) (.leaving .wait) s.lock here
        (Or.inr mine) ?_ (fun q other => Or.inl ((state q).trans (if_neg other)))
        (sleep_pid s.ptable p (.proc p)) rfl
      rw [state, if_pos rfl]
      exact ⟨Or.inr ⟨Or.inr rfl, by simp⟩, mine⟩

/-- What follows `sched`. -/
theorem kept_resume {k : Resume} (here : On s c p)
    (mine : s.lock = some c) (running : s.stateOf p = .running) (result : resume s p p k = some t) :
    Kept s t := by
  have state : ∀ q, ((clearChan p s.ptable).proc q).state = (s.ptable.proc q).state :=
    fun q => modify_field Table.Proc.state s.ptable p q rfl
  have pid : ∀ q, ((clearChan p s.ptable).proc q).pid = (s.ptable.proc q).pid :=
    fun q => modify_field Table.Proc.pid s.ptable p q rfl
  cases k with
  | yield | forkret =>
    cases result
    exact kept_move control tables .running none here (Or.inr mine) running
  | sleep =>
    cases result
    refine kept_stage control tables (clearChan p) .running none here (Or.inr mine) ?_
      (fun q _ => Or.inl (state q)) pid rfl
    rw [state]
    exact running
  | wait =>
    cases result
    refine kept_stage control tables (clearChan p) .scanning s.lock here (Or.inr mine) ?_
      (fun q _ => Or.inl (state q)) pid rfl
    rw [state]
    exact ⟨running, mine⟩
  | exit => cases result

/-- A wakeup, of whatever kind, while the lock is free. -/
theorem kept_rouse {f : Ptable → Ptable} (free : s.lock = none)
    (state : ∀ q, ((f s.ptable).proc q).state = (s.ptable.proc q).state ∨
      (s.ptable.proc q).state = .sleeping ∧ ((f s.ptable).proc q).state = .runnable)
    (pid : ∀ q, ((f s.ptable).proc q).pid = (s.ptable.proc q).pid)
    (nextpid : (f s.ptable).nextpid = s.ptable.nextpid) : Kept s (s.onTable f) where
  control := control.rouse free rfl rfl rfl fun q => (state q).imp_right Or.inl
  tables := tables.keep rfl rfl (fun q => (state q).imp_right alive_woken) pid nextpid
  starts := starts_same rfl
  frees := frees_none rfl

theorem kept_wakeup (free : s.lock = none) (chan : Chan) :
    Kept s (s.onTable (Table.wakeup1 chan)) := by
  have wakes := Table.wakeup1_wakes chan s.ptable
  exact kept_rouse control tables free wakes.state (fun q => congrArg (fun r => r.2.1) (wakes.rest q)) rfl

theorem kept_kill (free : s.lock = none) (pid : Int) :
    Kept s (s.onTable (Table.kill pid)) := by
  unfold Table.kill
  refine kept_rouse control tables free ?_ ?_ ?_
  · intro q
    split
    · exact Or.inl rfl
    · rename_i p found
      by_cases self : q = p
      · subst self
        rw [modify_same]
        by_cases sleeping : (s.ptable.proc q).state = .sleeping
        · exact Or.inr ⟨sleeping, if_pos sleeping⟩
        · exact Or.inl (if_neg sleeping)
      · rw [modify_other _ _ self]
        exact Or.inl rfl
  · intro q
    split
    · rfl
    · rename_i p found
      exact modify_field Table.Proc.pid s.ptable p q rfl
  · split <;> rfl

theorem kept_setprio (free : s.lock = none) (pid : Int)
    (prio : Prio) : Kept s (s.onTable (Table.setprocprio pid prio)) := by
  unfold Table.setprocprio
  refine kept_rouse control tables free ?_ ?_ ?_
  · intro q
    split
    · exact Or.inl rfl
    · rename_i p found
      exact Or.inl (modify_field Table.Proc.state s.ptable p q rfl)
  · intro q
    split
    · rfl
    · rename_i p found
      exact modify_field Table.Proc.pid s.ptable p q rfl
  · split <;> rfl

/-- `exit`, up to `swtch`. -/
theorem kept_exit (here : On s c p) (free : s.lock = none)
    (status : Int) :
    Kept s (((s.onTable (Table.exit p status)).setStage p (.leaving .exit)).setLock (some c)) := by
  have leaves := Table.exit_leaves p status s.ptable
  refine kept_stage control tables (Table.exit p status) _ _ here (Or.inl free) ?_ leaves.state
    leaves.pid (Table.exit_nextpid p status s.ptable)
  rw [leaves.zombie]
  exact ⟨Or.inl rfl, rfl⟩

theorem kept_yield (here : On s c p) (free : s.lock = none) :
    Kept s (((s.onTable (Table.setState p .runnable)).setStage p (.leaving .yield)).setLock (some c)) := by
  have state := setState_state s.ptable p .runnable
  refine kept_stage control tables (Table.setState p .runnable) _ _ here (Or.inl free) ?_
    (fun q other => Or.inl ((state q).trans (if_neg other))) (setState_pid s.ptable p .runnable) rfl
  rw [state, if_pos rfl]
  exact ⟨Or.inr ⟨Or.inl rfl, by simp⟩, rfl⟩

theorem kept_sleep (here : On s c p) (free : s.lock = none)
    (chan : Chan) :
    Kept s (((s.onTable (Table.sleep p chan)).setStage p (.leaving .sleep)).setLock (some c)) := by
  have state := sleep_state s.ptable p chan
  refine kept_stage control tables (Table.sleep p chan) _ _ here (Or.inl free) ?_
    (fun q other => Or.inl ((state q).trans (if_neg other))) (sleep_pid s.ptable p chan) rfl
  rw [state, if_pos rfl]
  exact ⟨Or.inr ⟨Or.inr rfl, by simp⟩, rfl⟩

/-! The pieces of `fork`. -/

theorem kept_forkAlloc {ptable : Ptable} (idle : s.call p = .none)
    (found : Table.allocproc s.ptable = some (np, ptable)) :
    Kept s ({ s with ptable }.setCall p (.found np)) := by
  unfold Table.allocproc at found
  split at found
  · cases found
  · rename_i slot free
    cases found
    have unused : (s.ptable.proc np).state = .unused := by simpa using (firstSlot_some free).2
    let table := s.ptable.modify np fun proc => { proc with state := .embryo, pid := s.ptable.nextpid }
    have state : ∀ r, (table.proc r).state = if r = np then .embryo else (s.ptable.proc r).state :=
      fun r => modify_set Table.Proc.state s.ptable np r rfl
    have pid : ∀ r, (table.proc r).pid = if r = np then s.ptable.nextpid else (s.ptable.proc r).pid :=
      fun r => modify_set Table.Proc.pid s.ptable np r rfl
    refine ⟨?_, ?_, starts_same rfl, frees_none rfl⟩
    · refine control.child_step (q := np) rfl rfl (Or.inl unused) ?_ (fun _ _ => rfl)
        (fun r apart => (state r).trans (if_neg apart))
      show Parked (table.proc np).state _
      rw [state, if_pos rfl]
      exact ⟨by simp, by simp⟩
    · exact tables.take unused idle ((state np).trans (if_pos rfl))
        (fun r apart => (state r).trans (if_neg apart)) rfl (Function.update_self ..)
        (fun r apart => Function.update_of_ne apart ..) ((pid np).trans (if_pos rfl))
        (fun r apart => (pid r).trans (if_neg apart)) rfl

theorem kept_forkStack
    (found : s.call p = .found np) : Kept s ((s.setKstack np true).setCall p (.stacked np)) := by
  have grows : ∀ r, s.kstack r = true → Function.update s.kstack np true r = true := by
    intro r before
    by_cases self : r = np
    · rw [self, Function.update_self]
    · rw [Function.update_of_ne self, before]
  refine ⟨?_, ?_, starts_same rfl, ?_⟩
  · exact control.keep rfl (Or.inl rfl) fun q => control.slot_same rfl rfl fun _ _ held => held
  · refine tables.advance (p := p) (q := np) (by rw [found]; rfl) ?_
      (fun r apart => Function.update_of_ne apart ..) (fun _ => rfl) (fun _ => Function.update_self ..)
      grows (fun _ => rfl) rfl
    show Call.child (Function.update s.call p (.stacked np) p) = some np
    rw [Function.update_self]
    rfl
  · intro q before after
    rw [show ((s.setKstack np true).setCall p (.stacked np)).kstack q = true from grows q before] at after
    cases after

/-- A `fork` that fails gives its EMBRYO back, with the kernel stack it may have. -/
theorem kept_forkFail {kstack : Nat → Bool} (child : Call.child (s.call p) = some np)
    (others : ∀ r, r ≠ np → kstack r = s.kstack r) :
    Kept s ({ s.onTable (Table.setState np .unused) with kstack }.setCall p .none) := by
  have embryo := tables.child p np child
  have state := setState_state s.ptable np .unused
  refine ⟨?_, ?_, starts_same rfl, ?_⟩
  · refine control.child_step (q := np) rfl rfl (Or.inr embryo) ?_ (fun _ _ => rfl)
      (fun r apart => (state r).trans (if_neg apart))
    show Parked ((Table.setState np .unused s.ptable).proc np).state _
    rw [state, if_pos rfl]
    exact ⟨by simp, by simp⟩
  · refine tables.give_back (q := np) ((state np).trans (if_pos rfl))
      (fun r apart => (state r).trans (if_neg apart)) others ?_ ?_
      (fun r _ => setState_pid s.ptable np .unused r) rfl
    · intro r
      show Function.update s.call p .none r = s.call r ∨ Function.update s.call p .none r = .none
      by_cases self : r = p
      · rw [self, Function.update_self]
        exact Or.inr rfl
      · rw [Function.update_of_ne self]
        exact Or.inl rfl
    · intro r
      show Call.child (Function.update s.call p .none r) ≠ some np
      by_cases self : r = p
      · rw [self, Function.update_self]
        simp [Call.child]
      · rw [Function.update_of_ne self]
        exact fun forking => self (tables.only r p np forking child)
  · intro q before after
    have self : q = np := by
      by_contra apart
      have now : s.kstack q = false := (others q apart).symm.trans after
      rw [before] at now
      cases now
    rw [self]
    exact control.not_on_dead (Or.inr embryo)

theorem kept_forkLink {parent : Option Nat} (stacked : s.call p = .stacked np) :
    Kept s ((s.onTable fun t => t.modify np fun proc => { proc with parent }).setCall p (.linked np)) := by
  let table := s.ptable.modify np fun proc => { proc with parent }
  have state : ∀ r, (table.proc r).state = (s.ptable.proc r).state :=
    fun r => modify_field Table.Proc.state s.ptable np r rfl
  have pid : ∀ r, (table.proc r).pid = (s.ptable.proc r).pid :=
    fun r => modify_field Table.Proc.pid s.ptable np r rfl
  refine ⟨?_, ?_, starts_same rfl, frees_none rfl⟩
  · exact control.keep rfl (Or.inl rfl) fun q => control.slot_same (state q) rfl fun _ _ held => held
  · refine tables.advance (p := p) (q := np) (by rw [stacked]; rfl) ?_
      (fun r apart => Function.update_of_ne apart ..) state
      (fun _ => tables.childStack p np (by rw [stacked]; rfl)) (fun _ before => before) pid rfl
    show Call.child (Function.update s.call p (.linked np) p) = some np
    rw [Function.update_self]
    rfl

theorem kept_forkRun {prio : Prio} (linked : s.call p = .linked np) :
    Kept s (((s.onTable fun t => t.modify np fun proc => { proc with prio, state := .runnable }).setStage
      np (.saved .forkret)).setCall p .none) := by
  let table := s.ptable.modify np fun proc => { proc with prio, state := .runnable }
  have state : ∀ r, (table.proc r).state = if r = np then .runnable else (s.ptable.proc r).state :=
    fun r => modify_set Table.Proc.state s.ptable np r rfl
  have pid : ∀ r, (table.proc r).pid = (s.ptable.proc r).pid :=
    fun r => modify_field Table.Proc.pid s.ptable np r rfl
  have embryo := tables.child p np (by rw [linked]; rfl)
  refine ⟨?_, ?_, starts_same rfl, frees_none rfl⟩
  · refine control.child_step (q := np) rfl rfl (Or.inr embryo) ?_
      (fun r apart => Function.update_of_ne apart ..) (fun r apart => (state r).trans (if_neg apart))
    show Parked (table.proc np).state (Function.update s.stage np (.saved .forkret) np)
    rw [state, if_pos rfl, Function.update_self]
    exact ⟨by simp, fun _ => ⟨.forkret, rfl, by simp⟩⟩
  · exact tables.birth linked (Function.update_self ..) (fun r apart => Function.update_of_ne apart ..)
      rfl (fun r apart => (state r).trans (if_neg apart)) pid rfl

theorem Kept.refl : Kept s s :=
  ⟨control, tables, starts_same rfl, frees_none rfl⟩

/-- What a thread outside the lock does. -/
theorem kept_calls {act : Act} (here : On s c p) (running : s.stateOf p = .running)
    (result : calls s c p p act = some t) : Kept s t := by
  cases act <;> simp only [calls] at result
  case run => cases result
  case forkAlloc =>
    split at result
    · rename_i idle
      split at result
      · cases result
        exact .refl control tables
      · rename_i np ptable found
        obtain ⟨-, rfl⟩ := guarded result
        exact kept_forkAlloc control tables idle.2 found
    · cases result
  case forkStack =>
    split at result
    · rename_i np found
      cases result
      exact kept_forkStack control tables found
    · cases result
  case forkFail =>
    split at result
    · rename_i np found
      cases result
      exact kept_forkFail control tables (by rw [found]; rfl) (fun _ _ => rfl)
    · rename_i np stacked
      cases result
      exact kept_forkFail control tables (by rw [stacked]; rfl)
        (fun r apart => Function.update_of_ne apart ..)
    · cases result
  case forkLink =>
    split at result
    · rename_i np stacked
      cases result
      exact kept_forkLink control tables stacked
    · cases result
  case forkRun =>
    split at result
    · rename_i np linked
      obtain ⟨-, rfl⟩ := guarded result
      exact kept_forkRun control tables linked
    · cases result
  -- the others are one piece under the lock
  all_goals
    split at result
    on_goal 2 => cases result
    rename_i may
    cases result
  case yield => exact kept_yield control tables here may
  case exit status => exact kept_exit control tables here may.1 status
  case wait => exact kept_move control tables .scanning (some c) here (Or.inl may.1) ⟨running, rfl⟩
  case sleep addr => exact kept_sleep control tables here may.1 (.other addr)
  case wakeup chan => exact kept_wakeup control tables may chan
  case kill pid => exact kept_kill control tables may pid
  case setprio pid prio => exact kept_setprio control tables may pid prio

variable [DecidableEq ι]

omit control tables in
/-- CPU `c` has left the stack it was on, if any. -/
theorem starts_off {cpu : Cpu} (update : t.cpu = Function.update s.cpu c cpu)
    (off : ∀ p back, cpu.at_ ≠ .on p back) (d : ι) (p : Nat) (here : On t d p) :
    On s d p ∨ s.stateOf p = .runnable := by
  obtain ⟨back, here⟩ := here
  rw [update] at here
  by_cases self : d = c
  · rw [self, Function.update_self] at here
    exact absurd here (off p back)
  · rw [Function.update_of_ne self] at here
    exact Or.inl ⟨back, here⟩

theorem kept_loop {place : Place} (away : ∀ q, ¬ On s c q)
    (held : s.lock = none ∨ s.lock = some c)
    (cpu : t.cpu = Function.update s.cpu c { proc := none, at_ := .sched place })
    (lock : t.lock = if place = .top then none else some c) (ptable : t.ptable = s.ptable)
    (stage : t.stage = s.stage) (call : t.call = s.call) (kstack : t.kstack = s.kstack) : Kept s t where
  control := control.loop away cpu held lock (fun q => by rw [State.stateOf, ptable]; rfl) stage
  tables := tables.keep call kstack (fun q => Or.inl (by rw [State.stateOf, ptable]; rfl))
    (fun q => by rw [State.pidOf, ptable]; rfl) (by rw [ptable])
  starts := starts_off cpu (by simp)
  frees := frees_none kstack

theorem kept_dispatch {back : Place}
    (away : ∀ q, ¬ On s c q) (held : s.lock = some c) (inside : back ≠ .top)
    (ready : s.stateOf p = .runnable) : Kept s (dispatch s c p back) where
  control := control.dispatch away held inside ready
  tables := by
    refine tables.keep rfl rfl ?_ (setState_pid s.ptable p .running) rfl
    intro q
    have state : (dispatch s c p back).stateOf q = if q = p then .running else s.stateOf q :=
      setState_state s.ptable p .running q
    by_cases self : q = p
    · subst self
      rw [state, if_pos rfl, ready]
      exact Or.inr ⟨⟨by simp, by simp⟩, by simp, by simp⟩
    · rw [state, if_neg self]
      exact Or.inl rfl
  starts := by
    rintro d q ⟨back', here⟩
    by_cases self : d = c
    · subst self
      have now : (dispatch s d p back).cpu d = { proc := some p, at_ := .on p back } :=
        Function.update_self ..
      rw [now] at here
      cases here
      exact Or.inr ready
    · have now : (dispatch s c p back).cpu d = s.cpu d := Function.update_of_ne self ..
      rw [now] at here
      exact Or.inl ⟨back', here⟩
  frees := frees_none rfl

/-- A turn of the scheduler. -/
theorem kept_look {place : Place}
    (here : (s.cpu c).at_ = .sched place) (result : look s c (s.cpu c) place = some t) : Kept s t := by
  obtain ⟨proc, held⟩ := control.sched c place here
  have away : ∀ q, ¬ On s c q := by
    rintro q ⟨back, there⟩
    rw [here] at there
    cases there
  have loop : ∀ (place' : Place) (lock : Option ι), lock = (if place' = .top then none else some c) →
      s.lock = none ∨ s.lock = some c →
      Kept s ((s.setCpu c { s.cpu c with at_ := .sched place' }).setLock lock) := by
    intro place' lock fits may
    refine kept_loop control tables away may ?_ fits rfl rfl rfl rfl
    show Function.update s.cpu c (Cpu.mk (s.cpu c).proc (.sched place')) = _
    rw [proc]
  have stay : ∀ place' : Place, place' ≠ .top → s.lock = some c →
      Kept s (s.setCpu c { s.cpu c with at_ := .sched place' }) := by
    intro place' inside mine
    have kept := loop place' (some c) (by rw [if_neg inside]) (Or.inr mine)
    rwa [← mine] at kept
  cases place with
  | top =>
    obtain ⟨free, rfl⟩ := guarded result
    exact loop (.scan 0 0 none) (some c) (by simp) (Or.inl free)
  | scan i nalta pnormal =>
    have mine := held (by simp)
    simp only [look] at result
    split at result
    · split at result
      · cases result
        exact stay _ (by simp) mine
      · rename_i ready
        rw [ne_eq, not_not] at ready
        split at result
        · cases result
          exact kept_dispatch control tables away mine (by simp) ready
        · cases result
          exact stay _ (by simp) mine
    · split at result
      · cases result
        exact stay _ (by simp) mine
      · cases result
        exact loop .top none rfl (Or.inr mine)
  | second i =>
    have mine := held (by simp)
    simp only [look] at result
    split at result
    · split at result
      · cases result
        exact stay _ (by simp) mine
      · rename_i ready
        rw [ne_eq, not_not] at ready
        cases result
        exact kept_dispatch control tables away mine (by simp) ready
    · cases result
      exact loop .top none rfl (Or.inr mine)

theorem kept_proceed (result : proceed s c = some t) :
    Kept s t := by
  unfold proceed at result
  split at result
  · rename_i place here
    exact kept_look control tables here result
  · rename_i place here
    cases result
    obtain ⟨inside, mine⟩ := control.returned c place here
    refine kept_loop control tables ?_ (Or.inr mine) rfl ?_ rfl rfl rfl rfl
    · rintro q ⟨back, there⟩
      rw [here] at there
      cases there
    · rw [if_neg inside]
      exact mine
  · rename_i p back here
    obtain ⟨-, proc, hosted⟩ := control.on c p back here
    rw [proc] at result
    split at result
    · rename_i k same leaving
      cases result
      have cpu : ((s.setCpu c { s.cpu c with at_ := .returned back }).setStage p (.saved k)).cpu =
          Function.update s.cpu c { s.cpu c with at_ := .returned back } := rfl
      refine ⟨control.swtch here leaving rfl rfl rfl rfl, ?_, starts_off cpu (by simp), frees_none rfl⟩
      exact tables.keep rfl rfl (fun _ => Or.inl rfl) (fun _ => rfl) rfl
    · rename_i k same resumed
      cases same
      rw [resumed] at hosted
      exact kept_resume control tables ⟨back, here⟩ hosted.2.2 hosted.1 result
    · rename_i same scanning
      cases same
      rw [scanning] at hosted
      cases result
      exact kept_scan control tables ⟨back, here⟩ hosted.2 hosted.1
    · cases result

theorem kept_step {act : ι × Act} (step : Step s act t) :
    Kept s t := by
  unfold Step next at step
  split at step
  · exact kept_proceed control tables step
  · rename_i chan _ _
    obtain ⟨free, rfl⟩ := guarded step
    exact kept_wakeup control tables free chan
  · cases step
  · rename_i p curproc found _
    unfold thread at found
    split at found
    · rename_i p' back here
      obtain ⟨-, proc, hosted⟩ := control.on act.1 p' back here
      rw [proc] at found
      cases found
      split at step
      · rename_i outside
        rw [outside] at hosted
        exact kept_calls control tables ⟨back, here⟩ hosted step
      · cases step
    · cases found

end Steps

/-! Every run. -/

variable [DecidableEq ι]

/-- What holds in a state, and of every step from it. -/
structure OneCpu (s : State ι) : Prop where
  running : s.lock = none → ∀ p, s.stateOf p = .running ↔ ∃! c, (s.cpu c).proc = some p
  waiting : s.lock = none → ∀ p, s.stateOf p ≠ .running → ∀ c, (s.cpu c).proc ≠ some p
  pids : ∀ p q, s.stateOf p ≠ .unused → s.stateOf q ≠ .unused → State.pidOf s p = State.pidOf s q → p = q
  /-- a CPU gets on the stack of a process only when this is RUNNABLE -/
  dispatches : ∀ act t, Step s act t → ∀ c p, On t c p → On s c p ∨ s.stateOf p = .runnable
  /-- a kernel stack that is freed is one that no CPU is on -/
  frees : ∀ act t, Step s act t → ∀ p, s.kstack p = true → t.kstack p = false → ∀ c, ¬ On s c p

theorem oneCpu_of_invariants (control : Control s) (tables : Tables s) : OneCpu s where
  running := by
    intro free p
    rw [control.running_iff free]
    constructor
    · rintro ⟨c, here⟩
      refine ⟨c, (control.proc_iff free c p).mpr here, ?_⟩
      intro d proc
      exact control.unique d c p ((control.proc_iff free d p).mp proc) here
    · rintro ⟨c, proc, -⟩
      exact ⟨c, (control.proc_iff free c p).mp proc⟩
  waiting := by
    intro free p waiting c proc
    exact waiting ((control.running_iff free p).mpr ⟨c, (control.proc_iff free c p).mp proc⟩)
  pids := tables.pid
  dispatches := fun _ _ step => (kept_step control tables step).starts
  frees := fun _ _ step => (kept_step control tables step).frees

/-- However many CPUs there are and however they interleave, a process runs on at most one. -/
theorem runs_on_one_cpu {acts : List (ι × Act)} (run : Run Step boot acts s) : OneCpu s := by
  have invariants : Control s ∧ Tables s :=
    run.preserves (fun s => Control s ∧ Tables s)
      (fun _ _ _ before step =>
        ⟨(kept_step before.1 before.2 step).control, (kept_step before.1 before.2 step).tables⟩)
      ⟨control_boot, tables_boot⟩
  exact oneCpu_of_invariants invariants.1 invariants.2

/-- The first CPU switches to init, which forks; the second switches to the child. -/
def twoCpus : List (Bool × Act) :=
  List.replicate 68 (false, .run) ++
    [(false, .forkAlloc), (false, .forkStack), (false, .forkLink), (false, .forkRun)] ++
    List.replicate 68 (true, .run)

theorem runs_on_one_cpu_two_cpus :
    ∃ s : State Bool, Run Step boot twoCpus s ∧ s.lock = none ∧ (s.cpu false).proc = some 0 ∧
      (s.cpu true).proc = some 1 ∧ OneCpu s := by
  obtain ⟨s, run, test⟩ := execute_exists (fun s (act : Bool × Act) => next s act.1 act.2) boot twoCpus
    (fun s => s.lock = none ∧ (s.cpu false).proc = some 0 ∧ (s.cpu true).proc = some 1)
    (by decide +kernel)
  obtain ⟨free, first, second⟩ : s.lock = none ∧ (s.cpu false).proc = some 0 ∧
      (s.cpu true).proc = some 1 := by simpa using test
  exact ⟨s, run, free, first, second, runs_on_one_cpu run⟩

end ColorXv6.Sched.SmpSafety
