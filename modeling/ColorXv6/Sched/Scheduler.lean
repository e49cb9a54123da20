import ColorXv6.Sched.Table

/-!
`scheduler` on one CPU. It holds `ptable.lock` except while a process runs and between two
passes, where interrupts are let in. A process that runs does what it likes with the table
until it is no longer RUNNING.
-/
namespace ColorXv6.Sched.Scheduler
open Lib.Runs Lib.Slots Param Table
open Vm.Process (ProcState)

/-- Where the loop is: outside the lock, at slot `i` of the first loop with what it has counted
and remembered, or at slot `i` of the second. -/
inductive Place where
  | top
  | scan (i nalta : Nat) (pnormal : Option Nat)
  | second (i : Nat)
deriving DecidableEq, Repr

/-- `cur` is the running process; the loop goes on from `place` when it is done. -/
structure Cpu where
  sys : State
  place : Place
  cur : Option Nat

inductive Action where
  /-- `acquire` at the top of a pass -/
  | enter
  /-- one turn of a loop, up to the switch -/
  | look
  /-- the running process, or an interrupt -/
  | act (a : Act)
deriving DecidableEq

def Cpu.stateOf (s : Cpu) (q : Nat) : ProcState := (s.sys.ptable.proc q).state

def Cpu.prioOf (s : Cpu) (q : Nat) : Prio := (s.sys.ptable.proc q).prio

/-- Control is back in the scheduler when the process is not RUNNING any more. -/
def settle (s : Cpu) (p : Nat) : Cpu := { s with cur := if s.stateOf p = .running then some p else none }

def switchTo (s : Cpu) (p : Nat) (place : Place) : Option Cpu :=
  (Table.next s.sys (.schedule p)).map fun sys => settle { sys, place, cur := none } p

def look (s : Cpu) : Option Cpu :=
  match s.place with
  | .top => none
  | .scan i nalta pnormal =>
    if i < nproc then
      if s.stateOf i ≠ .runnable then some { s with place := .scan (i + 1) nalta pnormal }
      else if s.prioOf i = .high then switchTo s i (.scan (i + 1) (nalta + 1) pnormal)
      else some { s with place := .scan (i + 1) nalta (pnormal.or (some i)) }
    else
      match nalta, pnormal with
      | 0, some q => some { s with place := .second q }
      | _, _ => some { s with place := .top }
  | .second i =>
    if i < nproc then
      if s.stateOf i ≠ .runnable then some { s with place := .second (i + 1) }
      else switchTo s i (.second (i + 1))
    else some { s with place := .top }

/-- Whether process `p` is the one that does this, or it may happen while `p` runs. -/
def doneBy (p : Nat) : Act → Bool
  | .schedule _ => false
  | .yield q | .forkAlloc q | .forkFail q | .forkLink q | .forkRun q | .exit q _ | .wait q
  | .sleep q _ => q = p
  | .wakeup _ | .kill _ | .setprio _ _ => true

def isWakeup : Act → Bool
  | .wakeup _ => true
  | _ => false

def next (s : Cpu) (action : Action) : Option Cpu :=
  match s.cur with
  | some p =>
    match action with
    | .act a =>
      if doneBy p a then (Table.next s.sys a).map fun sys => settle { s with sys } p else none
    | _ => none
  | none =>
    match action with
    | .enter => if s.place = .top then some { s with place := .scan 0 0 none } else none
    | .look => look s
    | .act a =>
      if s.place = .top ∧ isWakeup a then (Table.next s.sys a).map fun sys => { s with sys }
      else none

def Step (s : Cpu) (action : Action) (t : Cpu) : Prop := next s action = some t

/-- Any process table, nobody running. -/
def start (sys : State) : Cpu := { sys, place := .top, cur := none }

/-- The process the next turn switches to. -/
def target (s : Cpu) : Option Nat :=
  match s.cur, s.place with
  | none, .scan i _ _ =>
    if i < nproc ∧ s.stateOf i = .runnable ∧ s.prioOf i = .high then some i else none
  | none, .second i => if i < nproc ∧ s.stateOf i = .runnable then some i else none
  | _, _ => none

/-- Some process is RUNNABLE with priority HIGH. -/
def highReady (s : Cpu) : Prop := ∃ q < nproc, s.stateOf q = .runnable ∧ s.prioOf q = .high

instance (s : Cpu) : Decidable (highReady s) := inferInstanceAs (Decidable (∃ q < nproc, _))

/-- A slice that was given in the second loop is over, and a HIGH process is RUNNABLE. -/
def LeavesHigh (s t : Cpu) : Prop :=
  (s.cur ≠ none ∨ target s ≠ none) ∧ t.cur = none ∧ (∃ i, t.place = .second i) ∧ highReady t

/-- The steps that do not end a slice of the second loop so. -/
def CalmStep (s : Cpu) (action : Action) (t : Cpu) : Prop := Step s action t ∧ ¬ LeavesHigh s t

/-- The law: a switch to a process that is not HIGH happens when no HIGH one is RUNNABLE. -/
def HighFirst (s : Cpu) : Prop := ∀ p, target s = some p → s.prioOf p ≠ .high → ¬ highReady s

structure Orderly (s : Cpu) : Prop where
  /-- nobody has run in this pass, so the slots passed are as they were seen -/
  scanned : s.cur = none → ∀ i pnormal, s.place = .scan i 0 pnormal →
    ∀ q < i, ¬ (s.stateOf q = .runnable ∧ s.prioOf q = .high)
  counted : s.cur ≠ none → ∀ i pnormal, s.place ≠ .scan i 0 pnormal
  second : s.cur = none → ∀ i, s.place = .second i → ¬ highReady s

variable {s t : Cpu} {i : Nat}

/-- What one turn of a loop can be. -/
inductive Turn (s : Cpu) : Cpu → Prop where
  | pass (i nalta : Nat) (pnormal now : Option Nat) (place : s.place = .scan i nalta pnormal)
      (low : ¬ (s.stateOf i = .runnable ∧ s.prioOf i = .high)) :
      Turn s { s with place := .scan (i + 1) nalta now }
  | high (i nalta : Nat) (pnormal : Option Nat) (place : s.place = .scan i nalta pnormal)
      {t : Cpu} (switched : t.place = .scan (i + 1) (nalta + 1) pnormal) : Turn s t
  | normal (i q : Nat) (place : s.place = .scan i 0 (some q)) (end_ : nproc ≤ i) :
      Turn s { s with place := .second q }
  | done : Turn s { s with place := .top }
  | skip (i : Nat) (place : s.place = .second i) (busy : s.stateOf i ≠ .runnable) :
      Turn s { s with place := .second (i + 1) }
  | run (i : Nat) (chosen : target s = some i) {t : Cpu} (switched : t.place = .second (i + 1)) :
      Turn s t

theorem switchTo_place {p : Nat} {place : Place} (result : switchTo s p place = some t) :
    t.place = place := by
  obtain ⟨sys, -, rfl⟩ := Option.map_eq_some_iff.mp result
  rfl

theorem look_turn (idle : s.cur = none) (result : look s = some t) : Turn s t := by
  unfold look at result
  split at result
  · cases result
  · rename_i i nalta pnormal place
    split at result
    · split at result
      · rename_i busy
        cases result
        exact .pass i nalta pnormal pnormal place fun ready => busy ready.1
      · split at result
        · exact .high i nalta pnormal place (switchTo_place result)
        · rename_i low
          cases result
          exact .pass i nalta pnormal _ place fun ready => low ready.2
    · rename_i end_
      split at result
      · cases result
        exact .normal i _ place (Nat.le_of_not_lt end_)
      · cases result
        exact .done
  · rename_i i place
    split at result
    · rename_i inside
      split at result
      · rename_i busy
        cases result
        exact .skip i place busy
      · rename_i ready
        refine .run i ?_ (switchTo_place result)
        simp [target, idle, place, inside, ready]
    · cases result
      exact .done

theorem orderly_start (sys : State) : Orderly (start sys) where
  scanned := by
    intro _ i pnormal place
    cases place
  counted := by
    intro running
    exact absurd rfl running
  second := by
    intro _ i place
    cases place

/-- A step of the scheduler's own. -/
theorem orderly_turn (orderly : Orderly s) (idle : s.cur = none) (turn : Turn s t)
    (calm : target s ≠ none → t.cur = none → ∀ i, t.place = .second i → ¬ highReady t) :
    Orderly t := by
  cases turn with
  | pass i nalta pnormal now place low =>
    constructor
    · intro _ i' pnormal' here q below
      cases here
      rcases Nat.lt_succ_iff_lt_or_eq.mp below with before | rfl
      · exact orderly.scanned idle i pnormal place q before
      · exact low
    · intro running
      exact absurd idle running
    · intro _ i' here
      cases here
  | high i nalta pnormal place switched =>
    constructor <;> simp [switched]
  | normal i q place end_ =>
    constructor
    · intro _ i' pnormal' here
      cases here
    · intro running
      exact absurd idle running
    · rintro _ i' - ⟨r, inside, ready⟩
      exact orderly.scanned idle i (some q) place r (Nat.lt_of_lt_of_le inside end_) ready
  | done =>
    constructor
    · intro _ i' pnormal' here
      cases here
    · intro running
      exact absurd idle running
    · intro _ i' here
      cases here
  | skip i place busy =>
    constructor
    · intro _ i' pnormal' here
      cases here
    · intro running
      exact absurd idle running
    · intro _ i' here
      exact orderly.second idle i place
  | run i chosen switched =>
    refine ⟨by simp [switched], by simp [switched], fun back i' here => ?_⟩
    exact calm (by simp [chosen]) back i' here

theorem orderly_step {action : Action} (orderly : Orderly s) (calm : CalmStep s action t) :
    Orderly t := by
  obtain ⟨step, calm⟩ := calm
  have slice : s.cur ≠ none ∨ target s ≠ none → t.cur = none → ∀ i, t.place = .second i →
      ¬ highReady t := by
    intro given back i here high
    exact calm ⟨given, back, ⟨i, here⟩, high⟩
  unfold Step next at step
  split at step
  · rename_i p running
    have busy : s.cur ≠ none := by simp [running]
    split at step
    · split at step
      · obtain ⟨sys, -, rfl⟩ := Option.map_eq_some_iff.mp step
        constructor
        · intro _ i pnormal here
          exact absurd here (orderly.counted busy i pnormal)
        · intro _ i pnormal here
          exact absurd here (orderly.counted busy i pnormal)
        · exact slice (Or.inl busy)
      · cases step
    · cases step
  · rename_i idle
    split at step
    · obtain ⟨-, rfl⟩ := guarded step
      constructor
      · intro _ i pnormal here q below
        cases here
        exact absurd below (Nat.not_lt_zero q)
      · intro running
        exact absurd idle running
      · intro _ i here
        cases here
    · exact orderly_turn orderly idle (look_turn idle step) fun chosen => slice (Or.inr chosen)
    · split at step
      · rename_i outside
        obtain ⟨sys, -, rfl⟩ := Option.map_eq_some_iff.mp step
        constructor
        · intro _ i pnormal here
          rw [outside.1] at here
          cases here
        · intro running
          exact absurd idle running
        · intro _ i here
          rw [outside.1] at here
          cases here
      · cases step

theorem Orderly.highFirst (orderly : Orderly s) : HighFirst s := by
  intro p chosen low
  unfold target at chosen
  split at chosen
  · obtain ⟨ready, rfl⟩ := guarded chosen
    exact absurd ready.2.2 low
  · rename_i i idle place
    split at chosen
    · rename_i ready
      cases chosen
      exact orderly.second idle p place
    · cases chosen
  · cases chosen

/-- The second loop, at slot `i`, comes to slot `j` without letting anyone run before it, or to a
process that is not HIGH even earlier. -/
theorem wrong_switch {j : Nat} (idle : s.cur = none) (place : s.place = .second i) (high : highReady s)
    (inside : j < nproc) (ahead : i ≤ j) (ready : s.stateOf j = .runnable)
    (low : ∀ k, i ≤ k → k ≤ j → s.stateOf k = .runnable → s.prioOf k ≠ .high) :
    ∃ more u, Run Step s more u ∧ ¬ HighFirst u := by
  induction gap : j - i generalizing s i with
  | zero =>
    obtain rfl : i = j := by omega
    refine ⟨[], s, .nil s, fun fine => ?_⟩
    exact fine i (by simp [target, idle, place, inside, ready]) (low i le_rfl le_rfl ready) high
  | succ gap ih =>
    have within : i < nproc := by omega
    by_cases runnable : s.stateOf i = .runnable
    · refine ⟨[], s, .nil s, fun fine => ?_⟩
      exact fine i (by simp [target, idle, place, within, runnable]) (low i le_rfl ahead runnable) high
    · have step : Step s .look { s with place := .second (i + 1) } := by
        simp [Step, next, idle, look, place, within, runnable]
      obtain ⟨more, u, run, wrong⟩ := @ih { s with place := .second (i + 1) } (i + 1) idle rfl high
        (by omega) ready (fun k later => low k (by omega)) (by omega)
      exact ⟨.look :: more, u, .cons step run, wrong⟩

/-- As long as no slice of the second loop ends with a HIGH process RUNNABLE, HIGH goes first at every
switch. After one that does, the loop goes on to a wrong switch if a process is RUNNABLE in a slot that
it has not come to, and none of HIGH up to there. -/
theorem high_goes_first {sys : State} {actions : List Action} {s : Cpu}
    (run : Run CalmStep (start sys) actions s) :
    HighFirst s ∧
      ∀ action t i j, Step s action t → LeavesHigh s t → t.place = .second i → i ≤ j → j < nproc →
        t.stateOf j = .runnable →
        (∀ k, i ≤ k → k ≤ j → t.stateOf k = .runnable → t.prioOf k ≠ .high) →
        ∃ more u, Run Step t more u ∧ ¬ HighFirst u := by
  have orderly := run.preserves Orderly (fun _ _ _ orderly step => orderly_step orderly step)
    (orderly_start sys)
  refine ⟨orderly.highFirst, ?_⟩
  rintro action t i j - ⟨-, idle, -, high⟩ place ahead inside ready low
  exact wrong_switch idle place high inside ahead ready low

/-- A pass in which init, alone in the table, gets to the second loop and runs. -/
def initRuns : List Action := .enter :: List.replicate 66 .look

/-- There init forks, as often as told. -/
def initForks (times : Nat) : List Action :=
  initRuns ++ (List.replicate times
    [.act (.forkAlloc 0), .act (.forkLink 0), .act (.forkRun 0)]).flatten

/-- The first child is switched to while the second, which init has made HIGH, is RUNNABLE. -/
theorem normal_before_high :
    ∃ s, Run Step (start boot) (initForks 2 ++ [.act (.setprio 3 .high), .act (.yield 0)]) s ∧
      target s = some 1 ∧ s.prioOf 1 = .normal ∧ highReady s := by
  obtain ⟨s, run, test⟩ := execute_exists next (start boot)
    (initForks 2 ++ [.act (.setprio 3 .high), .act (.yield 0)])
    (fun s => target s = some 1 ∧ s.prioOf 1 = .normal ∧ s.stateOf 2 = .runnable ∧ s.prioOf 2 = .high)
    (by decide +kernel)
  have end_ : target s = some 1 ∧ s.prioOf 1 = .normal ∧ s.stateOf 2 = .runnable ∧
      s.prioOf 2 = .high := by simpa using test
  obtain ⟨chosen, low, ready, high⟩ := end_
  exact ⟨s, run, chosen, low, 2, by decide, ready, high⟩

/-- The slice of init ends with two NORMAL children RUNNABLE, and the loop comes to the first. -/
theorem high_goes_first_children :
    ∃ s, Run CalmStep (start boot) (initForks 2 ++ [.act (.yield 0)]) s ∧ target s = some 1 ∧
      s.prioOf 1 ≠ .high ∧ ¬ highReady s := by
  -- nobody is HIGH in any of these states
  obtain ⟨s, run, test⟩ := execute_exists
    (fun s action => (next s action).filter fun t => ¬ highReady t) (start boot)
    (initForks 2 ++ [.act (.yield 0)])
    (fun s => target s = some 1 ∧ s.prioOf 1 ≠ .high) (by decide +kernel)
  have calm : Run CalmStep (start boot) (initForks 2 ++ [.act (.yield 0)]) s := by
    refine run.mono ?_
    intro s action t step
    obtain ⟨result, quiet⟩ := Option.filter_eq_some_iff.mp step
    refine ⟨result, ?_⟩
    rintro ⟨-, -, -, high⟩
    simp [high] at quiet
  obtain ⟨chosen, low⟩ : target s = some 1 ∧ s.prioOf 1 ≠ .high := by simpa using test
  exact ⟨s, calm, chosen, low, (high_goes_first calm).1 1 chosen low⟩

end ColorXv6.Sched.Scheduler
