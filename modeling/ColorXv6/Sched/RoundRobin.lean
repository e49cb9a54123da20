import ColorXv6.Sched.Scheduler

/-!
Round robin within a priority. Between two switches to a process the scheduler
switches to every other process of the same priority that waits all the time: the
loops go through the slots in order, and a new pass begins at the first one.
-/
namespace ColorXv6.Sched.RoundRobin
open Lib.Runs Param Scheduler
open Table (Prio State)
open Vm.Process (ProcState)

/-- `p` is RUNNABLE, or itself running, and both processes have priority `prio`. -/
structure Waits (p q : Nat) (prio : Prio) (s : Cpu) : Prop where
  ready : s.stateOf p = .runnable ∨ s.cur = some p
  own : s.prioOf p = prio
  other : s.prioOf q = prio

instance (p q : Nat) (prio : Prio) (s : Cpu) : Decidable (Waits p q prio s) :=
  decidable_of_iff
    ((s.stateOf p = .runnable ∨ s.cur = some p) ∧ s.prioOf p = prio ∧ s.prioOf q = prio)
    ⟨fun ⟨ready, own, other⟩ => ⟨ready, own, other⟩, fun ⟨ready, own, other⟩ => ⟨ready, own, other⟩⟩

/-- The loops come to slot `p` before they come to slot `q` again. The first two cases are those
of a slot after `q`. For one before `q`, the pass ends first. -/
inductive Coming (p q : Nat) (prio : Prio) : Place → Prop where
  | sameScan {i nalta : Nat} {pnormal : Option Nat} (high : prio = .high) (passed : q < i)
      (ahead : i ≤ p) : Coming p q prio (.scan i nalta pnormal)
  | sameSecond {i : Nat} (passed : q < i) (ahead : i ≤ p) : Coming p q prio (.second i)
  | restScan {i nalta : Nat} {pnormal : Option Nat} (order : p < q) (passed : q < i)
      (counted : 0 < nalta) : Coming p q prio (.scan i nalta pnormal)
  | restSecond {i : Nat} (order : p < q) (passed : q < i) : Coming p q prio (.second i)
  | top (order : p < q) : Coming p q prio .top
  | highScan {i nalta : Nat} {pnormal : Option Nat} (order : p < q) (high : prio = .high)
      (ahead : i ≤ p) : Coming p q prio (.scan i nalta pnormal)
  /-- once past `p` without having let anyone run, the scan remembers a slot up to `p` -/
  | normalScan {i nalta : Nat} {pnormal : Option Nat} (order : p < q) (normal : prio ≠ .high)
      (seen : nalta = 0 → p < i → ∃ j ≤ p, pnormal = some j) (before : ∀ j, pnormal = some j → j < i) :
      Coming p q prio (.scan i nalta pnormal)
  | second {i : Nat} (order : p < q) (ahead : i ≤ p) : Coming p q prio (.second i)

variable {s t : Cpu} {p q : Nat} {prio : Prio}

variable {action : Action} {i : Nat}

/-- Where the loop is after a step. -/
theorem step_place (step : Step s action t) :
    t.place = s.place ∨ (s.place = .top ∧ t.place = .scan 0 0 none) ∨
      (s.cur = none ∧ look s = some t) := by
  unfold Step Scheduler.next at step
  split at step
  · split at step
    · split at step
      · obtain ⟨sys, -, rfl⟩ := Option.map_eq_some_iff.mp step
        exact Or.inl rfl
      · cases step
    · cases step
  · rename_i idle
    split at step
    · obtain ⟨top, rfl⟩ := guarded step
      exact Or.inr (Or.inl ⟨top, rfl⟩)
    · exact Or.inr (Or.inr ⟨idle, step⟩)
    · split at step
      · obtain ⟨sys, -, rfl⟩ := Option.map_eq_some_iff.mp step
        exact Or.inl rfl
      · cases step

/-- A turn of the first loop. -/
theorem look_scan {nalta : Nat} {pnormal : Option Nat} (place : s.place = .scan i nalta pnormal)
    (result : look s = some t) :
    (i < nproc ∧ s.stateOf i ≠ .runnable ∧ t.place = .scan (i + 1) nalta pnormal) ∨
    (i < nproc ∧ s.stateOf i = .runnable ∧ s.prioOf i = .high ∧
      t.place = .scan (i + 1) (nalta + 1) pnormal) ∨
    (i < nproc ∧ s.stateOf i = .runnable ∧ s.prioOf i ≠ .high ∧
      t.place = .scan (i + 1) nalta (pnormal.or (some i))) ∨
    (nproc ≤ i ∧ nalta = 0 ∧ ∃ j, pnormal = some j ∧ t.place = .second j) ∨
    (nproc ≤ i ∧ t.place = .top) := by
  unfold look at result
  rw [place] at result
  dsimp only at result
  split at result
  · rename_i inside
    split at result
    · rename_i busy
      cases result
      exact Or.inl ⟨inside, busy, rfl⟩
    · rename_i ready
      rw [ne_eq, not_not] at ready
      split at result
      · rename_i high
        exact Or.inr (Or.inl ⟨inside, ready, high, switchTo_place result⟩)
      · rename_i low
        cases result
        exact Or.inr (Or.inr (Or.inl ⟨inside, ready, low, rfl⟩))
  · rename_i end_
    split at result
    · rename_i j
      cases result
      exact Or.inr (Or.inr (Or.inr (Or.inl ⟨Nat.le_of_not_lt end_, rfl, j, rfl, rfl⟩)))
    · cases result
      exact Or.inr (Or.inr (Or.inr (Or.inr ⟨Nat.le_of_not_lt end_, rfl⟩)))

/-- A turn of the second loop. -/
theorem look_second (place : s.place = .second i) (result : look s = some t) :
    (i < nproc ∧ t.place = .second (i + 1)) ∨ (nproc ≤ i ∧ t.place = .top) := by
  unfold look at result
  rw [place] at result
  dsimp only at result
  split at result
  · rename_i inside
    split at result
    · cases result
      exact Or.inl ⟨inside, rfl⟩
    · exact Or.inl ⟨inside, switchTo_place result⟩
  · rename_i end_
    cases result
    exact Or.inr ⟨Nat.le_of_not_lt end_, rfl⟩

theorem target_scan {nalta : Nat} {pnormal : Option Nat} (idle : s.cur = none) (inside : p < nproc)
    (place : s.place = .scan p nalta pnormal) (ready : s.stateOf p = .runnable)
    (high : s.prioOf p = .high) : target s = some p := by
  simp [target, idle, place, inside, ready, high]

theorem target_second (idle : s.cur = none) (inside : p < nproc) (place : s.place = .second p)
    (ready : s.stateOf p = .runnable) : target s = some p := by
  simp [target, idle, place, inside, ready]

/-- A switch happens in the first loop, to a HIGH process, or in the second. -/
theorem target_place (chosen : target s = some q) :
    s.cur = none ∧ q < nproc ∧ s.stateOf q = .runnable ∧
      ((∃ nalta pnormal, s.place = .scan q nalta pnormal ∧ s.prioOf q = .high) ∨
        s.place = .second q) := by
  unfold target at chosen
  split at chosen
  · rename_i i nalta pnormal idle place
    obtain ⟨ready, rfl⟩ := guarded chosen
    exact ⟨idle, ready.1, ready.2.1, Or.inl ⟨nalta, pnormal, place, ready.2.2⟩⟩
  · rename_i i idle place
    obtain ⟨ready, rfl⟩ := guarded chosen
    exact ⟨idle, ready.1, ready.2, Or.inr place⟩
  · cases chosen

section Coming
variable (coming : Coming p q prio s.place)
include coming

/-- While `p` is still to come, the loop is not at `q`. -/
theorem Coming.not_target (waits : Waits p q prio s) : target s ≠ some q := by
  intro chosen
  obtain ⟨-, -, -, ⟨nalta, pnormal, place, high⟩ | place⟩ := target_place chosen
  · rw [place] at coming
    cases coming with
    | sameScan _ passed _ => omega
    | restScan _ passed _ => omega
    | highScan order _ ahead => omega
    | normalScan _ normal _ _ =>
      exact normal (waits.other.symm.trans high)
  · rw [place] at coming
    cases coming with
    | sameSecond passed _ => omega
    | restSecond _ passed => omega
    | second order ahead => omega

/-- A turn of the first loop that does not switch to `p`. -/
theorem Coming.scan {nalta : Nat} {pnormal : Option Nat} (place : s.place = .scan i nalta pnormal)
    (inside : p < nproc) (idle : s.cur = none) (waits : Waits p q prio s)
    (spared : target s ≠ some p) (result : look s = some t) :
    Coming p q prio t.place := by
  have ready : s.stateOf p = .runnable := waits.ready.resolve_right (by simp [idle])
  have notHere : prio = .high → i ≠ p := by
    rintro high rfl
    exact spared (target_scan idle inside place ready (waits.own.trans high))
  have turn := look_scan place result
  rw [place] at coming
  cases coming with
  | sameScan high passed ahead =>
    have apart := notHere high
    obtain ⟨-, -, now⟩ | ⟨-, -, -, now⟩ | ⟨-, -, -, now⟩ | ⟨end_, -⟩ | ⟨end_, -⟩ := turn
    · exact now ▸ .sameScan high (by omega) (by omega)
    · exact now ▸ .sameScan high (by omega) (by omega)
    · exact now ▸ .sameScan high (by omega) (by omega)
    · omega
    · omega
  | restScan order passed counted =>
    obtain ⟨-, -, now⟩ | ⟨-, -, -, now⟩ | ⟨-, -, -, now⟩ | ⟨-, none, -⟩ | ⟨-, now⟩ := turn
    · exact now ▸ .restScan order (by omega) counted
    · exact now ▸ .restScan order (by omega) (by omega)
    · exact now ▸ .restScan order (by omega) counted
    · omega
    · exact now ▸ .top order
  | highScan order high ahead =>
    have apart := notHere high
    obtain ⟨-, -, now⟩ | ⟨-, -, -, now⟩ | ⟨-, -, -, now⟩ | ⟨end_, -⟩ | ⟨end_, -⟩ := turn
    · exact now ▸ .highScan order high (by omega)
    · exact now ▸ .highScan order high (by omega)
    · exact now ▸ .highScan order high (by omega)
    · omega
    · omega
  | normalScan order normal seen before =>
    obtain ⟨-, busy, now⟩ | ⟨-, -, -, now⟩ | ⟨-, -, low, now⟩ | ⟨end_, none, j, found, now⟩ | ⟨-, now⟩ :=
      turn
    · refine now ▸ .normalScan order normal ?_ ?_
      · intro none past
        have apart : i ≠ p := by
          rintro rfl
          exact busy ready
        exact seen none (by omega)
      · intro j found
        have := before j found
        omega
    · refine now ▸ .normalScan order normal (by omega) ?_
      intro j found
      have := before j found
      omega
    · refine now ▸ .normalScan order normal ?_ ?_
      · intro none past
        cases found : pnormal with
        | none =>
          rw [found] at seen
          have here : ¬ p < i := fun earlier => by
            obtain ⟨j, -, impossible⟩ := seen none earlier
            cases impossible
          exact ⟨i, by omega, rfl⟩
        | some j =>
          refine ⟨j, ?_, rfl⟩
          by_cases earlier : p < i
          · obtain ⟨k, low, same⟩ := seen none earlier
            rw [found] at same
            cases same
            exact low
          · have := before j found
            omega
      · intro j found
        cases remembered : pnormal with
        | none =>
          rw [remembered] at found
          cases found
          omega
        | some k =>
          rw [remembered] at found
          cases found
          have := before j remembered
          omega
    · obtain ⟨k, low, same⟩ := seen none (by omega)
      rw [same] at found
      cases found
      exact now ▸ .second order low
    · exact now ▸ .top order

/-- A turn of the second loop that does not switch to `p`. -/
theorem Coming.loop (place : s.place = .second i) (inside : p < nproc) (idle : s.cur = none)
    (waits : Waits p q prio s) (spared : target s ≠ some p)
    (result : look s = some t) : Coming p q prio t.place := by
  have apart : i ≠ p := by
    rintro rfl
    exact spared (target_second idle inside place (waits.ready.resolve_right (by simp [idle])))
  have turn := look_second place result
  rw [place] at coming
  cases coming with
  | sameSecond passed ahead =>
    obtain ⟨-, now⟩ | ⟨end_, -⟩ := turn
    · exact now ▸ .sameSecond (by omega) (by omega)
    · omega
  | restSecond order passed =>
    obtain ⟨-, now⟩ | ⟨-, now⟩ := turn
    · exact now ▸ .restSecond order (by omega)
    · exact now ▸ .top order
  | second order ahead =>
    obtain ⟨-, now⟩ | ⟨-, now⟩ := turn
    · exact now ▸ .second order (by omega)
    · exact now ▸ .top order

/-- What is still to come stays so, unless it is switched to now. -/
theorem Coming.step (inside : p < nproc) (waits : Waits p q prio s) (spared : target s ≠ some p)
    (step : Step s action t) :
    Coming p q prio t.place := by
  rcases step_place step with same | ⟨top, now⟩ | ⟨idle, result⟩
  · rw [same]
    exact coming
  · rw [top] at coming
    cases coming with
    | top order =>
      rw [now]
      cases prio with
      | high => exact .highScan order rfl (Nat.zero_le p)
      | normal | two => exact .normalScan order nofun (by omega) (by simp)
  · cases place : s.place with
    | top =>
      unfold look at result
      rw [place] at result
      cases result
    | scan i nalta pnormal => exact coming.scan place inside idle waits spared result
    | second i => exact coming.loop place inside idle waits spared result

end Coming

/-- With a switch coming up, the scheduler's next turn is the only step. -/
theorem step_look (chosen : target s = some q) (step : Step s action t) :
    action = .look := by
  obtain ⟨idle, -, -, place⟩ := target_place chosen
  have away : s.place ≠ .top := by
    obtain ⟨nalta, pnormal, here, -⟩ | here := place
    · simp [here]
    · simp [here]
  unfold Step Scheduler.next at step
  rw [idle] at step
  cases action with
  | enter => simp [away] at step
  | look => rfl
  | act a => simp [away] at step

/-- Right after a switch to `q`, `p` is to come. -/
theorem coming_after (different : p ≠ q) (chosen : target s = some q) (waits : Waits p q prio s)
    (step : Step s action t) :
    Coming p q prio t.place := by
  cases step_look chosen step
  obtain ⟨idle, small, ready, ⟨nalta, pnormal, place, high⟩ | place⟩ := target_place chosen
  · have result : look s = some t := by simpa [Step, Scheduler.next, idle] using step
    have now : t.place = .scan (q + 1) (nalta + 1) pnormal := by
      obtain ⟨-, busy, -⟩ | ⟨-, -, -, now⟩ | ⟨-, -, low, -⟩ | ⟨end_, -⟩ | ⟨end_, -⟩ :=
        look_scan place result
      · exact absurd ready busy
      · exact now
      · exact absurd high low
      · omega
      · omega
    rw [now]
    rcases Nat.lt_or_gt_of_ne different with order | order
    · exact .restScan order (by omega) (by omega)
    · exact .sameScan (waits.other.symm.trans high) (by omega) (by omega)
  · have result : look s = some t := by simpa [Step, Scheduler.next, idle] using step
    have now : t.place = .second (q + 1) := by
      obtain ⟨-, now⟩ | ⟨end_, -⟩ := look_second place result
      · exact now
      · omega
    rw [now]
    rcases Nat.lt_or_gt_of_ne different with order | order
    · exact .restSecond order (by omega)
    · exact .sameSecond (by omega) (by omega)

/-- In the run from `s` to `t` there is a switch to `p`. -/
def Dispatched (p : Nat) (s : Cpu) (actions : List Action) (t : Cpu) : Prop :=
  ∃ before after u, actions = before ++ .look :: after ∧ Run Step s before u ∧ target u = some p ∧
    Run Step u (.look :: after) t

theorem Dispatched.cons {u : Cpu} {actions : List Action} (first : Step s action t)
    (later : Dispatched p t actions u) : Dispatched p s (action :: actions) u := by
  obtain ⟨before, after, v, split, reach, chosen, rest⟩ := later
  exact ⟨action :: before, after, v, by rw [split, List.cons_append], .cons first reach, chosen, rest⟩

theorem dispatched_now {u : Cpu} {actions : List Action} (chosen : target s = some p)
    (first : Step s action t)
    (later : Run Step t actions u) : Dispatched p s (action :: actions) u := by
  cases step_look chosen first
  exact ⟨[], actions, s, rfl, .nil s, chosen, .cons first later⟩

/-- By induction along the run: `p` is to come until it is switched to, and at the end the loop
is at `q`. -/
theorem Coming.dispatched {actions : List Action} (coming : Coming p q prio s.place)
    (inside : p < nproc)
    (run : Run (Guarded (fun u _ => Waits p q prio u) Step) s actions t)
    (atEnd : Waits p q prio t) (again : target t = some q) : Dispatched p s actions t := by
  induction run with
  | nil s => exact absurd again (coming.not_target atEnd)
  | cons first later ih =>
    rename_i s u t action rest
    by_cases chosen : target s = some p
    · exact dispatched_now chosen first.2 (later.mono fun _ _ _ step => step.2)
    · exact (ih (coming.step inside first.1 chosen first.2) atEnd again).cons first.2

/-- Between two switches to `q` there is one to every process of the same priority that is
RUNNABLE all the time but while it runs. -/
theorem round_robin {actions : List Action} (inside : p < nproc) (first : target s = some q)
    (run : Run (Guarded (fun u _ => Waits p q prio u) Step) s actions t)
    (atEnd : Waits p q prio t) (again : target t = some q) (later : actions ≠ []) :
    Dispatched p s actions t := by
  cases run with
  | nil => exact absurd rfl later
  | cons step rest =>
    by_cases same : p = q
    · subst same
      exact dispatched_now first step.2 (rest.mono fun _ _ _ step => step.2)
    · have coming := coming_after same first step.1 step.2
      exact (coming.dispatched inside rest atEnd again).cons step.2

/-- Two processes in the last two slots. -/
def pair : Cpu where
  sys := { Table.boot with
    ptable := { Table.boot.ptable with
      proc := fun p => if p = 62 ∨ p = 63 then { state := .runnable, pid := p } else {} } }
  place := .second 62
  cur := none

/-- They run once each and yield, and the next pass gets to the first of them again. -/
def pairTurns : List Action :=
  [.look, .act (.yield 62), .look, .act (.yield 63), .look, .enter] ++ List.replicate 65 .look

theorem round_robin_pair :
    ∃ t, Run Step pair pairTurns t ∧ target t = some 62 ∧ Dispatched 63 pair pairTurns t := by
  obtain ⟨t, run, test⟩ := execute_exists
    (fun s action => if Waits 63 62 .normal s then Scheduler.next s action else none) pair pairTurns
    (fun t => Waits 63 62 .normal t ∧ target t = some 62) (by decide +kernel)
  obtain ⟨atEnd, again⟩ : Waits 63 62 .normal t ∧ target t = some 62 := by simpa using test
  have guarded : Run (Guarded (fun u _ => Waits 63 62 .normal u) Step) pair pairTurns t := by
    refine run.mono ?_
    intro s action t step
    by_cases waits : Waits 63 62 .normal s
    · rw [if_pos waits] at step
      exact ⟨waits, step⟩
    · rw [if_neg waits] at step
      cases step
  exact ⟨t, guarded.mono fun _ _ _ step => step.2, again,
    round_robin (by decide) (by decide +kernel) guarded atEnd again (by decide)⟩

end ColorXv6.Sched.RoundRobin
