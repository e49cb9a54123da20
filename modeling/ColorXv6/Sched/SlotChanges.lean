import ColorXv6.Sched.ExitStatus

/-!
What a step can do to the pid, the killed flag and the priority of a slot, and the pids that
follow from it: an UNUSED slot may still carry the pid of a fork that failed, but no pid other
than 0 is in two slots.
-/
namespace ColorXv6.Sched.SlotChanges
open Lib.Runs Lib.Slots Param Table ExitStatus
open Vm.Process (ProcState)

/-- The first slot with the pid, which is the one that `kill` and `setprocprio` find. -/
def slotOf (pid : Int) (t : Ptable) : Option Nat := firstSlot nproc fun p => (t.proc p).pid = pid

/-- A process that has the pid. -/
def Named (t : Ptable) (pid : Int) (q : Nat) : Prop :=
  q < nproc ∧ (t.proc q).state ≠ .unused ∧ (t.proc q).pid = pid

def fields (proc : Proc) : Int × Bool × Prio := (proc.pid, proc.killed, proc.prio)

/-- The state of a slot is the same, or that of a living process still. -/
def SameLife (before after : ProcState) : Prop :=
  after = before ∨ alive before = true ∧ alive after = true

/-- What a step from `s` to the table `u` did to one slot. -/
inductive Changed (s : State) (act : Act) (u : Ptable) (q : Nat) : Prop where
  | kept (same : fields (u.proc q) = fields (s.ptable.proc q)) (life : SameLife (stateOf s q) (u.proc q).state)
  | born (slot : firstSlot nproc (fun p => (s.ptable.proc p).state = .unused) = some q)
      (now : fields (u.proc q) = (s.ptable.nextpid, (s.ptable.proc q).killed, (s.ptable.proc q).prio))
      (embryo : (u.proc q).state = .embryo) (counted : u.nextpid = s.ptable.nextpid + 1)
  | abandoned (embryo : stateOf s q = .embryo) (same : fields (u.proc q) = fields (s.ptable.proc q))
      (unused : (u.proc q).state = .unused)
  | grown (p : Nat) (call : act = .forkRun p) (place : s.pc p = .forkLinked q) (embryo : stateOf s q = .embryo)
      (living : alive (stateOf s p) = true)
      (now : fields (u.proc q) = ((s.ptable.proc q).pid, (s.ptable.proc q).killed, (s.ptable.proc p).prio))
      (runnable : (u.proc q).state = .runnable)
  | exited (living : alive (stateOf s q) = true) (same : fields (u.proc q) = fields (s.ptable.proc q))
      (zombie : (u.proc q).state = .zombie)
  | reaped (zombie : stateOf s q = .zombie) (now : fields (u.proc q) = (0, false, (s.ptable.proc q).prio))
      (unused : (u.proc q).state = .unused)
  | killed (pid : Int) (call : act = .kill pid) (slot : slotOf pid s.ptable = some q)
      (now : fields (u.proc q) = ((s.ptable.proc q).pid, true, (s.ptable.proc q).prio))
      (life : SameLife (stateOf s q) (u.proc q).state)
  | raised (pid : Int) (prio : Prio) (call : act = .setprio pid prio) (slot : slotOf pid s.ptable = some q)
      (now : fields (u.proc q) = ((s.ptable.proc q).pid, (s.ptable.proc q).killed, prio))
      (life : SameLife (stateOf s q) (u.proc q).state)

theorem SameLife.refl (state : ProcState) : SameLife state state := .inl rfl

theorem SameLife.trans {a b c : ProcState} (first : SameLife a b) (second : SameLife b c) : SameLife a c := by
  obtain rfl | ⟨living, between⟩ := first
  · exact second
  · obtain rfl | ⟨-, after⟩ := second
    · exact .inr ⟨living, between⟩
    · exact .inr ⟨living, after⟩

/-- A state outside of life is seen alike. -/
theorem SameLife.dead {a b c : ProcState} (life : SameLife a b) (out : alive c = false) : b = c ↔ a = c := by
  obtain rfl | ⟨before, after⟩ := life
  · rfl
  · constructor
    · rintro rfl
      exact absurd after (by rw [out]; decide)
    · rintro rfl
      exact absurd before (by rw [out]; decide)

/-- A change that keeps all that is seen here. -/
def Still (t u : Ptable) : Prop :=
  ∀ q, fields (u.proc q) = fields (t.proc q) ∧ SameLife (t.proc q).state (u.proc q).state

variable {s' : State} {q : Nat}

section Changes
variable {s : State} {act : Act} {t u v : Ptable} {p q : Nat}

theorem Still.refl (t : Ptable) : Still t t := fun _ => ⟨rfl, .refl _⟩

theorem Still.trans (first : Still t u) (second : Still u v) : Still t v :=
  fun q => ⟨(second q).1.trans (first q).1, (first q).2.trans (second q).2⟩

theorem Still.changed (still : Still s.ptable u) (act : Act) (q : Nat) : Changed s act u q :=
  .kept (still q).1 (still q).2

theorem still_modify {f : Proc → Proc} (same : fields (f (t.proc p)) = fields (t.proc p))
    (life : SameLife (t.proc p).state (f (t.proc p)).state) : Still t (t.modify p f) := by
  intro q
  by_cases here : q = p
  · rw [here, modify_same]
    exact ⟨same, life⟩
  · rw [modify_other t f here]
    exact ⟨rfl, .refl _⟩

theorem still_of_wakes (wakes : Wakes t u) : Still t u := by
  intro q
  constructor
  · have rest := wakes.rest q
    unfold Table.rest at rest
    simp only [Prod.mk.injEq] at rest
    unfold fields
    rw [rest.1, rest.2.1, rest.2.2.2.2]
  · obtain same | ⟨slept, awake⟩ := wakes.state q
    · exact .inl same
    · exact .inr ⟨congrArg alive slept, congrArg alive awake⟩

/-- A change of one slot, after others that do not show. -/
theorem changed_modify {f : Proc → Proc} (still : Still s.ptable t)
    (here : Changed s act (t.modify p f) p) (q : Nat) : Changed s act (t.modify p f) q := by
  by_cases same : q = p
  · rw [same]
    exact here
  · have other := modify_other t f same
    refine .kept ?_ ?_
    · rw [other]
      exact (still q).1
    · rw [other]
      exact (still q).2

/-- What `wait` does to the slots, from a table like that of `s`. -/
theorem changed_waitLoop (still : Still s.ptable s'.ptable) (living : alive (stateOf s' p) = true)
    (act : Act) (q : Nat) : Changed s act (waitLoop s' p).ptable q := by
  unfold waitLoop
  split
  · rename_i child found
    obtain ⟨-, test⟩ := firstSlot_some found
    obtain ⟨-, zombie⟩ := of_decide_eq_true test
    have prio : (s'.ptable.proc child).prio = (s.ptable.proc child).prio :=
      congrArg (fun f => f.2.2) (still child).1
    change Changed s act (reap child s'.ptable) q
    refine changed_modify still ?_ q
    refine .reaped (((still child).2.dead rfl).mp zombie) ?_ ?_
    · rw [modify_same]
      unfold fields
      rw [prio]
    · rw [modify_same]
  · split
    · exact still.changed act q
    · have sleeps : Still s'.ptable (sleep p (.proc p) s'.ptable) := still_modify rfl (.inr ⟨living, rfl⟩)
      exact (still.trans sleeps).changed act q

theorem changed_resume (still : Still s.ptable s'.ptable) (living : alive (stateOf s' p) = true)
    (act : Act) (q : Nat) : Changed s act (resume s' p).ptable q := by
  have tidy : Still s'.ptable (s'.ptable.modify p fun proc => { proc with chan := none }) :=
    still_modify rfl (.refl _)
  unfold resume
  split
  · refine changed_waitLoop (still.trans tidy) ?_ act q
    unfold stateOf State.onTable
    rw [modify_same]
    exact living
  · exact (still.trans tidy).changed act q
  · exact still.changed act q

theorem changed_exit (living : alive (stateOf s p) = true) (status : Int) (act : Act) (q : Nat) :
    Changed s act (exit p status s.ptable) q := by
  have wakes := (wakeParent_wakes p s.ptable).trans (adopted_reparent p _).wakes
  unfold exit
  generalize reparent p (wakeParent p s.ptable) = t at wakes
  refine changed_modify (still_of_wakes wakes) ?_ q
  refine .exited living ?_ ?_
  · rw [modify_same]
    exact (still_of_wakes wakes p).1
  · rw [modify_same]

theorem changed_allocproc {np : Nat} (found : allocproc s.ptable = some (np, u)) (q : Nat) :
    Changed s act u q := by
  unfold allocproc at found
  split at found
  · cases found
  · rename_i slot first
    obtain ⟨rfl, rfl⟩ := Prod.mk.inj (Option.some.inj found)
    by_cases here : q = slot
    · subst here
      refine .born first ?_ ?_ rfl
      · dsimp only
        rw [modify_same]
        rfl
      · dsimp only
        rw [modify_same]
    · refine .kept ?_ ?_
      · dsimp only
        rw [modify_other _ _ here]
      · dsimp only
        rw [modify_other _ _ here]
        exact .refl _

theorem changed_kill (pid : Int) (q : Nat) : Changed s (.kill pid) (kill pid s.ptable) q := by
  unfold kill
  split
  · exact (Still.refl _).changed _ q
  · rename_i slot found
    refine changed_modify (.refl _) ?_ q
    refine .killed pid rfl found ?_ ?_
    · rw [modify_same]
      rfl
    · rw [modify_same]
      split
      · rename_i sleeping
        exact .inr ⟨congrArg alive sleeping, rfl⟩
      · exact .refl _

theorem changed_setprio (pid : Int) (prio : Prio) (q : Nat) :
    Changed s (.setprio pid prio) (setprocprio pid prio s.ptable) q := by
  unfold setprocprio
  split
  · exact (Still.refl _).changed _ q
  · rename_i slot found
    refine changed_modify (.refl _) ?_ q
    refine .raised pid prio rfl found ?_ ?_
    · rw [modify_same]
      rfl
    · rw [modify_same]
      exact .refl _

/-- The only things that happen to a slot. -/
theorem step_changed (family : Family s) (step : Step s act s') (q : Nat) :
    Changed s act s'.ptable q := by
  unfold Step at step
  cases act <;> simp only [next] at step
  case schedule p =>
    obtain ⟨ready, rfl⟩ := guarded step
    have runs : Still s.ptable (setState p .running s.ptable) :=
      still_modify rfl (.inr ⟨congrArg alive ready.2, rfl⟩)
    refine changed_resume runs ?_ _ q
    unfold stateOf State.onTable setState
    rw [modify_same]
    rfl
  case yield p =>
    obtain ⟨run, rfl⟩ := guarded step
    have waits : Still s.ptable (setState p .runnable s.ptable) :=
      still_modify rfl (.inr ⟨congrArg alive run.2, rfl⟩)
    exact waits.changed _ q
  case forkAlloc p =>
    split at step
    · split at step
      · cases step
        exact (Still.refl _).changed _ q
      · rename_i np ptable found
        obtain ⟨-, rfl⟩ := guarded step
        exact changed_allocproc found q
    · cases step
  case forkFail p =>
    split at step
    · rename_i np place
      obtain ⟨-, rfl⟩ := guarded step
      obtain ⟨-, embryo⟩ := family.forker p np (congrArg forks place)
      change Changed s _ (setState np .unused s.ptable) q
      refine changed_modify (.refl _) ?_ q
      exact .abandoned embryo (by rw [modify_same]; rfl) (by rw [modify_same])
    · cases step
  case forkLink p =>
    split at step
    · rename_i np place
      obtain ⟨-, rfl⟩ := guarded step
      have linked : Still s.ptable (s.ptable.modify np fun proc => { proc with parent := some p }) :=
        still_modify rfl (.refl _)
      exact linked.changed _ q
    · cases step
  case forkRun p =>
    split at step
    · rename_i np place
      obtain ⟨run, rfl⟩ := guarded step
      obtain ⟨living, embryo⟩ := family.forker p np (congrArg forks place)
      change Changed s _ (s.ptable.modify np fun proc => { proc with
        prio := (s.ptable.proc p).prio, state := .runnable }) q
      refine changed_modify (.refl _) ?_ q
      exact .grown p rfl place embryo living (by rw [modify_same]; rfl) (by rw [modify_same])
    · cases step
  case exit p status =>
    obtain ⟨ready, rfl⟩ := guarded step
    exact changed_exit (congrArg alive ready.1.2) status _ q
  case wait p =>
    obtain ⟨ready, rfl⟩ := guarded step
    exact changed_waitLoop (.refl _) (congrArg alive ready.1.2) _ q
  case sleep p addr =>
    obtain ⟨ready, rfl⟩ := guarded step
    have sleeps : Still s.ptable (sleep p (.other addr) s.ptable) :=
      still_modify rfl (.inr ⟨congrArg alive ready.1.2, rfl⟩)
    exact sleeps.changed _ q
  case wakeup chan =>
    cases step
    exact (still_of_wakes (wakeup1_wakes chan s.ptable)).changed _ q
  case kill pid =>
    cases step
    exact changed_kill pid q
  case setprio pid prio =>
    cases step
    exact changed_setprio pid prio q

theorem waitLoop_nextpid (s : State) (p : Nat) : (waitLoop s p).ptable.nextpid = s.ptable.nextpid := by
  unfold waitLoop
  split
  · rfl
  · split <;> rfl

theorem resume_nextpid (s : State) (p : Nat) : (resume s p).ptable.nextpid = s.ptable.nextpid := by
  unfold resume
  split
  · rw [waitLoop_nextpid]
    rfl
  · rfl
  · rfl

theorem step_nextpid (step : Step s act s') : s.ptable.nextpid ≤ s'.ptable.nextpid := by
  unfold Step at step
  cases act <;> simp only [next] at step
  case forkAlloc p =>
    split at step
    · split at step
      · cases step
        exact le_refl _
      · rename_i np ptable found
        obtain ⟨-, rfl⟩ := guarded step
        unfold allocproc at found
        split at found
        · cases found
        · obtain ⟨-, rfl⟩ := Prod.mk.inj (Option.some.inj found)
          dsimp only
          omega
    · cases step
  case schedule p =>
    obtain ⟨-, rfl⟩ := guarded step
    rw [resume_nextpid]
    exact le_refl _
  case exit p status =>
    obtain ⟨-, rfl⟩ := guarded step
    exact (exit_nextpid p status s.ptable).ge
  case wait p =>
    obtain ⟨-, rfl⟩ := guarded step
    exact (waitLoop_nextpid s p).ge
  case kill pid =>
    cases step
    change s.ptable.nextpid ≤ (kill pid s.ptable).nextpid
    unfold kill
    split <;> exact le_refl _
  case setprio pid prio =>
    cases step
    change s.ptable.nextpid ≤ (setprocprio pid prio s.ptable).nextpid
    unfold setprocprio
    split <;> exact le_refl _
  case wakeup chan =>
    cases step
    exact le_refl _
  all_goals
    repeat' split at step
    all_goals
      cases step
      try exact le_refl _

end Changes

/-! Pids. -/

def pidAt (s : State) (q : Nat) : Int := (s.ptable.proc q).pid

structure Pids (s : State) : Prop where
  nonneg : ∀ q, 0 ≤ pidAt s q
  below : ∀ q, pidAt s q < s.ptable.nextpid
  used : ∀ q, stateOf s q ≠ .unused → pidAt s q ≠ 0
  distinct : ∀ q r, pidAt s q = pidAt s r → pidAt s q ≠ 0 → q = r

section Pids
variable {s t : State} {act : Act}

/-- A slot keeps its pid, gets the next one, or loses it. -/
theorem Changed.pid (changed : Changed s act t.ptable q) :
    (pidAt t q = pidAt s q ∧ (stateOf t q ≠ .unused → stateOf s q ≠ .unused)) ∨
      (pidAt t q = s.ptable.nextpid ∧ t.ptable.nextpid = s.ptable.nextpid + 1 ∧
        firstSlot nproc (fun p => (s.ptable.proc p).state = .unused) = some q) ∨
      pidAt t q = 0 ∧ stateOf t q = .unused := by
  have first : ∀ {x : Proc} {y : Int × Bool × Prio}, fields x = y → x.pid = y.1 := fun same => same ▸ rfl
  cases changed with
  | kept same life => exact .inl ⟨first same, fun used unused => used ((life.dead rfl).mpr unused)⟩
  | born slot now embryo counted => exact .inr (.inl ⟨first now, counted, slot⟩)
  | abandoned embryo same unused => exact .inl ⟨first same, fun used => absurd unused used⟩
  | grown p call place embryo living now runnable =>
    exact .inl ⟨first now, fun _ unused => by rw [embryo] at unused; cases unused⟩
  | exited living same zombie => exact .inl ⟨first same, fun _ => (alive_states living).1⟩
  | reaped zombie now unused => exact .inr (.inr ⟨first now, unused⟩)
  | killed pid call slot now life =>
    exact .inl ⟨first now, fun used unused => used ((life.dead rfl).mpr unused)⟩
  | raised pid prio call slot now life =>
    exact .inl ⟨first now, fun used unused => used ((life.dead rfl).mpr unused)⟩

theorem Pids.step (family : Family s) (pids : Pids s) (step : Step s act t) : Pids t := by
  have grows := step_nextpid step
  have slot := fun q => (step_changed family step q).pid
  obtain ⟨nonneg, below, used, distinct⟩ := pids
  have positive : 0 < s.ptable.nextpid := lt_of_le_of_lt (nonneg 0) (below 0)
  refine ⟨fun q => ?_, fun q => ?_, fun q live => ?_, fun q r same named => ?_⟩
  · obtain ⟨now, -⟩ | ⟨now, -⟩ | ⟨now, -⟩ := slot q
    · rw [now]
      exact nonneg q
    · rw [now]
      exact positive.le
    · exact now.ge
  · obtain ⟨now, -⟩ | ⟨now, counted, -⟩ | ⟨now, -⟩ := slot q
    · rw [now]
      exact lt_of_lt_of_le (below q) grows
    · omega
    · omega
  · obtain ⟨now, before⟩ | ⟨now, -⟩ | ⟨-, unused⟩ := slot q
    · rw [now]
      exact used q (before live)
    · omega
    · exact absurd unused live
  · have q' := below q
    have r' := below r
    obtain ⟨nowQ, -⟩ | ⟨nowQ, -, slotQ⟩ | ⟨nowQ, -⟩ := slot q
    · obtain ⟨nowR, -⟩ | ⟨nowR, -⟩ | ⟨nowR, -⟩ := slot r
      · exact distinct q r (by omega) (by omega)
      · omega
      · omega
    · obtain ⟨nowR, -⟩ | ⟨nowR, -, slotR⟩ | ⟨nowR, -⟩ := slot r
      · omega
      · rw [slotQ] at slotR
        exact Option.some.inj slotR
      · omega
    · exact absurd nowQ named

theorem pids_boot : Pids boot where
  nonneg q := by
    obtain ⟨-, proc⟩ | ⟨-, proc⟩ := boot_proc q
    · rw [pidAt, proc]
      decide
    · rw [pidAt, proc]
  below q := by
    obtain ⟨-, proc⟩ | ⟨-, proc⟩ := boot_proc q
    · rw [pidAt, proc]
      decide
    · rw [pidAt, proc]
      decide
  used q live := by
    rw [boot_used live]
    decide
  distinct q r same named := by
    obtain ⟨firstQ, -⟩ | ⟨-, proc⟩ := boot_proc q
    · obtain ⟨firstR, -⟩ | ⟨-, proc⟩ := boot_proc r
      · rw [firstQ, firstR]
      · rw [same, pidAt, proc] at named
        exact absurd rfl named
    · rw [pidAt, proc] at named
      exact absurd rfl named

/-- In every run, the table is a family and its pids are as described. -/
theorem run_pids {acts : List Act} (run : Run Step boot acts s) : Family s ∧ Pids s := by
  have both := run.preserves (fun s => Inv s ∧ Pids s)
    (fun _ _ _ ⟨inv, pids⟩ step => ⟨(inv_step inv step).1, pids.step inv.family step⟩) ⟨inv_boot, pids_boot⟩
  exact ⟨both.1.family, both.2⟩

/-- The slot that is found for a pid is the only one, if the pid is not 0. -/
theorem Pids.slotOf_eq (pids : Pids s) {pid : Int} (inside : q < nproc) (here : pidAt s q = pid)
    (named : pid ≠ 0) : slotOf pid s.ptable = some q := by
  refine firstSlot_unique inside (decide_eq_true here) fun r _ test => ?_
  have there : pidAt s r = pid := of_decide_eq_true test
  exact pids.distinct r q (there.trans here.symm) (there ▸ named)

theorem slotOf_some {t : Ptable} {pid : Int} (found : slotOf pid t = some q) :
    q < nproc ∧ (t.proc q).pid = pid :=
  ⟨(firstSlot_some found).1, of_decide_eq_true (firstSlot_some found).2⟩

theorem Named.slotOf {pid : Int} (pids : Pids s) (named : Named s.ptable pid q) :
    slotOf pid s.ptable = some q :=
  pids.slotOf_eq named.1 named.2.2 (named.2.2 ▸ pids.used q named.2.1)

end Pids

end ColorXv6.Sched.SlotChanges
