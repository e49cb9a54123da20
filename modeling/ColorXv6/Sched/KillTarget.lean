import ColorXv6.Sched.SlotChanges

/-!
Whom `kill` hits. It takes the first slot with the pid and does not look at its state, so it also
finds UNUSED slots: those of pid 0, and those that a failed `fork` left with a pid. The flag that it
sets there stays until the slot is used again.
-/
namespace ColorXv6.Sched.KillTarget
open Lib.Runs Lib.Slots Param Table ExitStatus SlotChanges

/-- What `kill` returns. -/
def killReturn (pid : Int) (t : Ptable) : Int :=
  match slotOf pid t with
  | none => -1
  | some _ => 0

/-- The killed flag is set, and who sleeps is RUNNABLE. -/
def mark (proc : Proc) : Proc :=
  { proc with killed := true, state := if proc.state = .sleeping then .runnable else proc.state }

/-- `kill(pid)` hits the process with the pid and nobody else. -/
structure HitsNamed (t : Ptable) (pid : Int) : Prop where
  found : killReturn pid t = 0 ↔ ∃ q, Named t pid q
  only : ∀ q, Named t pid q → kill pid t = t.modify q mark
  missed : (¬ ∃ q, Named t pid q) → killReturn pid t = -1 ∧ kill pid t = t

/-- The slot that is found, if any, is not UNUSED. -/
def Aimed (t : Ptable) (pid : Int) : Prop := ∀ q, slotOf pid t = some q → (t.proc q).state ≠ .unused

section Target
variable {s t : State} {pid : Int} {q : Nat}

theorem kill_found {t : Ptable} (found : slotOf pid t = some q) : kill pid t = t.modify q mark := by
  unfold slotOf at found
  unfold kill
  rw [found]
  rfl

theorem kill_missed {t : Ptable} (none : slotOf pid t = none) : killReturn pid t = -1 ∧ kill pid t = t := by
  unfold killReturn kill
  unfold slotOf at none ⊢
  rw [none]
  exact ⟨rfl, rfl⟩

theorem killReturn_found {t : Ptable} (found : slotOf pid t = some q) : killReturn pid t = 0 := by
  unfold killReturn
  rw [found]

/-- `kill` does what it should if and only if the slot it finds is in use. -/
theorem hitsNamed_iff (pids : Pids s) : HitsNamed s.ptable pid ↔ Aimed s.ptable pid := by
  constructor
  · intro hits q found
    obtain ⟨r, named⟩ := hits.found.mp (killReturn_found found)
    rw [named.slotOf pids] at found
    rw [← Option.some.inj found]
    exact named.2.1
  · intro aimed
    cases found : slotOf pid s.ptable with
    | none =>
      have nobody : ¬ ∃ q, Named s.ptable pid q := by
        rintro ⟨q, named⟩
        rw [named.slotOf pids] at found
        cases found
      have missed := kill_missed found
      refine ⟨⟨fun zero => ?_, fun named => absurd named nobody⟩, fun q named => absurd ⟨q, named⟩ nobody,
        fun _ => missed⟩
      rw [missed.1] at zero
      cases zero
    | some q =>
      obtain ⟨inside, here⟩ := slotOf_some found
      have named : Named s.ptable pid q := ⟨inside, aimed q found, here⟩
      refine ⟨⟨fun _ => ⟨q, named⟩, fun _ => killReturn_found found⟩, fun r other => ?_, fun nobody =>
        absurd ⟨q, named⟩ nobody⟩
      rw [other.slotOf pids] at found
      rw [Option.some.inj found]
      exact kill_found (Option.some.inj found ▸ other.slotOf pids)

/-- A slot that is not yet a process has no killed flag. -/
def Clean (s : State) : Prop :=
  ∀ q, stateOf s q = .unused ∨ stateOf s q = .embryo → (s.ptable.proc q).killed = false

/-- A `kill` finds a process whose `fork` is done, or nobody. -/
def Steady (s : State) : Act → Prop
  | .kill pid => ∀ q, slotOf pid s.ptable = some q → stateOf s q ≠ .unused ∧ stateOf s q ≠ .embryo
  | _ => True

theorem Clean.step {act : Act} (family : Family s) (clean : Clean s) (steady : Steady s act)
    (step : Step s act t) : Clean t := by
  have second : ∀ {x : Proc} {y : Int × Bool × Prio}, fields x = y → x.killed = y.2.1 := fun same => same ▸ rfl
  intro q young
  cases step_changed family step q with
  | kept same life =>
    rw [second same]
    refine clean q (young.imp (life.dead rfl).mp (life.dead rfl).mp)
  | born slot now embryo counted =>
    rw [second now]
    exact clean q (.inl (of_decide_eq_true (firstSlot_some slot).2))
  | abandoned embryo same unused =>
    rw [second same]
    exact clean q (.inr embryo)
  | grown p call place embryo living now runnable =>
    rw [second now]
    exact clean q (.inr embryo)
  | exited living same zombie =>
    rw [stateOf, zombie] at young
    obtain no | no := young
    · cases no
    · cases no
  | reaped zombie now unused => exact second now
  | killed pid call slot now life =>
    subst call
    obtain ⟨used, grown⟩ := steady q slot
    obtain unused | embryo := young
    · exact absurd ((life.dead rfl).mp unused) used
    · exact absurd ((life.dead rfl).mp embryo) grown
  | raised pid prio call slot now life =>
    rw [second now]
    exact clean q (young.imp (life.dead rfl).mp (life.dead rfl).mp)

theorem clean_boot : Clean boot := by
  intro q _
  obtain ⟨-, proc⟩ | ⟨-, proc⟩ := boot_proc q
  · rw [proc]
  · rw [proc]

theorem run_clean {acts : List Act} (run : Run (Guarded Steady Step) boot acts s) : Family s ∧ Clean s := by
  have both := run.preserves (fun s => Inv s ∧ Clean s)
    (fun _ _ _ ⟨inv, clean⟩ ⟨steady, step⟩ =>
      ⟨(inv_step inv step).1, clean.step inv.family steady step⟩) ⟨inv_boot, clean_boot⟩
  exact ⟨both.1.family, both.2⟩

end Target

/-- In every run `kill` hits the named process and nobody else, if and only if the slot it finds is
not UNUSED; and in every run whose kills find processes whose `fork` is done, a new process starts
without a killed flag. -/
theorem kill_hits_named_iff (acts : List Act) (s : State) (run : Run Step boot acts s) :
    (∀ pid, HitsNamed s.ptable pid ↔ Aimed s.ptable pid) ∧
      (Run (Guarded Steady Step) boot acts s → ∀ p np t, s.pc p = .forkLinked np →
        Step s (.forkRun p) t → stateOf t np = .runnable ∧ (t.ptable.proc np).killed = false) := by
  refine ⟨fun pid => hitsNamed_iff (run_pids run).2, fun run p np t place step => ?_⟩
  obtain ⟨family, clean⟩ := run_clean run
  obtain ⟨-, embryo⟩ := family.forker p np (congrArg forks place)
  unfold Step at step
  simp only [next, place] at step
  obtain ⟨-, rfl⟩ := guarded step
  unfold stateOf State.onTable State.goto
  rw [modify_same]
  exact ⟨rfl, clean np (.inr embryo)⟩

/-- Init forks a child. -/
def forkOne : List Act := [.schedule 0, .forkAlloc 0, .forkLink 0]

/-- A child of init, and what kills do then. -/
theorem kill_hits_named_iff_child : ∃ s, Run Step boot forkOne s ∧ Aimed s.ptable 2 ∧ HitsNamed s.ptable 2 := by
  obtain ⟨s, run, test⟩ := execute_exists next boot forkOne
    (fun s => slotOf 2 s.ptable = some 1 ∧ (s.ptable.proc 1).state = .embryo) (by decide +kernel)
  obtain ⟨slot, embryo⟩ := of_decide_eq_true test
  have aimed : Aimed s.ptable 2 := by
    intro q found
    rw [slot] at found
    rw [← Option.some.inj found, embryo]
    decide
  exact ⟨s, run, aimed, ((kill_hits_named_iff forkOne s run).1 2).mpr aimed⟩

/-- Nobody has pid 0, but `kill(0)` succeeds, and the next child starts with a killed flag. -/
def killNobody : List Act := [.schedule 0, .kill 0, .forkAlloc 0, .forkLink 0, .forkRun 0]

theorem kill_marks_unused :
    (killReturn 0 boot.ptable = 0 ∧ ¬ ∃ q, Named boot.ptable 0 q) ∧
      ∃ s, Run Step boot killNobody s ∧ stateOf s 1 = .runnable ∧ (s.ptable.proc 1).killed = true := by
  refine ⟨⟨by decide +kernel, ?_⟩, ?_⟩
  · rintro ⟨q, -, used, zero⟩
    rw [boot_used used] at zero
    cases zero
  · obtain ⟨s, run, test⟩ := execute_exists next boot killNobody
      (fun s => (s.ptable.proc 1).state = .runnable ∧ (s.ptable.proc 1).killed = true) (by decide +kernel)
    exact ⟨s, run, of_decide_eq_true test⟩

end ColorXv6.Sched.KillTarget
