import ColorXv6.Sched.SlotChanges

/-!
sysproc.c: `sys_setprio` and `sys_getprio`. The check of the value lets one more through than the
enum has, and `setprocprio` does not tell whether it has found the pid.
-/
namespace ColorXv6.Sched.Priorities
open Lib.Runs Lib.Slots Param Table ExitStatus SlotChanges

/-- An accepted value as the table keeps it. -/
def toPrio (prio : Int) : Prio := if prio = 0 then .normal else if prio = 1 then .high else .two

def prioValue : Prio → Int
  | .normal => 0
  | .high => 1
  | .two => 2

def getprocprio (pid : Int) (t : Ptable) : Prio :=
  match slotOf pid t with
  | none => .normal
  | some p => (t.proc p).prio

def sysGetprio (pid : Int) (t : Ptable) : Int :=
  if pid < 0 then -1 else prioValue (getprocprio pid t)

def sysSetprio (pid prio : Int) (t : Ptable) : Int × Ptable :=
  if pid < 0 ∨ prio < 0 ∨ prio > 2 then (-1, t) else (0, setprocprio pid (toPrio prio) t)

/-- The call sets the priority of the process with the pid, or refuses and changes nothing. -/
structure SetsNamed (t : Ptable) (pid prio : Int) : Prop where
  accepted : (sysSetprio pid prio t).1 = 0 ↔ (∃ q, Named t pid q) ∧ (prio = 0 ∨ prio = 1)
  done : (sysSetprio pid prio t).1 = 0 → sysGetprio pid (sysSetprio pid prio t).2 = prio ∧
    ∃ q, Named t pid q ∧ (sysSetprio pid prio t).2 = t.modify q fun proc => { proc with prio := toPrio prio }
  refused : (sysSetprio pid prio t).1 ≠ 0 → (sysSetprio pid prio t).1 = -1 ∧ (sysSetprio pid prio t).2 = t

/-- The arguments are refused, or the process exists and the value is in the enum. -/
def Checked (t : Ptable) (pid prio : Int) : Prop :=
  (pid < 0 ∨ prio < 0 ∨ prio > 2) ∨ (∃ q, Named t pid q) ∧ prio ≠ 2

section Calls
variable {s t : State} {pid prio : Int} {q : Nat}

theorem setprocprio_found {t : Ptable} {value : Prio} (found : slotOf pid t = some q) :
    setprocprio pid value t = t.modify q fun proc => { proc with prio := value } := by
  unfold slotOf at found
  unfold setprocprio
  rw [found]

/-- Setting a priority moves no pid. -/
theorem slotOf_modify {t : Ptable} {value : Prio} :
    slotOf pid (t.modify q fun proc => { proc with prio := value }) = slotOf pid t := by
  unfold slotOf
  congr 1
  funext p
  rw [modify_field Proc.pid t q p rfl]

theorem sysGetprio_set {t : Ptable} (found : slotOf pid t = some q) (named : ¬ pid < 0)
    (value : prio = 0 ∨ prio = 1) :
    sysGetprio pid (t.modify q fun proc => { proc with prio := toPrio prio }) = prio := by
  unfold sysGetprio getprocprio
  rw [if_neg named, slotOf_modify, found]
  dsimp only
  rw [modify_same]
  obtain rfl | rfl := value
  · rfl
  · rfl

/-- The call is right if and only if its arguments are refused, or a process has the pid and the
value is in the enum. -/
theorem setsNamed_iff (pids : Pids s) : SetsNamed s.ptable pid prio ↔ Checked s.ptable pid prio := by
  by_cases refused : pid < 0 ∨ prio < 0 ∨ prio > 2
  · have result : sysSetprio pid prio s.ptable = (-1, s.ptable) := if_pos refused
    have failed : (sysSetprio pid prio s.ptable).1 ≠ 0 := by
      rw [result]
      exact (by decide : (-1 : Int) ≠ 0)
    refine ⟨fun _ => .inl refused, fun _ => ⟨⟨fun zero => absurd zero failed, ?_⟩,
      fun zero => absurd zero failed, fun _ => by rw [result]; exact ⟨rfl, rfl⟩⟩⟩
    rintro ⟨⟨q, -, -, here⟩, value⟩
    have low := pids.nonneg q
    unfold pidAt at low
    omega
  · have result : sysSetprio pid prio s.ptable = (0, setprocprio pid (toPrio prio) s.ptable) := if_neg refused
    have zero : (sysSetprio pid prio s.ptable).1 = 0 := by rw [result]
    constructor
    · intro sets
      obtain ⟨named, value⟩ := sets.accepted.mp zero
      exact .inr ⟨named, by omega⟩
    · rintro (no | ⟨⟨q, named⟩, small⟩)
      · exact absurd no refused
      have value : prio = 0 ∨ prio = 1 := by omega
      have found := named.slotOf pids
      refine ⟨⟨fun _ => ⟨⟨q, named⟩, value⟩, fun _ => zero⟩, fun _ => ?_, fun nonzero => absurd zero nonzero⟩
      rw [result]
      rw [setprocprio_found found]
      exact ⟨sysGetprio_set found (by omega) value, q, named, rfl⟩

/-- A `setprio` of a value of the enum. -/
def InEnum (_ : State) : Act → Prop
  | .setprio _ prio => prio ≠ .two
  | _ => True

/-- No slot has the value that is not in the enum. -/
def Ranked (s : State) : Prop := ∀ q, (s.ptable.proc q).prio ≠ .two

theorem Ranked.step {act : Act} (family : Family s) (ranked : Ranked s) (inEnum : InEnum s act)
    (step : Step s act t) : Ranked t := by
  have third : ∀ {x : Proc} {y : Int × Bool × Prio}, fields x = y → x.prio = y.2.2 := fun same => same ▸ rfl
  intro q
  cases step_changed family step q with
  | kept same life =>
    rw [third same]
    exact ranked q
  | born slot now embryo counted =>
    rw [third now]
    exact ranked q
  | abandoned embryo same unused =>
    rw [third same]
    exact ranked q
  | grown p call place embryo living now runnable =>
    rw [third now]
    exact ranked p
  | exited living same zombie =>
    rw [third same]
    exact ranked q
  | reaped zombie now unused =>
    rw [third now]
    exact ranked q
  | killed pid call slot now life =>
    rw [third now]
    exact ranked q
  | raised pid prio call slot now life =>
    subst call
    rw [third now]
    exact inEnum

theorem ranked_boot : Ranked boot := by
  intro q
  obtain ⟨-, proc⟩ | ⟨-, proc⟩ := boot_proc q
  · rw [proc]
    decide
  · rw [proc]
    decide

theorem run_ranked {acts : List Act} (run : Run (Guarded InEnum Step) boot acts s) : Ranked s := by
  have both := run.preserves (fun s => Inv s ∧ Ranked s)
    (fun _ _ _ ⟨inv, ranked⟩ ⟨inEnum, step⟩ =>
      ⟨(inv_step inv step).1, ranked.step inv.family inEnum step⟩) ⟨inv_boot, ranked_boot⟩
  exact both.2

end Calls

/-- In every run `sys_setprio` sets the priority of the process with the pid or refuses, if and only
if its arguments are refused or name a process and a value of the enum; and in every run whose calls
pass values of the enum, every process has NORMAL or HIGH. -/
theorem setprio_sets_named_iff (acts : List Act) (s : State) (run : Run Step boot acts s) :
    (∀ pid prio, SetsNamed s.ptable pid prio ↔ Checked s.ptable pid prio) ∧
      (Run (Guarded InEnum Step) boot acts s → ∀ q, stateOf s q ≠ .unused →
        (s.ptable.proc q).prio = .normal ∨ (s.ptable.proc q).prio = .high) := by
  refine ⟨fun pid prio => setsNamed_iff (run_pids run).2, fun run q _ => ?_⟩
  have ranked := run_ranked run q
  cases prio : (s.ptable.proc q).prio with
  | normal => exact .inl rfl
  | high => exact .inr rfl
  | two => exact absurd prio ranked

/-- Init can be raised to HIGH. -/
theorem setprio_sets_named_iff_init : Checked boot.ptable 1 1 ∧ SetsNamed boot.ptable 1 1 :=
  have checked : Checked boot.ptable 1 1 := .inr ⟨⟨0, by decide, by decide, rfl⟩, by decide⟩
  ⟨checked, ((setprio_sets_named_iff [] boot (.nil boot)).1 1 1).mpr checked⟩

/-- A value that is not in the enum is accepted, and so is a pid that nobody has. -/
theorem setprio_accepts : (sysSetprio 1 2 boot.ptable).1 = 0 ∧
    ((sysSetprio 1 2 boot.ptable).2.proc 0).prio = .two ∧
    (sysSetprio 99 1 boot.ptable).1 = 0 ∧ ¬ ∃ q, Named boot.ptable 99 q := by
  refine ⟨by decide, by decide +kernel, by decide, ?_⟩
  rintro ⟨q, -, used, pid⟩
  rw [boot_used used] at pid
  cases pid

end ColorXv6.Sched.Priorities
