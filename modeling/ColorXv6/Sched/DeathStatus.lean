import ColorXv6.Vm.Kernel
import Mathlib.Data.Nat.Bitwise

/-!
What a process dies of and the status it leaves: `trap` and `sys_exit` on one side, the macros of
user.h on the other. The life of a process is a sequence of system calls and traps; a `kill` can come
at any time, and is noticed where `trap` looks at the flag.
-/
namespace ColorXv6.Sched.DeathStatus
open Lib.Runs
open Vm.Kernel (tPgflt)

/-! traps.h. Numbers below `tIrq0` are exceptions of the processor. -/

def tIrq0 : Nat := 32
def tSyscall : Nat := 64
def irqTimer : Nat := 0
def irqKbd : Nat := 1
def irqCom1 : Nat := 4
def irqIde : Nat := 14
def irqSpurious : Nat := 31

/-! The macros, on ints. -/

def wifexited (status : BitVec 32) : Bool := status &&& 0x7f == 0

def wexitstatus (status : BitVec 32) : Int := ((status &&& 0xff00).sshiftRight 8).toInt

def wifsignaled (status : BitVec 32) : Bool := status &&& 0x7f != 0

def wexittrap (status : BitVec 32) : Int := ((status &&& 0x7f) - 1).toInt

/-- Why the killed flag is set: by `kill`, by an exception, or by an interrupt that nobody expects. -/
inductive Cause where
  | kill
  | exception (no : Nat)
  | interrupt (no : Nat)
deriving DecidableEq

/-- How the page-fault case of `trap` ends; all but the last set the flag. -/
inductive Fault where
  | outside
  | guardPage
  | noPage
  | noTable
  | mapped
deriving DecidableEq

/-- Where the process is: in user mode, in a system call, or in `trap` after the switch, before the
first or the second of the two tests of the flag. -/
inductive Place where
  | user
  | syscall
  /-- in a system call, at an instruction whose page fault was last not served -/
  | faulting (last : Fault)
  | firstCheck (trapno : Nat)
  | lastCheck (trapno : Nat)
deriving DecidableEq

structure Proc where
  killed : Bool
  place : Place
  causes : List Cause
deriving DecidableEq

inductive Ending where
  | sysExit (status : BitVec 32)
  | forced
deriving DecidableEq

/-- `dead` has the argument of `exit`. -/
inductive State where
  | alive (p : Proc)
  | dead (ending : Ending) (status : BitVec 32) (causes : List Cause)
deriving DecidableEq

def Proc.mark (p : Proc) (cause : Cause) : Proc := { p with killed := true, causes := p.causes ++ [cause] }

/-- Interrupts that have a case in the switch of `trap`. -/
def IsDevice (trapno : Nat) : Prop :=
  trapno ∈ [tIrq0 + irqTimer, tIrq0 + irqIde, tIrq0 + irqIde + 1, tIrq0 + irqKbd, tIrq0 + irqCom1,
    tIrq0 + 7, tIrq0 + irqSpurious]

instance (trapno : Nat) : Decidable (IsDevice trapno) := inferInstanceAs (Decidable (_ ∈ _))

def pageFault (fault : Fault) (p : Proc) : Proc :=
  match fault with
  | .mapped => p
  | _ => p.mark (.exception tPgflt)

/-- The switch of `trap`; `none` is a panic. -/
def trapSwitch (trapno : Nat) (fault : Fault) (inKernel : Bool) (p : Proc) : Option Proc :=
  if IsDevice trapno then some p
  else if trapno = tPgflt then some (pageFault fault p)
  else if inKernel then none
  else some (p.mark (if trapno < tIrq0 then .exception trapno else .interrupt trapno))

/-- Where a trap in the kernel goes back to. An interrupt goes back to where it came from. The
instruction of a page fault is executed again, and faults again unless the page was mapped: an address
outside stays outside, memory may have become free. The error code is that of the system call, so
that the kernel does not find the guard page. -/
def kernelReturn (trapno : Nat) (fault : Fault) (place : Place) : Option Place :=
  if trapno ≠ tPgflt then
    match place with
    | .syscall | .faulting _ => some place
    | _ => none
  else
    match place, fault with
    | .faulting .outside, .outside => some place
    | .faulting .outside, _ => none
    | .faulting _, .outside => none
    | _, .guardPage => none
    | .syscall, .mapped | .faulting _, .mapped => some .syscall
    | .syscall, _ | .faulting _, _ => some (.faulting fault)
    | _, _ => none

/-- Steps of the life of a process. `syscall` and `sysret` are the two ends of the first branch of
`trap`; `sysExit` and `kernelTrap` happen between them; `check` is either test at the end of `trap`. -/
inductive Event where
  | kill
  | syscall
  | sysExit (status : BitVec 32)
  | kernelTrap (trapno : Nat) (fault : Fault)
  | sysret
  | trap (trapno : Nat) (fault : Fault)
  | check
deriving DecidableEq

/-- `if(myproc()->killed) exit(status)`. -/
def exitIfKilled (p : Proc) (status : BitVec 32) (place : Place) : State :=
  if p.killed then .dead .forced status p.causes else .alive { p with place }

def advance (p : Proc) : Event → Option State
  | .kill => some (.alive (p.mark .kill))
  | .syscall => if p.place = .user then some (exitIfKilled p 1 .syscall) else none
  | .sysExit status =>
    if p.place = .syscall then some (.dead (.sysExit status) (status <<< 8) p.causes) else none
  | .kernelTrap trapno fault =>
    (kernelReturn trapno fault p.place).bind fun place =>
      (trapSwitch trapno fault true p).map fun q => .alive { q with place }
  | .sysret => if p.place = .syscall then some (exitIfKilled p 1 .user) else none
  | .trap trapno fault =>
    if p.place = .user ∧ trapno < 256 ∧ trapno ≠ tSyscall then
      (trapSwitch trapno fault false p).map fun q => .alive { q with place := .firstCheck trapno }
    else none
  | .check =>
    match p.place with
    | .firstCheck trapno => some (exitIfKilled p (BitVec.ofNat 32 (trapno + 1)) (.lastCheck trapno))
    | .lastCheck trapno => some (exitIfKilled p (BitVec.ofNat 32 (trapno + 1)) .user)
    | _ => none

def next : State → Event → Option State
  | .alive p, event => advance p event
  | .dead .., _ => none

def Step (s : State) (event : Event) (t : State) : Prop := next s event = some t

/-- A new process, on its way to user mode. -/
def fresh : State := .alive { killed := false, place := .user, causes := [] }

/-! What the macros should tell. -/

/-- The status of a process that ended so tells the cause. -/
def Decodes (ending : Ending) (status : BitVec 32) (causes : List Cause) : Prop :=
  match ending with
  | .sysExit s => wifexited status ∧ ¬ wifsignaled status ∧ wexitstatus status = s.toInt % 256
  | .forced =>
    (∀ no : Nat, no < 32 → .exception no ∈ causes → wifsignaled status ∧ wexittrap status = no) ∧
      ((∀ cause ∈ causes, cause = .kill) →
        wifsignaled status ∧ ¬ (0 ≤ wexittrap status ∧ wexittrap status < 32))

/-- The process calls `exit` itself, or the flag is noticed at the end of an interrupt or of the very
exception that set it. -/
def Telling (p : Proc) : Event → Prop
  | .sysExit _ => True
  | .check => ∀ no, p.place = .firstCheck no ∨ p.place = .lastCheck no →
    32 ≤ no ∨ .exception no ∈ p.causes
  | _ => False

/-! The macros on the statuses that occur. -/

theorem wifsignaled_eq_not (status : BitVec 32) : wifsignaled status = !wifexited status := rfl

theorem toNat_and_mask (status : BitVec 32) : (status &&& 0x7f).toNat = status.toNat % 128 :=
  Nat.and_two_pow_sub_one_eq_mod status.toNat 7

theorem shifted_toNat (s : BitVec 32) : (s <<< 8).toNat = s.toNat * 256 % 2 ^ 32 := by
  rw [BitVec.toNat_shiftLeft, Nat.shiftLeft_eq]

theorem wifexited_shifted (s : BitVec 32) : wifexited (s <<< 8) = true := by
  unfold wifexited
  rw [beq_iff_eq, ← BitVec.toNat_inj, toNat_and_mask, shifted_toNat]
  change _ = 0
  omega

theorem shifted_and_mask (s : BitVec 32) : ((s <<< 8) &&& 0xff00).toNat = s.toNat % 256 * 256 := by
  have split : s.toNat * 256 % 2 ^ 32 = (s.toNat % 2 ^ 24) <<< 8 := by
    rw [Nat.shiftLeft_eq]
    omega
  rw [BitVec.toNat_and, shifted_toNat, split]
  change _ &&& 255 <<< 8 = _
  rw [← Nat.shiftLeft_and_distrib, Nat.shiftLeft_eq, Nat.and_two_pow_sub_one_eq_mod _ 8]
  omega

theorem wexitstatus_shifted (s : BitVec 32) : wexitstatus (s <<< 8) = s.toInt % 256 := by
  have masked := shifted_and_mask s
  have signed : ((s <<< 8) &&& 0xff00).toInt = s.toNat % 256 * 256 := by
    rw [BitVec.toInt_eq_toNat_of_lt (by omega), masked]
    omega
  have value := BitVec.toInt_eq_toNat_cond s
  unfold wexitstatus
  rw [BitVec.toInt_sshiftRight, signed, Int.shiftRight_eq_div_pow, value]
  split
  · omega
  · omega

/-- A trap number in a status. -/
theorem wexittrap_succ {no : Nat} (small : no < 127) :
    wifsignaled (BitVec.ofNat 32 (no + 1)) = true ∧ wexittrap (BitVec.ofNat 32 (no + 1)) = no := by
  revert no
  decide +kernel

theorem device_range {no : Nat} (device : IsDevice no) : 32 ≤ no ∧ no < 64 := by
  unfold IsDevice at device
  simp only [List.mem_cons, List.not_mem_nil, or_false] at device
  unfold tIrq0 irqTimer irqIde irqKbd irqCom1 irqSpurious at device
  omega

/-! The causes there are at each place. -/

/-- What the last trap in user mode has set the flag for, if it has. -/
def OwnCause (no : Nat) (cause : Cause) : Prop :=
  (cause = .exception no ∧ no < 32) ∨ (cause = .interrupt no ∧ 32 ≤ no)

def Expected : Place → Cause → Prop
  | .user, cause => cause = .kill
  | .syscall, cause | .faulting _, cause => cause = .kill ∨ cause = .exception tPgflt
  | .firstCheck no, cause | .lastCheck no, cause => cause = .kill ∨ OwnCause no cause

def InKernel (place : Place) : Prop := place = .syscall ∨ ∃ last, place = .faulting last

structure Living (p : Proc) : Prop where
  killed : p.killed = true ↔ p.causes ≠ []
  expected : ∀ cause ∈ p.causes, Expected p.place cause
  /-- numbers from 64 on have no case in the switch -/
  strange : ∀ no, p.place = .firstCheck no → 64 ≤ no → .interrupt no ∈ p.causes
  last : ∀ no, p.place = .lastCheck no → no < 64

variable {place : Place}

section Life
variable {p q : Proc} {no : Nat} {fault : Fault} {event : Event}

theorem expected_kill (place : Place) : Expected place .kill := by
  cases place with
  | user => rfl
  | syscall => exact .inl rfl
  | faulting last => exact .inl rfl
  | firstCheck no => exact .inl rfl
  | lastCheck no => exact .inl rfl

/-- A trap in the kernel goes back to the kernel. -/
theorem kernelReturn_inKernel {back : Place} (result : kernelReturn no fault place = some back) :
    InKernel place ∧ InKernel back := by
  unfold kernelReturn at result
  split at result
  · split at result
    · cases result
      exact ⟨.inl rfl, .inl rfl⟩
    · cases result
      exact ⟨.inr ⟨_, rfl⟩, .inr ⟨_, rfl⟩⟩
    · cases result
  · split at result <;> cases result
    · exact ⟨.inr ⟨_, rfl⟩, .inr ⟨_, rfl⟩⟩
    · exact ⟨.inl rfl, .inl rfl⟩
    · exact ⟨.inr ⟨_, rfl⟩, .inl rfl⟩
    · exact ⟨.inl rfl, .inr ⟨_, rfl⟩⟩
    · exact ⟨.inr ⟨_, rfl⟩, .inr ⟨_, rfl⟩⟩

theorem expected_inKernel (kernel : InKernel place) (cause : Cause) :
    Expected place cause ↔ cause = .kill ∨ cause = .exception tPgflt := by
  obtain rfl | ⟨last, rfl⟩ := kernel
  · exact Iff.rfl
  · exact Iff.rfl

section Steps
variable (living : Living p)
include living

theorem Living.mark {cause : Cause} (expected : Expected p.place cause) :
    Living (p.mark cause) where
  killed := ⟨fun _ => List.append_ne_nil_of_right_ne_nil _ (List.cons_ne_nil _ _), fun _ => rfl⟩
  expected c mem := by
    obtain before | now := List.mem_append.mp mem
    · exact living.expected c before
    · rw [List.mem_singleton.mp now]
      exact expected
  strange no place far := List.mem_append_left _ (living.strange no place far)
  last := living.last

/-- Without a flag there is no cause, so the process can go on to any place. -/
theorem Living.move (spared : p.killed = false)
    (near : ∀ no, place = .firstCheck no ∨ place = .lastCheck no → no < 64) :
    Living { p with place } := by
  have none : p.causes = [] := by
    by_contra some
    rw [living.killed.mpr some] at spared
    cases spared
  refine ⟨living.killed, fun cause mem => ?_, fun no here far => ?_, fun no here => near no (.inr here)⟩
  · rw [none] at mem
    cases mem
  · have small := near no (.inl here)
    omega

theorem living_exitIfKilled {status : BitVec 32}
    (near : ∀ no, place = .firstCheck no ∨ place = .lastCheck no → no < 64)
    (done : exitIfKilled p status place = .alive q) : Living q := by
  unfold exitIfKilled at done
  split at done
  · cases done
  · rename_i spared
    cases done
    exact living.move (Bool.eq_false_iff.mpr spared) near

/-- Past the first test. -/
theorem living_checked (place : p.place = .firstCheck no) {status : BitVec 32}
    (done : exitIfKilled p status (.lastCheck no) = .alive q) : Living q := by
  unfold exitIfKilled at done
  split at done
  · cases done
  · rename_i spared
    cases done
    refine living.move (Bool.eq_false_iff.mpr spared) fun no' here => ?_
    obtain here | here := here
    · cases here
    · cases here
      by_contra far
      exact spared (living.killed.mpr (List.ne_nil_of_mem (living.strange no place (by omega))))

/-- After a trap in user mode, whether or not it has set the flag. -/
theorem living_trap (user : p.place = .user) (result : trapSwitch no fault false p = some q) :
    Living { q with place := .firstCheck no } := by
  have kills : ∀ cause ∈ p.causes, cause = .kill := fun cause mem => by
    have expected := living.expected cause mem
    rw [user] at expected
    exact expected
  have unmarked : no < 64 → Living { p with place := .firstCheck no } := by
    intro near
    refine ⟨living.killed, fun cause mem => .inl (kills cause mem), fun no' here far => ?_, nofun⟩
    cases here
    omega
  have marked : ∀ cause, OwnCause no cause → (64 ≤ no → cause = .interrupt no) →
      Living { p.mark cause with place := .firstCheck no } := by
    intro cause own strange
    refine ⟨⟨fun _ => List.append_ne_nil_of_right_ne_nil _ (List.cons_ne_nil _ _), fun _ => rfl⟩,
      fun c mem => ?_, fun no' here far => ?_, nofun⟩
    · obtain before | now := List.mem_append.mp mem
      · exact .inl (kills c before)
      · rw [List.mem_singleton.mp now]
        exact .inr own
    · cases here
      rw [← strange far]
      exact List.mem_append_right _ (List.mem_singleton_self cause)
  unfold trapSwitch at result
  split at result
  · rename_i device
    cases result
    exact unmarked (device_range device).2
  split at result
  · rename_i pgflt
    cases result
    unfold pageFault
    have own : OwnCause no (.exception tPgflt) := .inl ⟨by rw [pgflt], by rw [pgflt]; decide⟩
    have near : no < 64 := by
      rw [pgflt]
      decide
    split
    · exact unmarked near
    · exact marked _ own fun far => by omega
  split at result
  · cases result
  · cases result
    unfold tIrq0
    split
    · rename_i low
      exact marked _ (.inl ⟨rfl, low⟩) fun far => by omega
    · rename_i high
      exact marked _ (.inr ⟨rfl, by omega⟩) fun _ => rfl

theorem living_kernelTrap (back : kernelReturn no fault p.place = some place)
    (result : trapSwitch no fault true p = some q) : Living { q with place } := by
  obtain ⟨before, after⟩ := kernelReturn_inKernel back
  have unmarked : Living { p with place } := by
    refine ⟨living.killed, fun cause mem => ?_, fun no' here => ?_, fun no' here => ?_⟩
    · exact (expected_inKernel after cause).mpr
        ((expected_inKernel before cause).mp (living.expected cause mem))
    · obtain rfl | ⟨last, rfl⟩ := after <;> cases here
    · obtain rfl | ⟨last, rfl⟩ := after <;> cases here
  unfold trapSwitch at result
  split at result
  · cases result
    exact unmarked
  split at result
  · cases result
    unfold pageFault
    split
    · exact unmarked
    · exact unmarked.mark ((expected_inKernel after _).mpr (.inr rfl))
  split at result
  · cases result
  · rename_i outside
    exact absurd rfl outside

theorem Living.step (step : Step (.alive p) event (.alive q)) : Living q := by
  change advance p event = some (.alive q) at step
  cases event <;> simp only [advance] at step
  case kill =>
    cases step
    exact living.mark (expected_kill _)
  case syscall =>
    split at step
    · exact living_exitIfKilled living (by simp) (Option.some.inj step)
    · cases step
  case sysExit status =>
    split at step
    · cases step
    · cases step
  case kernelTrap no fault =>
    obtain ⟨place, back, after⟩ := Option.bind_eq_some_iff.mp step
    obtain ⟨q', result, same⟩ := Option.map_eq_some_iff.mp after
    cases same
    exact living_kernelTrap living back result
  case sysret =>
    split at step
    · exact living_exitIfKilled living (by simp) (Option.some.inj step)
    · cases step
  case trap no fault =>
    split at step
    · rename_i ready
      obtain ⟨q', result, same⟩ := Option.map_eq_some_iff.mp step
      cases same
      exact living_trap living ready.1 result
    · cases step
  case check =>
    split at step
    · rename_i no place
      refine living_checked living place (Option.some.inj step)
    · exact living_exitIfKilled living (by simp) (Option.some.inj step)
    · cases step

end Steps

theorem living_fresh : Living { killed := false, place := .user, causes := [] } :=
  ⟨⟨nofun, fun some => absurd rfl some⟩, nofun, nofun, nofun⟩

/-- Who is not dead is living in this sense, after any sequence of events. -/
theorem run_living {events : List Event} (run : Run Step fresh events (.alive p)) : Living p := by
  have all := run.preserves (fun s => ∀ p, s = .alive p → Living p) ?_ ?_
  · exact all p rfl
  · rintro s event t living step q rfl
    cases s with
    | alive p => exact (living p rfl).step step
    | dead ending status causes => cases step
  · rintro p same
    cases same
    exact living_fresh

/-! The ways to die. -/

/-- Status 1 says divide error. -/
theorem not_decodes_one (living : Living p)
    (kernel : p.place = .user ∨ p.place = .syscall) : ¬ Decodes .forced 1 p.causes := by
  rintro ⟨exceptions, kills⟩
  by_cases fault : .exception tPgflt ∈ p.causes
  · have wrong := (exceptions tPgflt (by decide) fault).2
    exact absurd wrong (by decide)
  · refine (kills fun cause mem => ?_).2 (by decide)
    have expected := living.expected cause mem
    obtain place | place := kernel
    · rw [place] at expected
      exact expected
    · rw [place] at expected
      obtain kill | other := expected
      · exact kill
      · rw [other] at mem
        exact absurd mem fault

theorem exitIfKilled_dead {status status' : BitVec 32} {ending : Ending} {causes : List Cause}
    (done : exitIfKilled p status place = .dead ending status' causes) :
    ending = .forced ∧ status' = status ∧ causes = p.causes := by
  unfold exitIfKilled at done
  split at done
  · cases done
    exact ⟨rfl, rfl, rfl⟩
  · cases done

/-- A flag noticed at the end of `trap`. -/
theorem decodes_check_iff (living : Living p)
    (place : p.place = .firstCheck no ∨ p.place = .lastCheck no) :
    Decodes .forced (BitVec.ofNat 32 (no + 1)) p.causes ↔ 32 ≤ no ∨ .exception no ∈ p.causes := by
  have own : ∀ cause ∈ p.causes, cause = .kill ∨ OwnCause no cause := by
    intro cause mem
    have expected := living.expected cause mem
    obtain here | here := place
    · rw [here] at expected
      exact expected
    · rw [here] at expected
      exact expected
  have exception : ∀ no', .exception no' ∈ p.causes → no' = no ∧ no < 32 := by
    intro no' mem
    obtain kill | ⟨same, low⟩ | ⟨same, -⟩ := own _ mem
    · cases kill
    · cases same
      exact ⟨rfl, low⟩
    · cases same
  constructor
  · rintro ⟨-, kills⟩
    by_contra neither
    obtain ⟨low, served⟩ := not_or.mp neither
    obtain ⟨-, value⟩ := @wexittrap_succ no (by omega)
    refine (kills fun cause mem => ?_).2 (by rw [value]; omega)
    obtain kill | ⟨same, -⟩ | ⟨-, high⟩ := own cause mem
    · exact kill
    · rw [same] at mem
      exact absurd mem served
    · exact absurd high low
  · intro telling
    refine ⟨fun no' small mem => ?_, fun kills => ?_⟩
    · obtain ⟨rfl, low⟩ := exception no' mem
      exact wexittrap_succ (by omega)
    · have near : no < 64 := by
        obtain here | here := place
        · by_contra far
          have wrong := kills _ (living.strange no here (by omega))
          cases wrong
        · exact living.last no here
      obtain ⟨signaled, value⟩ := @wexittrap_succ no (by omega)
      refine ⟨signaled, ?_⟩
      rw [value]
      obtain high | mem := telling
      · omega
      · cases kills _ mem

theorem telling_check_iff (place : p.place = .firstCheck no ∨ p.place = .lastCheck no) :
    Telling p .check ↔ 32 ≤ no ∨ .exception no ∈ p.causes := by
  refine ⟨fun telling => telling no place, fun here no' place' => ?_⟩
  have same : no' = no := by
    obtain first | last := place
    · obtain first' | last' := place'
      · rw [first] at first'
        exact (Place.firstCheck.inj first').symm
      · rw [first] at last'
        cases last'
    · obtain first' | last' := place'
      · rw [last] at first'
        cases first'
      · rw [last] at last'
        exact (Place.lastCheck.inj last').symm
  rw [same]
  exact here

end Life

/-- However a process dies, its status tells the cause if and only if it called `exit` itself or the
flag was noticed at the end of an interrupt or of the very exception that set it. -/
theorem death_status_decodes_iff {events : List Event} {p : Proc} {event : Event} {ending : Ending}
    {status : BitVec 32} {causes : List Cause} (run : Run Step fresh events (.alive p))
    (dies : Step (.alive p) event (.dead ending status causes)) :
    Decodes ending status causes ↔ Telling p event := by
  have living := run_living run
  change advance p event = some (.dead ending status causes) at dies
  cases event <;> simp only [advance] at dies
  case kill => cases dies
  case syscall =>
    split at dies
    · rename_i place
      obtain ⟨rfl, rfl, rfl⟩ := exitIfKilled_dead (Option.some.inj dies)
      exact iff_of_false (not_decodes_one living (.inl place)) id
    · cases dies
  case sysExit s =>
    split at dies
    · cases dies
      have exited := wifexited_shifted s
      refine iff_of_true ⟨exited, ?_, wexitstatus_shifted s⟩ trivial
      rw [wifsignaled_eq_not, exited]
      decide
    · cases dies
  case kernelTrap no fault =>
    obtain ⟨place, -, after⟩ := Option.bind_eq_some_iff.mp dies
    obtain ⟨q, -, same⟩ := Option.map_eq_some_iff.mp after
    cases same
  case sysret =>
    split at dies
    · rename_i place
      obtain ⟨rfl, rfl, rfl⟩ := exitIfKilled_dead (Option.some.inj dies)
      exact iff_of_false (not_decodes_one living (.inr place)) id
    · cases dies
  case trap no fault =>
    split at dies
    · obtain ⟨q, -, same⟩ := Option.map_eq_some_iff.mp dies
      cases same
    · cases dies
  case check =>
    split at dies
    · rename_i no place
      obtain ⟨rfl, rfl, rfl⟩ := exitIfKilled_dead (Option.some.inj dies)
      rw [decodes_check_iff living (.inl place), telling_check_iff (.inl place)]
    · rename_i no place
      obtain ⟨rfl, rfl, rfl⟩ := exitIfKilled_dead (Option.some.inj dies)
      rw [decodes_check_iff living (.inr place), telling_check_iff (.inr place)]
    · cases dies

/-- A process that is killed at a tick of the clock. -/
def atTick : List Event := [.trap (tIrq0 + irqTimer) .mapped, .check, .kill]

theorem death_status_decodes_iff_tick : ∃ p, Run Step fresh atTick (.alive p) ∧
    Step (.alive p) .check (.dead .forced 33 [.kill]) ∧ Decodes .forced 33 [.kill] := by
  have run : Run Step fresh atTick (.alive ⟨true, .lastCheck 32, [.kill]⟩) := execute_run (by decide)
  have dies : Step (.alive ⟨true, .lastCheck 32, [.kill]⟩) .check (.dead .forced 33 [.kill]) := by
    unfold Step
    decide
  refine ⟨_, run, dies, (death_status_decodes_iff run dies).mpr ?_⟩
  exact (telling_check_iff (.inr rfl)).mpr (.inl (le_refl 32))

/-- Killed before a system call: the status says divide error. A page fault of the kernel on behalf
of the process for which memory is found only when it is raised again: the same. Killed before a page
fault that is served: the status says page fault. -/
theorem death_status_misleads :
    execute next fresh [.kill, .syscall] = some (.dead .forced 1 [.kill]) ∧
      execute next fresh [.syscall, .kernelTrap tPgflt .noPage, .kernelTrap tPgflt .mapped, .sysret] =
        some (.dead .forced 1 [.exception tPgflt]) ∧
      execute next fresh [.kill, .trap tPgflt .mapped, .check] = some (.dead .forced 15 [.kill]) ∧
      wexittrap 1 = 0 ∧ wexittrap 15 = 14 := by
  decide

end ColorXv6.Sched.DeathStatus
