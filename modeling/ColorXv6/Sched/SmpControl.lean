import ColorXv6.Sched.Smp

/-!
Which CPU executes what. The invariant says for each CPU what it executes and for
each slot whether a CPU is on its kernel stack; between the two halves of a switch,
and only there, the state of a process and `c->proc` disagree, and then the lock
is held.
-/
namespace ColorXv6.Sched.SmpControl
open Lib.Runs Lib.Slots Param Smp
open Table (Ptable Prio Chan Wakes modify_same modify_other modify_field modify_set)
open Scheduler (Place)
open Vm.Process (ProcState)

variable {ι : Type}

/-- CPU `c` executes on the kernel stack of `p`. -/
def On (s : State ι) (c : ι) (p : Nat) : Prop := ∃ back, (s.cpu c).at_ = .on p back

/-- The state and the stage of a process that a CPU is on; `mine` says that this CPU holds the
lock. -/
def Hosted (state : ProcState) (stage : Stage) (mine : Prop) : Prop :=
  match stage with
  | .running => state = .running
  | .scanning => state = .running ∧ mine
  | .resumed k => state = .running ∧ k ≠ .exit ∧ mine
  | .leaving k =>
    (state = .zombie ∨ (state = .runnable ∨ state = .sleeping) ∧ k ≠ .exit) ∧ mine
  | .saved _ => False

/-- The same for a process that no CPU is on. -/
def Parked (state : ProcState) (stage : Stage) : Prop :=
  state ≠ .running ∧ (state = .runnable ∨ state = .sleeping → ∃ k, stage = .saved k ∧ k ≠ .exit)

structure Control (s : State ι) : Prop where
  sched : ∀ c place, (s.cpu c).at_ = .sched place →
    (s.cpu c).proc = none ∧ (place ≠ .top → s.lock = some c)
  returned : ∀ c place, (s.cpu c).at_ = .returned place → place ≠ .top ∧ s.lock = some c
  on : ∀ c p back, (s.cpu c).at_ = .on p back → back ≠ .top ∧ (s.cpu c).proc = some p ∧
    Hosted (s.stateOf p) (s.stage p) (s.lock = some c)
  unique : ∀ c d p, On s c p → On s d p → c = d
  parked : ∀ p, (∀ c, ¬ On s c p) → Parked (s.stateOf p) (s.stage p)

variable {s t : State ι} {c : ι} {p q : Nat}

theorem Hosted.mono {state : ProcState} {stage : Stage} {mine yours : Prop}
    (hosted : Hosted state stage mine) (still : mine → yours) : Hosted state stage yours := by
  cases stage with
  | running => exact hosted
  | scanning => exact ⟨hosted.1, still hosted.2⟩
  | resumed k => exact ⟨hosted.1, hosted.2.1, still hosted.2.2⟩
  | leaving k => exact ⟨hosted.1, still hosted.2⟩
  | saved k => exact hosted

/-- Without the lock, a hosted process is simply running. -/
theorem Hosted.running {state : ProcState} {stage : Stage} {mine : Prop}
    (hosted : Hosted state stage mine) (without : ¬ mine) : stage = .running ∧ state = .running := by
  cases stage with
  | running => exact ⟨rfl, hosted⟩
  | scanning => exact absurd hosted.2 without
  | resumed k => exact absurd hosted.2.2 without
  | leaving k => exact absurd hosted.2 without
  | saved k => exact hosted.elim

theorem Hosted.alive {state : ProcState} {stage : Stage} {mine : Prop}
    (hosted : Hosted state stage mine) : state ≠ .unused ∧ state ≠ .embryo := by
  cases stage with
  | running => simp [hosted.trans rfl]
  | scanning => simp [hosted.1]
  | resumed k => simp [hosted.1]
  | leaving k => rcases hosted.1 with zombie | ⟨runnable | sleeping, -⟩ <;> simp_all
  | saved k => exact hosted.elim

/-- UNUSED and EMBRYO slots are never executed on. -/
theorem Control.not_on_dead (control : Control s)
    (dead : s.stateOf q = .unused ∨ s.stateOf q = .embryo) (d : ι) : ¬ On s d q := by
  rintro ⟨back, here⟩
  have alive := (control.on d q back here).2.2.alive
  exact dead.elim alive.1 alive.2

/-- A process whose CPU does not hold the lock is RUNNING. -/
theorem Control.not_on_waiting (control : Control s) (unlocked : ∀ d, On s d q → s.lock ≠ some d)
    (waiting : s.stateOf q ≠ .running) (d : ι) : ¬ On s d q := by
  rintro ⟨back, here⟩
  have hosted := (control.on d q back here).2.2
  exact waiting (hosted.running (unlocked d ⟨back, here⟩)).2

/-- While the lock is free, `c->proc` is the process whose stack the CPU is on. -/
theorem Control.proc_iff (control : Control s) (free : s.lock = none) (c : ι) (p : Nat) :
    (s.cpu c).proc = some p ↔ On s c p := by
  constructor
  · intro proc
    cases here : (s.cpu c).at_ with
    | sched place =>
      rw [(control.sched c place here).1] at proc
      cases proc
    | returned place =>
      have held := (control.returned c place here).2
      rw [free] at held
      cases held
    | on q back =>
      rw [(control.on c q back here).2.1] at proc
      cases proc
      exact ⟨back, here⟩
  · rintro ⟨back, here⟩
    exact (control.on c p back here).2.1

/-- While the lock is free, a process is RUNNING where a CPU is on its stack. -/
theorem Control.running_iff (control : Control s) (free : s.lock = none) (p : Nat) :
    s.stateOf p = .running ↔ ∃ c, On s c p := by
  constructor
  · intro running
    by_contra alone
    exact (control.parked p fun c here => alone ⟨c, here⟩).1 running
  · rintro ⟨c, back, here⟩
    exact ((control.on c p back here).2.2.running (by simp [free])).2

theorem control_boot : Control (boot : State ι) where
  sched := by
    intro c place here
    cases here
    exact ⟨rfl, fun inside => absurd rfl inside⟩
  returned := by
    intro c place here
    cases here
  on := by
    intro c p back here
    cases here
  unique := by
    rintro c d p ⟨back, here⟩
    cases here
  parked := by
    intro p _
    refine ⟨?_, fun _ => ⟨.forkret, rfl, by simp⟩⟩
    show (if p = 0 then _ else _ : Table.Proc).state ≠ .running
    split <;> simp

/-! Steps that leave every CPU where it is. -/

/-- What a slot has to satisfy after such a step. -/
def SlotOk (s t : State ι) (q : Nat) : Prop :=
  (∀ d, On s d q → Hosted (t.stateOf q) (t.stage q) (t.lock = some d)) ∧
    ((∀ d, ¬ On s d q) → Parked (t.stateOf q) (t.stage q))

/-- A slot that has not changed, when the lock has not changed for the CPU on it. -/
theorem Control.slot_same (control : Control s) (state : t.stateOf q = s.stateOf q)
    (stage : t.stage q = s.stage q) (lock : ∀ d, On s d q → s.lock = some d → t.lock = some d) :
    SlotOk s t q := by
  rw [SlotOk, state, stage]
  refine ⟨?_, control.parked q⟩
  rintro d ⟨back, here⟩
  exact (control.on d q back here).2.2.mono (lock d ⟨back, here⟩)

theorem slot_parked (alone : ∀ d, ¬ On s d q) (parked : Parked (t.stateOf q) (t.stage q)) :
    SlotOk s t q :=
  ⟨fun d here => absurd here (alone d), fun _ => parked⟩

theorem Control.slot_here (control : Control s) (here : On s c q)
    (hosted : Hosted (t.stateOf q) (t.stage q) (t.lock = some c)) : SlotOk s t q := by
  refine ⟨?_, fun alone => absurd here (alone c)⟩
  intro d there
  cases control.unique c d q here there
  exact hosted

/-- The lock changes hands between CPU `c`, on the stack of a process, and nobody. -/
theorem Control.keep (control : Control s) (cpu : t.cpu = s.cpu)
    (lock : t.lock = s.lock ∨ ∃ c p, (s.lock = none ∨ s.lock = some c) ∧ On s c p)
    (slots : ∀ q, SlotOk s t q) : Control t := by
  have same : ∀ d q, On t d q ↔ On s d q := by
    intro d q
    unfold On
    rw [cpu]
  -- a CPU in the scheduler that has the lock keeps it
  have keeps : ∀ d, (∀ q, ¬ On s d q) → s.lock = some d → t.lock = some d := by
    intro d away held
    rcases lock with unchanged | ⟨c, p, free | mine, here⟩
    · rw [unchanged, held]
    · rw [free] at held
      cases held
    · rw [mine] at held
      cases held
      exact absurd here (away p)
  constructor
  · intro d place here
    rw [cpu] at here ⊢
    have before := control.sched d place here
    refine ⟨before.1, fun inside => keeps d ?_ (before.2 inside)⟩
    rintro q ⟨back, there⟩
    rw [here] at there
    cases there
  · intro d place here
    rw [cpu] at here
    have before := control.returned d place here
    refine ⟨before.1, keeps d ?_ before.2⟩
    rintro q ⟨back, there⟩
    rw [here] at there
    cases there
  · intro d q back here
    rw [cpu] at here ⊢
    have before := control.on d q back here
    exact ⟨before.1, before.2.1, (slots q).1 d ⟨back, here⟩⟩
  · intro d d' q here there
    exact control.unique d d' q ((same d q).mp here) ((same d' q).mp there)
  · intro q alone
    exact (slots q).2 fun d here => alone d ((same d q).mpr here)

/-- A CPU is on one stack. -/
theorem on_inj (here : On s c p) (there : On s c q) : p = q := by
  obtain ⟨back, here⟩ := here
  obtain ⟨back', there⟩ := there
  rw [here] at there
  cases there
  rfl

/-- What other processes undergo under the lock: they are woken or reaped. -/
def Passive (before after : ProcState) : Prop :=
  after = before ∨ before = .sleeping ∧ after = .runnable ∨ before = .zombie ∧ after = .unused

/-- A slot that no CPU with the lock is on. -/
theorem Control.slot_passive (control : Control s) (unlocked : ∀ d, On s d q → s.lock ≠ some d)
    (stage : t.stage q = s.stage q) (state : Passive (s.stateOf q) (t.stateOf q)) : SlotOk s t q := by
  have alone := control.not_on_waiting unlocked
  rcases state with same | ⟨sleeping, runnable⟩ | ⟨zombie, unused⟩
  · exact control.slot_same same stage fun d there held => absurd held (unlocked d there)
  · have apart := alone (by simp [sleeping])
    refine slot_parked apart ⟨by simp [runnable], fun _ => ?_⟩
    rw [stage]
    exact (control.parked q apart).2 (Or.inr sleeping)
  · exact slot_parked (alone (by simp [zombie])) ⟨by simp [unused], by simp [unused]⟩

/-- While `c`, on `p`, may use the table, no other CPU holds the lock. -/
theorem unlocked_of_here (lock : s.lock = none ∨ s.lock = some c) (here : On s c p) (other : q ≠ p)
    (d : ι) (there : On s d q) : s.lock ≠ some d := by
  intro held
  rcases lock with free | mine
  · rw [free] at held
    cases held
  · rw [mine] at held
    cases held
    exact other (on_inj there here)

/-- A step under the lock of the thread of `p`, on CPU `c`. -/
theorem Control.thread_step (control : Control s) (here : On s c p) (cpu : t.cpu = s.cpu)
    (lock : s.lock = none ∨ s.lock = some c)
    (hosted : Hosted (t.stateOf p) (t.stage p) (t.lock = some c))
    (stage : ∀ q, q ≠ p → t.stage q = s.stage q)
    (state : ∀ q, q ≠ p → Passive (s.stateOf q) (t.stateOf q)) : Control t := by
  refine control.keep cpu (Or.inr ⟨c, p, lock, here⟩) fun q => ?_
  by_cases self : q = p
  · subst self
    exact control.slot_here here hosted
  · exact control.slot_passive (unlocked_of_here lock here self) (stage q self) (state q self)

/-- A step that wakes processes while the lock is free. -/
theorem Control.rouse (control : Control s) (free : s.lock = none) (cpu : t.cpu = s.cpu)
    (lock : t.lock = s.lock) (stage : t.stage = s.stage)
    (state : ∀ q, Passive (s.stateOf q) (t.stateOf q)) : Control t := by
  refine control.keep cpu (Or.inl lock) fun q => ?_
  exact control.slot_passive (by simp [free]) (congrFun stage q) (state q)

/-- A step of `fork` on a slot that is not executed on. -/
theorem Control.child_step (control : Control s) (cpu : t.cpu = s.cpu) (lock : t.lock = s.lock)
    (dead : s.stateOf q = .unused ∨ s.stateOf q = .embryo) (parked : Parked (t.stateOf q) (t.stage q))
    (stage : ∀ r, r ≠ q → t.stage r = s.stage r) (state : ∀ r, r ≠ q → t.stateOf r = s.stateOf r) :
    Control t := by
  refine control.keep cpu (Or.inl lock) fun r => ?_
  by_cases self : r = q
  · subst self
    exact slot_parked (control.not_on_dead dead) parked
  · exact control.slot_same (state r self) (stage r self) fun d _ held => lock.trans held

theorem setState_state (table : Ptable) (p : Nat) (state : ProcState) (q : Nat) :
    ((Table.setState p state table).proc q).state = if q = p then state else (table.proc q).state :=
  modify_set Table.Proc.state table p q rfl

theorem setState_pid (table : Ptable) (p : Nat) (state : ProcState) (q : Nat) :
    ((Table.setState p state table).proc q).pid = (table.proc q).pid :=
  modify_field Table.Proc.pid table p q rfl

theorem sleep_state (table : Ptable) (p : Nat) (chan : Chan) (q : Nat) :
    ((Table.sleep p chan table).proc q).state = if q = p then .sleeping else (table.proc q).state :=
  modify_set Table.Proc.state table p q rfl

theorem sleep_pid (table : Ptable) (p : Nat) (chan : Chan) (q : Nat) :
    ((Table.sleep p chan table).proc q).pid = (table.proc q).pid :=
  modify_field Table.Proc.pid table p q rfl

/-! Steps of the scheduler. -/

variable [DecidableEq ι]

/-- CPU `c` moves to `place` of the loops. -/
theorem Control.loop {place : Place} (control : Control s) (away : ∀ q, ¬ On s c q)
    (cpu : t.cpu = Function.update s.cpu c { proc := none, at_ := .sched place })
    (held : s.lock = none ∨ s.lock = some c)
    (lock : t.lock = if place = .top then none else some c)
    (table : ∀ q, t.stateOf q = s.stateOf q) (stage : t.stage = s.stage) : Control t := by
  have here : t.cpu c = { proc := none, at_ := .sched place } := by rw [cpu, Function.update_self]
  have others : ∀ d, d ≠ c → t.cpu d = s.cpu d := fun d other => by rw [cpu, Function.update_of_ne other]
  have same : ∀ d q, On t d q ↔ On s d q := by
    intro d q
    by_cases self : d = c
    · subst self
      refine ⟨?_, fun there => absurd there (away q)⟩
      rintro ⟨back, there⟩
      rw [here] at there
      cases there
    · unfold On
      rw [others d self]
  have unlocked : ∀ d, d ≠ c → s.lock ≠ some d := by
    intro d other mine
    rcases held with free | held
    · rw [free] at mine
      cases mine
    · rw [held] at mine
      exact other (Option.some.inj mine).symm
  constructor
  · intro d place' there
    by_cases self : d = c
    · subst self
      rw [here] at there ⊢
      cases there
      exact ⟨rfl, fun inside => by rw [lock, if_neg inside]⟩
    · rw [others d self] at there ⊢
      have before := control.sched d place' there
      exact ⟨before.1, fun inside => absurd (before.2 inside) (unlocked d self)⟩
  · intro d place' there
    by_cases self : d = c
    · subst self
      rw [here] at there
      cases there
    · rw [others d self] at there
      exact absurd (control.returned d place' there).2 (unlocked d self)
  · intro d q back there
    have self : d ≠ c := by
      rintro rfl
      rw [here] at there
      cases there
    rw [others d self] at there ⊢
    have before := control.on d q back there
    refine ⟨before.1, before.2.1, ?_⟩
    rw [table, stage]
    exact before.2.2.mono fun mine => absurd mine (unlocked d self)
  · intro d d' q first second
    exact control.unique d d' q ((same d q).mp first) ((same d' q).mp second)
  · intro q alone
    rw [table, stage]
    exact control.parked q fun d there => alone d ((same d q).mpr there)

/-- The first half of a switch: CPU `c`, which holds the lock in the scheduler, goes on the stack
of a RUNNABLE process. -/
theorem Control.dispatch {back : Place} (control : Control s) (away : ∀ q, ¬ On s c q)
    (held : s.lock = some c) (inside : back ≠ .top) (ready : s.stateOf p = .runnable) :
    Control (Smp.dispatch s c p back) := by
  have alone : ∀ d, ¬ On s d p :=
    control.not_on_waiting (fun d there mine => by
      rw [held] at mine
      cases mine
      exact away p there) (by simp [ready])
  obtain ⟨k, saved, lives⟩ := (control.parked p alone).2 (Or.inl ready)
  have here : (Smp.dispatch s c p back).cpu c = { proc := some p, at_ := .on p back } :=
    Function.update_self ..
  have others : ∀ d, d ≠ c → (Smp.dispatch s c p back).cpu d = s.cpu d :=
    fun d other => Function.update_of_ne other ..
  have states : ∀ q, (Smp.dispatch s c p back).stateOf q = if q = p then .running else s.stateOf q :=
    setState_state s.ptable p .running
  have resumed : (Smp.dispatch s c p back).stage p = .resumed k := by
    show Function.update s.stage p _ p = _
    rw [Function.update_self, saved]
    rfl
  have stage : ∀ q, q ≠ p → (Smp.dispatch s c p back).stage q = s.stage q :=
    fun q other => Function.update_of_ne other ..
  have same : ∀ d q, On (Smp.dispatch s c p back) d q ↔ On s d q ∨ d = c ∧ q = p := by
    intro d q
    by_cases self : d = c
    · subst self
      unfold On
      rw [here]
      constructor
      · rintro ⟨back', there⟩
        cases there
        exact Or.inr ⟨rfl, rfl⟩
      · rintro (there | ⟨-, rfl⟩)
        · exact absurd there (away q)
        · exact ⟨back, rfl⟩
    · unfold On
      rw [others d self]
      simp [self]
  constructor
  · intro d place there
    have self : d ≠ c := by
      rintro rfl
      rw [here] at there
      cases there
    rw [others d self] at there ⊢
    exact control.sched d place there
  · intro d place there
    have self : d ≠ c := by
      rintro rfl
      rw [here] at there
      cases there
    rw [others d self] at there
    exact control.returned d place there
  · intro d q back' there
    by_cases self : d = c
    · subst self
      rw [here] at there ⊢
      cases there
      rw [states, if_pos rfl, resumed]
      exact ⟨inside, rfl, rfl, lives, held⟩
    · rw [others d self] at there ⊢
      have elsewhere : q ≠ p := by
        rintro rfl
        exact alone d ⟨back', there⟩
      rw [states, if_neg elsewhere, stage q elsewhere]
      exact control.on d q back' there
  · intro d d' q first second
    rcases (same d q).mp first with before | ⟨atC, atP⟩
    · rcases (same d' q).mp second with before' | ⟨-, atP'⟩
      · exact control.unique d d' q before before'
      · exact absurd (atP' ▸ before) (alone d)
    · rcases (same d' q).mp second with before' | ⟨atC', -⟩
      · exact absurd (atP ▸ before') (alone d')
      · rw [atC, atC']
  · intro q apart
    have elsewhere : q ≠ p := by
      rintro rfl
      exact apart c ((same c q).mpr (Or.inr ⟨rfl, rfl⟩))
    rw [states, if_neg elsewhere, stage q elsewhere]
    exact control.parked q fun d there => apart d ((same d q).mpr (Or.inl there))

/-- The second half: `swtch` in `sched`. -/
theorem Control.swtch {back : Place} {k : Resume} (control : Control s)
    (here : (s.cpu c).at_ = .on p back) (leaving : s.stage p = .leaving k)
    (cpu : t.cpu = Function.update s.cpu c { s.cpu c with at_ := .returned back })
    (lock : t.lock = s.lock) (table : t.ptable = s.ptable)
    (stage : t.stage = Function.update s.stage p (.saved k)) : Control t := by
  obtain ⟨inside, -, hosted⟩ := control.on c p back here
  rw [leaving] at hosted
  obtain ⟨states, held⟩ := hosted
  have now : t.cpu c = { s.cpu c with at_ := .returned back } := by rw [cpu, Function.update_self]
  have others : ∀ d, d ≠ c → t.cpu d = s.cpu d := fun d other => by rw [cpu, Function.update_of_ne other]
  have state : ∀ q, t.stateOf q = s.stateOf q := fun q => by rw [State.stateOf, table]; rfl
  have same : ∀ d q, On t d q ↔ On s d q ∧ d ≠ c := by
    intro d q
    unfold On
    by_cases self : d = c
    · subst self
      rw [now]
      simp
    · rw [others d self]
      simp [self]
  constructor
  · intro d place there
    have self : d ≠ c := by
      rintro rfl
      rw [now] at there
      cases there
    rw [others d self, lock] at *
    exact control.sched d place there
  · intro d place there
    rw [lock]
    by_cases self : d = c
    · subst self
      rw [now] at there
      cases there
      exact ⟨inside, held⟩
    · rw [others d self] at there
      exact control.returned d place there
  · intro d q back' there
    have self : d ≠ c := by
      rintro rfl
      rw [now] at there
      cases there
    rw [others d self] at there ⊢
    have elsewhere : q ≠ p := by
      rintro rfl
      exact self (control.unique d c q ⟨back', there⟩ ⟨back, here⟩)
    rw [state, stage, Function.update_of_ne elsewhere, lock]
    exact control.on d q back' there
  · intro d d' q first second
    exact control.unique d d' q ((same d q).mp first).1 ((same d' q).mp second).1
  · intro q apart
    rw [state, stage]
    by_cases self : q = p
    · subst self
      rw [Function.update_self]
      constructor
      · rcases states with zombie | ⟨runnable | sleeping, -⟩ <;> simp_all
      · intro waiting
        rcases states with zombie | ⟨-, lives⟩
        · rw [zombie] at waiting
          simp at waiting
        · exact ⟨k, rfl, lives⟩
    · rw [Function.update_of_ne self]
      refine control.parked q fun d there => apart d ((same d q).mpr ⟨there, ?_⟩)
      rintro rfl
      obtain ⟨back', there⟩ := there
      rw [here] at there
      cases there
      exact self rfl

end ColorXv6.Sched.SmpControl
