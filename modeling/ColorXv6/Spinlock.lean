import ColorXv6.Lib.Runs
import Mathlib.Logic.Function.Basic

/-!
spinlock.c over any CPUs `κ` and locks `L`, with interrupts. What a CPU does to its own fields
with interrupts off goes with the step before it, and `holding` reads a lock at once: no other
CPU changes whether `lk->cpu` is this one. The call stack that `acquire` notes is left out, and
a CPU stays with its thread.
-/
namespace ColorXv6.Spinlock
open Lib.Runs

variable {κ L : Type}

/-- Where a CPU is in `acquire` or `release`. -/
inductive Pc (L : Type) where
  | out
  /-- in `pushcli`, `eflags` is read -/
  | flags (ief : Bool) (lk : L)
  | xchg (lk : L)
  /-- `lk->locked` is taken, `lk->cpu` is not set -/
  | taken (lk : L)
  /-- `lk->cpu` is cleared, `lk->locked` is not -/
  | cleared (lk : L)
deriving DecidableEq

/-- `intr` is the place that the running interrupt handler goes back to. `enabled` and `held`
are bookkeeping: the thread has interrupts on, and the locks between the end of `acquire` and
the start of `release`. -/
structure Cpu (L : Type) where
  ief : Bool := false
  ncli : Nat := 0
  intena : Bool := false
  pc : Pc L := .out
  intr : Option (Pc L) := none
  enabled : Bool := false
  held : List L := []

structure Lock (κ : Type) where
  locked : Bool := false
  cpu : Option κ := none

structure State (κ L : Type) where
  cpu : κ → Cpu L := fun _ => {}
  lock : L → Lock κ := fun _ => {}

inductive Panic where
  | acquire
  | release
  | interruptible
  | popcli
deriving DecidableEq

inductive Act (L : Type) where
  | acquire (lk : L)
  | go
  | release (lk : L)
  | sti
  | interrupt
  | iret

/-- The rest of `pushcli`, from `cli` on. -/
@[grind] def pushcli (c : Cpu L) (eflags : Bool) : Cpu L :=
  { c with ief := false, intena := if c.ncli = 0 then eflags else c.intena, ncli := c.ncli + 1 }

def popcli (c : Cpu L) : Except Panic (Cpu L) :=
  if c.ief then .error .interruptible
  else if c.ncli = 0 then .error .popcli
  else .ok { c with ncli := c.ncli - 1, ief := c.ncli = 1 && c.intena }

variable [DecidableEq κ] [DecidableEq L]

def State.set (s : State κ L) (i : κ) (c : Cpu L) : State κ L :=
  { s with cpu := Function.update s.cpu i c }

def State.setLock (s : State κ L) (lk : L) (l : Lock κ) : State κ L :=
  { s with lock := Function.update s.lock lk l }

def holding (s : State κ L) (i : κ) (lk : L) : Bool :=
  (s.lock lk).locked && (s.lock lk).cpu = some i

/-- A step of CPU `i`. The kernel turns interrupts on outside of locks and handlers, and a
handler returns with its locks released. -/
def next (s : State κ L) (i : κ) (act : Act L) : Option (Except Panic (State κ L)) :=
  let c := s.cpu i
  match c.pc, act with
  | .out, .acquire lk => some (.ok (s.set i { c with pc := .flags c.ief lk }))
  | .flags eflags lk, .go =>
    some (if holding s i lk then .error .acquire
      else .ok (s.set i { pushcli c eflags with pc := .xchg lk }))
  | .xchg lk, .go =>
    some (.ok (if (s.lock lk).locked then s
      else (s.setLock lk { s.lock lk with locked := true }).set i { c with pc := .taken lk }))
  | .taken lk, .go =>
    some (.ok ((s.setLock lk { s.lock lk with cpu := some i }).set i
      { c with pc := .out, held := lk :: c.held }))
  | .out, .release lk =>
    some (if holding s i lk then
        .ok ((s.setLock lk { s.lock lk with cpu := none }).set i
          { c with pc := .cleared lk, held := c.held.erase lk })
      else .error .release)
  | .cleared lk, .go =>
    some ((popcli { c with pc := .out }).map fun c =>
      (s.setLock lk { s.lock lk with locked := false }).set i c)
  | .out, .sti =>
    if c.ncli = 0 ∧ c.intr = none then some (.ok (s.set i { c with ief := true, enabled := true }))
    else none
  | pc, .interrupt =>
    if c.ief then some (.ok (s.set i { c with ief := false, pc := .out, intr := some pc })) else none
  | .out, .iret =>
    match c.intr with
    | some pc => if c.ncli = 0 then some (.ok (s.set i { c with ief := true, pc, intr := none })) else none
    | none => none
  | _, _ => none

/-- The steps that do not panic. -/
def go (s : State κ L) (a : κ × Act L) : Option (State κ L) :=
  (next s a.1 a.2).bind Except.toOption

def Step (s : State κ L) (a : κ × Act L) (t : State κ L) : Prop := go s a = some t

/-- 1 from `pushcli` to the end of `acquire` and in the second half of `release`. -/
@[grind] def busy : Pc L → Nat
  | .out | .flags .. => 0
  | .xchg _ | .taken _ | .cleared _ => 1

/-- The CPU has the lock word. -/
@[grind] def Owns (c : Cpu L) (lk : L) : Prop := lk ∈ c.held ∨ c.pc = .taken lk ∨ c.pc = .cleared lk

/-- What the fields of a CPU say: interrupts are on where the thread has them on, outside of
locks and handlers. -/
structure Sound (c : Cpu L) : Prop where
  ncli : c.ncli = c.held.length + busy c.pc
  ief : c.ief = (c.ncli = 0 && c.enabled && c.intr = none)
  intena : 0 < c.ncli → c.intena = (c.enabled && c.intr = none)
  flags : ∀ e lk, c.pc = .flags e lk → c.ncli = 0 → e = c.ief
  intr : ∀ pc, c.intr = some pc → c.enabled = true ∧ busy pc = 0 ∧ ∀ e lk, pc = .flags e lk → e = true
  nodup : c.held.Nodup
  apart : ∀ lk, c.pc = .taken lk ∨ c.pc = .cleared lk → lk ∉ c.held

structure Inv (s : State κ L) : Prop where
  sound : ∀ i, Sound (s.cpu i)
  locked : ∀ i lk, Owns (s.cpu i) lk → (s.lock lk).locked = true
  unique : ∀ i j lk, Owns (s.cpu i) lk → Owns (s.cpu j) lk → i = j
  cpu : ∀ i lk, (s.lock lk).cpu = some i ↔ lk ∈ (s.cpu i).held

variable {s t : State κ L} {i : κ} {act : Act L}

/-- A step changes one CPU and one lock. -/
theorem Inv.change (inv : Inv s) {c : Cpu L} {lk : L} {l : Lock κ} (sound : Sound c)
    (others : ∀ lk', lk' ≠ lk → (Owns c lk' ↔ Owns (s.cpu i) lk') ∧ (lk' ∈ c.held ↔ lk' ∈ (s.cpu i).held))
    (locked : Owns c lk → l.locked = true) (mine : ∀ j, j ≠ i → ¬ Owns (s.cpu j) lk)
    (cpu : ∀ j, l.cpu = some j ↔ j = i ∧ lk ∈ c.held) : Inv ((s.setLock lk l).set i c) := by
  obtain ⟨sounds, locks, unique, cpus⟩ := inv
  constructor <;> intro j <;> simp only [State.set, State.setLock, Function.update_apply]
  · grind
  · grind
  · grind
  · grind [Owns]

omit [DecidableEq L] in
theorem Inv.same (inv : Inv s) {c : Cpu L} (sound : Sound c) (held : c.held = (s.cpu i).held)
    (owns : ∀ lk, Owns c lk ↔ Owns (s.cpu i) lk) : Inv (s.set i c) := by
  obtain ⟨sounds, locks, unique, cpus⟩ := inv
  constructor <;> intro j <;> simp only [State.set, Function.update_apply] <;> grind

omit [DecidableEq L] in
theorem popcli_cleared {c : Cpu L} {lk : L} (sound : Sound c) (here : c.pc = .cleared lk) :
    popcli { c with pc := .out } =
      .ok { c with pc := .out, ncli := c.ncli - 1, ief := c.ncli = 1 && c.intena } := by
  have ncli := sound.ncli
  have ief := sound.ief
  rw [here] at ncli
  simp [popcli, ief, ncli, busy]

theorem inv_step (inv : Inv s) (step : Step s (i, act) t) : Inv t := by
  rw [Step, go, Option.bind_eq_some_iff] at step
  obtain ⟨result, step, ok⟩ := step
  cases result <;> cases ok
  unfold next at step
  obtain ⟨ncli, ief, intena, flags, intr, nodup, apart⟩ := inv.sound i
  have cpus := inv.cpu
  have alone {lk : L} (mine : Owns (s.cpu i) lk) (j : κ) (other : j ≠ i) : ¬ Owns (s.cpu j) lk :=
    fun yours => other (inv.unique j i lk yours mine)
  dsimp only at step
  split at step
  case h_3 _ _ lk here =>
    split at step <;> cases step
    · exact inv
    · -- the lock word was clear, so the lock was with no CPU, and now it is with this one
      have nobody (j : κ) (owns : Owns (s.cpu j) lk) : False := absurd (inv.locked j lk owns) ‹_›
      refine inv.change ?_ (by grind) (fun _ => rfl) (fun j _ => nobody j) (by grind)
      constructor <;> grind
  case h_4 _ _ lk here =>
    -- the lock goes from `pc` to `held`, where `ncli` counts it as before
    cases step
    have mine : Owns (s.cpu i) lk := Or.inr (Or.inl here)
    refine inv.change ?_ (by grind) (fun _ => inv.locked i lk mine) (alone mine) (by grind)
    constructor <;> grind
  case h_5 _ _ lk here =>
    split at step <;> cases step
    -- and back: only a lock of `held` passes the test
    have mine : Owns (s.cpu i) lk := by grind [holding]
    refine inv.change ?_ (by grind) (fun _ => inv.locked i lk mine) (alone mine) (by grind)
    constructor <;> grind
  case h_6 _ _ lk here =>
    -- the lock word is cleared; `ncli` no longer counts the lock, which is not in `held` any more
    have mine : Owns (s.cpu i) lk := Or.inr (Or.inr here)
    rw [popcli_cleared (inv.sound i) here] at step
    cases step
    refine inv.change ?_ (by grind) (by grind) (alone mine) (by grind)
    constructor <;> grind
  -- the other steps touch no lock: `pushcli`, `sti`, and interrupts, which come when `ncli` is 0
  all_goals
    repeat' split at step
    all_goals cases step
    all_goals
      refine inv.same ?_ rfl (by grind)
      constructor <;> grind

/-- In every interleaving of any number of CPUs, with an interrupt wherever they are on: a lock
is with one CPU at most, `holding` tells which, interrupts are off on a CPU that has a lock or is
in a handler, `popcli` leaves them to a thread as `pushcli` found them, and the only panics are
for a lock that the CPU has already and for the release of one that it does not have. -/
theorem spinlocks_exclude {acts : List (κ × Act L)} {s : State κ L} (run : Run Step {} acts s) :
    (∀ i j lk, Owns (s.cpu i) lk → Owns (s.cpu j) lk → i = j) ∧
    (∀ i lk, holding s i lk = true ↔ lk ∈ (s.cpu i).held) ∧
    (∀ i, (s.cpu i).ief = true → (∀ lk, ¬ Owns (s.cpu i) lk) ∧ (s.cpu i).intr = none) ∧
    (∀ i, (s.cpu i).pc = .out → (s.cpu i).held = [] → (s.cpu i).intr = none →
      (s.cpu i).ief = (s.cpu i).enabled) ∧
    ∀ i act panic, next s i act = some (.error panic) →
      (∃ e lk, (s.cpu i).pc = .flags e lk ∧ lk ∈ (s.cpu i).held ∧ panic = .acquire) ∨
      ∃ lk, act = .release lk ∧ lk ∉ (s.cpu i).held ∧ panic = .release := by
  have inv : Inv s := run.preserves Inv (fun _ _ _ inv step => inv_step inv step)
    ⟨fun _ => by constructor <;> simp [busy], by simp [Owns], by simp [Owns], by simp⟩
  have test (i : κ) (lk : L) : holding s i lk = true ↔ lk ∈ (s.cpu i).held := by
    have cpu := inv.cpu i lk
    have locked := inv.locked i lk
    grind [holding]
  refine ⟨inv.unique, test, fun i on => ?_, fun i => ?_, fun i act panic stops => ?_⟩ <;>
    obtain ⟨ncli, ief, -, -, -, -, -⟩ := inv.sound i
  · have none : (s.cpu i).ncli = 0 := by grind
    have empty : (s.cpu i).held = [] := List.eq_nil_of_length_eq_zero (by grind)
    exact ⟨fun lk owns => by grind, by grind⟩
  · grind
  · unfold next at stops
    dsimp only at stops
    split at stops
    case h_6 _ _ lk here =>
      rw [popcli_cleared (inv.sound i) here] at stops
      cases stops
    all_goals grind

/-- The second CPU spins while the first one has the lock. -/
def contest : List (Bool × Act Unit) :=
  [(false, .acquire ()), (true, .acquire ()), (false, .go), (true, .go), (false, .go), (true, .go),
    (false, .go)]

theorem spinlocks_exclude_contest : ∃ s, Run Step {} contest s ∧ () ∈ (s.cpu false).held ∧
    ∀ i, Owns (s.cpu i) () → i = false := by
  obtain ⟨s, run, held⟩ := execute_exists go {} contest (fun s => () ∈ (s.cpu false).held) (by decide)
  have held := of_decide_eq_true held
  exact ⟨s, run, held, fun i owns => (spinlocks_exclude run).1 i false () owns (Or.inl held)⟩

end ColorXv6.Spinlock
