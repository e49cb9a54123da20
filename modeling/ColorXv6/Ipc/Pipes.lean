import ColorXv6.Lib.Ring
import ColorXv6.Lib.Runs
import Mathlib.Logic.Function.Basic

/-!
pipe.c: any number of processes in `pipewrite`, `piperead` and `pipeclose` on one
pipe, and `kill`. A step is a piece of one process's code that no other process
can observe half done: the pipe is only touched by the holder of `p->lock`, and
the sleeping states only by the holder of `ptable.lock`, which `sleep` keeps from
the release of `p->lock` until the process is asleep.
-/
namespace ColorXv6.Ipc.Pipes
open Lib.Ring Lib.Runs

def pipeSize : Nat := 512

/-- `nread` and `nwrite` are 32-bit counters. -/
def geometry : Geometry where
  m := 2 ^ 32
  c := pipeSize
  divides := by decide
  smaller := by decide
  positive := by decide

structure Pipe where
  ring : Buffer UInt8
  readopen : Bool
  writeopen : Bool

/-- `p->nwrite == p->nread + PIPESIZE`. -/
def Pipe.full (p : Pipe) : Bool := p.ring.nwrite = (p.ring.nread + pipeSize) % 2 ^ 32

/-- `p->nread == p->nwrite`. -/
def Pipe.empty (p : Pipe) : Bool := p.ring.nread = p.ring.nwrite

/-- What a process sleeps on: `&p->nread` or `&p->nwrite`. -/
inductive Chan where
  | nread
  | nwrite
deriving DecidableEq, Repr

/-- Where a process is. Those marked locked hold `p->lock`. -/
inductive Pc where
  | idle
  /-- before `acquire` of pipewrite -/
  | writeStart (addr : List UInt8)
  /-- locked, at the loops of pipewrite; `rest` is still to be stored, `fresh` says whether
  bytes were stored since the last `wakeup` -/
  | writeLoop (rest : List UInt8) (fresh : Bool)
  /-- locked, before `sleep` -/
  | writeFull (rest : List UInt8)
  /-- inside `sleep`, with `ptable.lock` -/
  | writeDoze (rest : List UInt8)
  /-- asleep, or woken and before `acquire` at the end of `sleep` -/
  | writeSleep (rest : List UInt8)
  /-- locked, after the last `wakeup` -/
  | writeDone
  | readStart (n : Nat)
  /-- locked, at the first loop of piperead -/
  | readWait (n : Nat)
  | readDoze (n : Nat)
  | readSleep (n : Nat)
  /-- locked, at the second loop; `i` bytes copied -/
  | readCopy (n i : Nat)
  /-- locked, about to return `i` -/
  | readDone (n i : Nat)
  | closeStart (writable : Bool)
  /-- locked, before `wakeup` of pipeclose -/
  | closeWake (writable : Bool)
  /-- locked, after it -/
  | closeDone (writable : Bool)
deriving DecidableEq, Repr

abbrev Pid := Nat

structure State where
  pipe : Pipe
  /-- holder of `p->lock` -/
  lock : Option Pid
  /-- holder of `ptable.lock`, while it is inside `sleep` -/
  ptable : Option Pid
  pc : Pid → Pc
  /-- what a SLEEPING process sleeps on -/
  chan : Pid → Option Chan
  killed : Pid → Bool
  /-- the page of the pipe was freed -/
  freed : Bool
  /-- all bytes stored by writers and all delivered to readers, in order -/
  stored : List UInt8
  delivered : List UInt8

inductive Act where
  | write (p : Pid) (addr : List UInt8)
  | read (p : Pid) (n : Nat)
  | close (p : Pid) (writable : Bool)
  | kill (p : Pid)
  /-- process `p` goes on -/
  | run (p : Pid)
deriving DecidableEq

def State.goto (s : State) (p : Pid) (pc : Pc) : State := { s with pc := Function.update s.pc p pc }

def wakeup (c : Chan) (s : State) : State :=
  { s with chan := fun q => if s.chan q = some c then none else s.chan q }

/-- `acquire(&p->lock)`, then on to `pc`. -/
def acquire (s : State) (p : Pid) (pc : Pc) : Option State :=
  if s.lock = none then some { s.goto p pc with lock := some p } else none

/-- `release(&p->lock)` and return from the call. -/
def release (s : State) (p : Pid) : State := { s.goto p .idle with lock := none }

/-- `wakeup(chan)`, which needs `ptable.lock`, then on to `pc`. -/
def wake (s : State) (p : Pid) (c : Chan) (pc : Pc) : Option State :=
  if s.ptable = none then some ((wakeup c s).goto p pc) else none

/-- The first half of `sleep`: take `ptable.lock`, give up `p->lock`. -/
def doze (s : State) (p : Pid) (pc : Pc) : Option State :=
  if s.ptable = none then some { s.goto p pc with ptable := some p, lock := none } else none

/-- The second half: asleep, and `ptable.lock` passes to the scheduler. -/
def fallAsleep (s : State) (p : Pid) (c : Chan) (pc : Pc) : State :=
  { s.goto p pc with ptable := none, chan := Function.update s.chan p (some c) }

/-- The end of `sleep`: once woken, take `p->lock` again. -/
def reacquire (s : State) (p : Pid) (pc : Pc) : Option State :=
  if s.chan p = none then acquire s p pc else none

def store (s : State) (b : UInt8) : State :=
  { s with
    pipe := { s.pipe with ring := s.pipe.ring.push geometry b }
    stored := s.stored ++ [b] }

def deliver (s : State) : State :=
  { s with
    pipe := { s.pipe with ring := (s.pipe.ring.pop geometry).2 }
    delivered := s.delivered ++ [(s.pipe.ring.pop geometry).1] }

def closeEnd (s : State) (writable : Bool) : State :=
  { s with
    pipe := if writable then { s.pipe with writeopen := false } else { s.pipe with readopen := false } }

/-- The next piece of the code of process `p`. -/
def proceed (s : State) (p : Pid) : Option State :=
  match s.pc p with
  | .idle => none
  | .writeStart addr => acquire s p (.writeLoop addr false)
  | .writeLoop [] _ => wake s p .nread .writeDone
  | .writeLoop (b :: rest) _ =>
    if s.pipe.full then
      if s.pipe.readopen = false ∨ s.killed p then some (release s p)
      else wake s p .nread (.writeFull (b :: rest))
    else some ((store s b).goto p (.writeLoop rest true))
  | .writeFull rest => doze s p (.writeDoze rest)
  | .writeDoze rest => some (fallAsleep s p .nwrite (.writeSleep rest))
  | .writeSleep rest => reacquire s p (.writeLoop rest false)
  | .writeDone => some (release s p)
  | .readStart n => acquire s p (.readWait n)
  | .readWait n =>
    if s.pipe.empty ∧ s.pipe.writeopen then
      if s.killed p then some (release s p) else doze s p (.readDoze n)
    else some (s.goto p (.readCopy n 0))
  | .readDoze n => some (fallAsleep s p .nread (.readSleep n))
  | .readSleep n => reacquire s p (.readWait n)
  | .readCopy n i =>
    if i < n ∧ !s.pipe.empty then some ((deliver s).goto p (.readCopy n (i + 1)))
    else wake s p .nwrite (.readDone n i)
  | .readDone _ _ => some (release s p)
  | .closeStart writable =>
    (acquire s p (.closeWake writable)).map fun t => closeEnd t writable
  | .closeWake writable => wake s p (if writable then .nread else .nwrite) (.closeDone writable)
  | .closeDone _ =>
    if s.pipe.readopen = false ∧ s.pipe.writeopen = false then some { release s p with freed := true }
    else some (release s p)

/-- A call starts when the process is in none; nothing happens to a freed pipe. -/
def next (s : State) (act : Act) : Option State :=
  if s.freed then none
  else
    match act with
    | .write p addr => if s.pc p = .idle then some (s.goto p (.writeStart addr)) else none
    | .read p n => if s.pc p = .idle then some (s.goto p (.readStart n)) else none
    | .close p writable => if s.pc p = .idle then some (s.goto p (.closeStart writable)) else none
    | .kill p =>
      if s.ptable = none then
        some { s with killed := Function.update s.killed p true, chan := Function.update s.chan p none }
      else none
    | .run p => proceed s p

def Step (s : State) (act : Act) (t : State) : Prop := next s act = some t

/-- The pipe as `pipealloc` leaves it; what its page holds is arbitrary. -/
def fresh (data : Nat → UInt8) : State where
  pipe := { ring := { data, nread := 0, nwrite := 0 }, readopen := true, writeopen := true }
  lock := none
  ptable := none
  pc := fun _ => .idle
  chan := fun _ => none
  killed := fun _ => false
  freed := false
  stored := []
  delivered := []

/-! Who holds `p->lock`. -/

/-- Where a process holds `p->lock`. -/
def Pc.locked : Pc → Bool
  | .writeLoop _ _ | .writeFull _ | .writeDone | .readWait _ | .readCopy _ _ | .readDone _ _
  | .closeWake _ | .closeDone _ => true
  | _ => false

/-- Only the holder of the lock is at such a place. -/
def Owner (s : State) : Prop := ∀ p, (s.pc p).locked = true → s.lock = some p

@[simp] theorem goto_pc_same (s : State) (p : Pid) (pc : Pc) : (s.goto p pc).pc p = pc :=
  Function.update_self ..

variable {p : Pid} {s t : State}

theorem goto_pc_other (s : State) {q : Pid} (pc : Pc) (other : q ≠ p) :
    (s.goto p pc).pc q = s.pc q :=
  Function.update_of_ne other ..

/-- A step of process `p` that changes nothing of the other processes' places. The lock stays,
is taken while it is free, or is given up by `p`. -/
structure Moves (s : State) (p : Pid) (t : State) : Prop where
  others : ∀ q, q ≠ p → t.pc q = s.pc q
  lock : t.lock = s.lock ∨ s.lock = none ∨ s.lock = some p
  held : (t.pc p).locked = true → t.lock = some p

theorem Moves.owner (moves : Moves s p t) (owner : Owner s) : Owner t := by
  intro q locked
  by_cases here : q = p
  · subst here
    exact moves.held locked
  · rw [moves.others q here] at locked
    have holder := owner q locked
    rcases moves.lock with same | mine
    · exact same.trans holder
    · exact absurd holder (not_held mine here)

variable {pc : Pc}

/-- A place is left for another one, with the lock as it was. -/
theorem moves_goto (places : t.pc = (s.goto p pc).pc) (lock : t.lock = s.lock)
    (held : pc.locked = true → s.lock = some p) : Moves s p t where
  others := fun q other => by rw [places, goto_pc_other s pc other]
  lock := Or.inl lock
  held := fun locked => by
    rw [places, goto_pc_same] at locked
    exact lock.trans (held locked)

theorem moves_acquire (places : t.pc = (s.goto p pc).pc) (free : s.lock = none)
    (taken : t.lock = some p) : Moves s p t where
  others := fun q other => by rw [places, goto_pc_other s pc other]
  lock := Or.inr (Or.inl free)
  held := fun _ => taken

theorem moves_release (places : t.pc = (s.goto p pc).pc) (holder : s.lock = some p)
    (out : pc.locked = false) : Moves s p t where
  others := fun q other => by rw [places, goto_pc_other s pc other]
  lock := Or.inr (Or.inr holder)
  held := fun locked => by
    rw [places, goto_pc_same, out] at locked
    cases locked

/-- The pieces of code, with the tests that lead to them. -/
inductive Piece (s : State) (p : Pid) : State → Prop where
  | lockWrite (addr : List UInt8) (place : s.pc p = .writeStart addr) (free : s.lock = none) :
      Piece s p { s.goto p (.writeLoop addr false) with lock := some p }
  | wakeWrite (fresh : Bool) (place : s.pc p = .writeLoop [] fresh) (calm : s.ptable = none) :
      Piece s p ((wakeup .nread s).goto p .writeDone)
  | refuseWrite (b : UInt8) (rest : List UInt8) (fresh : Bool)
      (place : s.pc p = .writeLoop (b :: rest) fresh) (full : s.pipe.full = true)
      (reason : s.pipe.readopen = false ∨ s.killed p = true) : Piece s p (release s p)
  | wakeFull (b : UInt8) (rest : List UInt8) (fresh : Bool)
      (place : s.pc p = .writeLoop (b :: rest) fresh) (full : s.pipe.full = true)
      (open_ : s.pipe.readopen = true) (calm : s.ptable = none) :
      Piece s p ((wakeup .nread s).goto p (.writeFull (b :: rest)))
  | store (b : UInt8) (rest : List UInt8) (fresh : Bool)
      (place : s.pc p = .writeLoop (b :: rest) fresh) (room : s.pipe.full = false) :
      Piece s p ((store s b).goto p (.writeLoop rest true))
  | dozeWrite (rest : List UInt8) (place : s.pc p = .writeFull rest) (calm : s.ptable = none) :
      Piece s p { s.goto p (.writeDoze rest) with ptable := some p, lock := none }
  | sleepWrite (rest : List UInt8) (place : s.pc p = .writeDoze rest) :
      Piece s p (fallAsleep s p .nwrite (.writeSleep rest))
  | relockWrite (rest : List UInt8) (place : s.pc p = .writeSleep rest) (woken : s.chan p = none)
      (free : s.lock = none) : Piece s p { s.goto p (.writeLoop rest false) with lock := some p }
  | endWrite (place : s.pc p = .writeDone) : Piece s p (release s p)
  | lockRead (n : Nat) (place : s.pc p = .readStart n) (free : s.lock = none) :
      Piece s p { s.goto p (.readWait n) with lock := some p }
  | refuseRead (n : Nat) (place : s.pc p = .readWait n) (empty : s.pipe.empty = true)
      (open_ : s.pipe.writeopen = true) : Piece s p (release s p)
  | dozeRead (n : Nat) (place : s.pc p = .readWait n) (empty : s.pipe.empty = true)
      (open_ : s.pipe.writeopen = true) (calm : s.ptable = none) :
      Piece s p { s.goto p (.readDoze n) with ptable := some p, lock := none }
  | startCopy (n : Nat) (place : s.pc p = .readWait n)
      (ready : s.pipe.empty = false ∨ s.pipe.writeopen = false) : Piece s p (s.goto p (.readCopy n 0))
  | sleepRead (n : Nat) (place : s.pc p = .readDoze n) :
      Piece s p (fallAsleep s p .nread (.readSleep n))
  | relockRead (n : Nat) (place : s.pc p = .readSleep n) (woken : s.chan p = none)
      (free : s.lock = none) : Piece s p { s.goto p (.readWait n) with lock := some p }
  | copy (n i : Nat) (place : s.pc p = .readCopy n i) (some : s.pipe.empty = false) :
      Piece s p ((deliver s).goto p (.readCopy n (i + 1)))
  | wakeRead (n i : Nat) (place : s.pc p = .readCopy n i) (finished : n ≤ i ∨ s.pipe.empty = true)
      (calm : s.ptable = none) : Piece s p ((wakeup .nwrite s).goto p (.readDone n i))
  | endRead (n i : Nat) (place : s.pc p = .readDone n i) : Piece s p (release s p)
  | lockClose (writable : Bool) (place : s.pc p = .closeStart writable) (free : s.lock = none) :
      Piece s p (closeEnd { s.goto p (.closeWake writable) with lock := some p } writable)
  | wakeClose (writable : Bool) (place : s.pc p = .closeWake writable) (calm : s.ptable = none) :
      Piece s p ((wakeup (if writable then .nread else .nwrite) s).goto p (.closeDone writable))
  | endClose (writable freed : Bool) (place : s.pc p = .closeDone writable) :
      Piece s p { release s p with freed }

theorem acquire_some (result : acquire s p pc = some t) :
    s.lock = none ∧ t = { s.goto p pc with lock := some p } := by
  obtain ⟨free, rfl⟩ := guarded result
  exact ⟨free, rfl⟩

theorem reacquire_some (result : reacquire s p pc = some t) :
    s.chan p = none ∧ s.lock = none ∧ t = { s.goto p pc with lock := some p } := by
  unfold reacquire at result
  split at result
  · rename_i woken
    exact ⟨woken, acquire_some result⟩
  · cases result

theorem wake_some {c : Chan} (result : wake s p c pc = some t) :
    s.ptable = none ∧ t = (wakeup c s).goto p pc := by
  obtain ⟨calm, rfl⟩ := guarded result
  exact ⟨calm, rfl⟩

theorem doze_some (result : doze s p pc = some t) :
    s.ptable = none ∧ t = { s.goto p pc with ptable := some p, lock := none } := by
  obtain ⟨calm, rfl⟩ := guarded result
  exact ⟨calm, rfl⟩

/-- What the next piece of a process's code can be. -/
theorem proceed_piece (result : proceed s p = some t) : Piece s p t := by
  unfold proceed at result
  split at result
  case h_1 => cases result
  case h_2 addr place =>
    obtain ⟨free, rfl⟩ := acquire_some result
    exact .lockWrite addr place free
  case h_3 fresh place =>
    obtain ⟨calm, rfl⟩ := wake_some result
    exact .wakeWrite fresh place calm
  case h_4 b rest fresh place =>
    split at result
    · rename_i full
      split at result
      · rename_i reason
        cases result
        exact .refuseWrite b rest fresh place full reason
      · rename_i alive
        obtain ⟨calm, rfl⟩ := wake_some result
        have open_ : s.pipe.readopen = true := by
          simpa using fun closed => alive (Or.inl closed)
        exact .wakeFull b rest fresh place full open_ calm
    · rename_i room
      cases result
      exact .store b rest fresh place (by simpa using room)
  case h_5 rest place =>
    obtain ⟨calm, rfl⟩ := doze_some result
    exact .dozeWrite rest place calm
  case h_6 rest place =>
    cases result
    exact .sleepWrite rest place
  case h_7 rest place =>
    obtain ⟨woken, free, rfl⟩ := reacquire_some result
    exact .relockWrite rest place woken free
  case h_8 place =>
    cases result
    exact .endWrite place
  case h_9 n place =>
    obtain ⟨free, rfl⟩ := acquire_some result
    exact .lockRead n place free
  case h_10 n place =>
    split at result
    · rename_i waiting
      split at result
      · cases result
        exact .refuseRead n place waiting.1 waiting.2
      · obtain ⟨calm, rfl⟩ := doze_some result
        exact .dozeRead n place waiting.1 waiting.2 calm
    · rename_i ready
      cases result
      exact .startCopy n place (by simpa using Classical.not_and_iff_not_or_not.mp ready)
  case h_11 n place =>
    cases result
    exact .sleepRead n place
  case h_12 n place =>
    obtain ⟨woken, free, rfl⟩ := reacquire_some result
    exact .relockRead n place woken free
  case h_13 n i place =>
    split at result
    · rename_i more
      cases result
      exact .copy n i place (by simpa using more.2)
    · rename_i finished
      obtain ⟨calm, rfl⟩ := wake_some result
      refine .wakeRead n i place ?_ calm
      by_cases end_ : n ≤ i
      · exact Or.inl end_
      · exact Or.inr (by simpa [Nat.not_le.mp end_] using finished)
  case h_14 n i place =>
    cases result
    exact .endRead n i place
  case h_15 writable place =>
    obtain ⟨u, locked, rfl⟩ := Option.map_eq_some_iff.mp result
    obtain ⟨free, rfl⟩ := acquire_some locked
    exact .lockClose writable place free
  case h_16 writable place =>
    obtain ⟨calm, rfl⟩ := wake_some result
    exact .wakeClose writable place calm
  case h_17 writable place =>
    split at result
    · cases result
      exact .endClose writable true place
    · rename_i alive
      cases result
      have piece := Piece.endClose (s := s) (p := p) writable s.freed place
      exact piece

theorem Piece.moves (piece : Piece s p t) (owner : Owner s) :
    Moves s p t := by
  have holds : ∀ {pc : Pc}, s.pc p = pc → pc.locked = true → s.lock = some p := by
    intro pc place locked
    exact owner p (by rw [place, locked])
  cases piece with
  | lockWrite _ _ free | relockWrite _ _ _ free | lockRead _ _ free | relockRead _ _ _ free
  | lockClose _ _ free => exact moves_acquire rfl free rfl
  | wakeWrite _ place | wakeFull _ _ _ place | store _ _ _ place | startCopy _ place
  | copy _ _ place | wakeRead _ _ place | wakeClose _ place =>
    exact moves_goto rfl rfl fun _ => holds place rfl
  | sleepWrite | sleepRead => exact moves_goto rfl rfl fun locked => by cases locked
  | refuseWrite _ _ _ place | dozeWrite _ place | endWrite place | refuseRead _ place
  | dozeRead _ place | endRead _ _ place | endClose _ _ place =>
    exact moves_release rfl (holds place rfl) rfl

/-- What an action can be: a call that starts, a `kill`, or the next piece of a call. -/
theorem step_cases {act : Act} (step : Step s act t) :
    (∃ p pc, act ≠ .run p ∧ t = s.goto p pc ∧ s.pc p = .idle ∧ pc.locked = false ∧
      (∀ rest, pc ≠ .writeDoze rest) ∧ ∀ n, pc ≠ .readDoze n) ∨
    (∃ p, act = .kill p ∧ s.ptable = none ∧
      t = { s with killed := Function.update s.killed p true, chan := Function.update s.chan p none }) ∨
    ∃ p, act = .run p ∧ Piece s p t := by
  unfold Step next at step
  split at step
  · cases step
  · cases act with
    | write p | read p | close p =>
      obtain ⟨idle, rfl⟩ := guarded step
      exact Or.inl ⟨p, _, by simp, rfl, idle, rfl, by simp, by simp⟩
    | kill p =>
      obtain ⟨calm, rfl⟩ := guarded step
      exact Or.inr (Or.inl ⟨p, rfl, calm, rfl⟩)
    | run p => exact Or.inr (Or.inr ⟨p, rfl, proceed_piece step⟩)

end ColorXv6.Ipc.Pipes
