import ColorXv6.Lib.Ring
import ColorXv6.Lib.Runs
import Mathlib.Logic.Function.Basic

/-!
console.c: key codes handled by `consoleintr`, on any CPU, and any number of
processes in `consoleread`. The input buffer is only touched by the holder of
`cons.lock`. A step is one turn of the loop of `consoleintr`, or a piece of
`consoleread` between two accesses to the buffer. What is echoed, the listing of
^P and the inode lock that `consoleread` gives up for the time of the call do not
touch the buffer and are left out.
-/
namespace ColorXv6.Dev.Console
open Lib.Ring Lib.Runs

def inputBuf : Nat := 128

/-- `r`, `w` and `e` are 32-bit counters. -/
def geometry : Geometry where
  m := 2 ^ 32
  c := inputBuf
  divides := by decide
  smaller := by decide
  positive := by decide

/-- `a - b` of two `uint`. -/
def sub (a b : Nat) : Nat := (a + (2 ^ 32 - b)) % 2 ^ 32

structure Input where
  buf : Nat → UInt8
  r : Nat
  w : Nat
  e : Nat

/-! Key codes with a meaning; `C(x)` is `x - '@'`. -/

def ctrlP : UInt8 := 16
def ctrlU : UInt8 := 21
def ctrlH : UInt8 := 8
def del : UInt8 := 127
def ctrlD : UInt8 := 4
def newline : UInt8 := 10
def cr : UInt8 := 13

/-- `c = (c == '\r') ? '\n' : c`. -/
def translate (c : UInt8) : UInt8 := if c = cr then newline else c

/-- The loop of ^U. Every turn moves `e` one towards `w`, so the distance bounds the turns. -/
def killFrom : Nat → Input → Input
  | 0, i => i
  | turns + 1, i =>
    if i.e ≠ i.w ∧ i.buf (sub i.e 1 % inputBuf) ≠ newline then killFrom turns { i with e := sub i.e 1 }
    else i

def Input.killLine (i : Input) : Input := killFrom (sub i.e i.w) i

def Input.backspace (i : Input) : Input := if i.e ≠ i.w then { i with e := sub i.e 1 } else i

/-- `input.buf[input.e++ % INPUT_BUF] = c`. -/
def Input.append (i : Input) (c : UInt8) : Input :=
  { i with
    buf := fun k => if k = i.e % inputBuf then c else i.buf k
    e := (i.e + 1) % 2 ^ 32 }

/-- The test for `input.w = input.e; wakeup(&input.r)`, after `c` was stored. -/
def Input.commits (i : Input) (c : UInt8) : Bool :=
  c = newline ∨ c = ctrlD ∨ i.e = (i.r + inputBuf) % 2 ^ 32

/-- What a key code does to the buffer, and whether readers are woken. -/
def Input.key (i : Input) (c : UInt8) : Input × Bool :=
  if c = ctrlP then (i, false)
  else if c = ctrlU then (i.killLine, false)
  else if c = ctrlH ∨ c = del then (i.backspace, false)
  else if c ≠ 0 ∧ sub i.e i.r < inputBuf then
    let stored := i.append (translate c)
    if stored.commits (translate c) then ({ stored with w := stored.e }, true) else (stored, false)
  else (i, false)

/-- Where a process is. At those marked locked it holds `cons.lock`. `n` is what is still to be
read of the `target` asked for. -/
inductive Pc where
  | idle
  /-- before `acquire` -/
  | start (n : Nat)
  /-- locked, at the loops -/
  | loop (n target : Nat)
  /-- locked, after `c = input.buf[input.r++ % INPUT_BUF]` -/
  | have_ (n target : Nat) (c : UInt8)
  /-- asleep, or woken and before `acquire` at the end of `sleep` -/
  | asleep (n target : Nat)
  /-- locked, after the loop -/
  | done (n target : Nat)
deriving DecidableEq, Repr

abbrev Pid := Nat

inductive Holder where
  | intr
  | reader (p : Pid)
deriving DecidableEq, Repr

/-- What happened, in order: keys handled and characters consumed by readers. -/
inductive Event where
  | key (c : UInt8)
  | consume (p : Pid) (c : UInt8)
deriving DecidableEq, Repr

structure State where
  input : Input
  /-- holder of `cons.lock` -/
  lock : Option Holder
  pc : Pid → Pc
  /-- SLEEPING on `&input.r` -/
  sleeping : Pid → Bool
  killed : Pid → Bool
  /-- what the last `consoleread` of a process returned -/
  result : Pid → Option Int
  events : List Event

inductive Act where
  /-- `acquire` of consoleintr -/
  | intr
  /-- the handler gets key code `c` from `getc` -/
  | key (c : UInt8)
  /-- `getc` has no more; `release` -/
  | intrDone
  | read (p : Pid) (n : Nat)
  | kill (p : Pid)
  /-- process `p` goes on -/
  | run (p : Pid)
deriving DecidableEq

def State.goto (s : State) (p : Pid) (pc : Pc) : State := { s with pc := Function.update s.pc p pc }

def State.acquire (s : State) (p : Pid) (pc : Pc) : Option State :=
  if s.lock = none then some { s.goto p pc with lock := some (.reader p) } else none

/-- `release(&cons.lock)` and return `value`. -/
def State.leave (s : State) (p : Pid) (value : Int) : State :=
  { s.goto p .idle with lock := none, result := Function.update s.result p (some value) }

/-- `sleep(&input.r, &cons.lock)`, until the process is asleep. -/
def State.sleep (s : State) (p : Pid) (pc : Pc) : State :=
  { s.goto p pc with lock := none, sleeping := Function.update s.sleeping p true }

def State.setR (s : State) (r : Nat) : State := { s with input := { s.input with r } }

/-- `c = input.buf[input.r++ % INPUT_BUF]`. -/
def State.fetch (s : State) (p : Pid) (n target : Nat) : State :=
  (s.goto p (.have_ n target (s.input.buf (s.input.r % inputBuf)))).setR ((s.input.r + 1) % 2 ^ 32)

/-- `input.r--`. -/
def State.putBack (s : State) (p : Pid) (n target : Nat) : State :=
  (s.goto p (.done n target)).setR (sub s.input.r 1)

def State.consume (s : State) (p : Pid) (c : UInt8) : State :=
  { s with events := s.events ++ [.consume p c] }

/-- The next piece of the code of process `p`. -/
def proceed (s : State) (p : Pid) : Option State :=
  match s.pc p with
  | .idle => none
  | .start n => s.acquire p (.loop n n)
  | .loop n target =>
    if n = 0 then some (s.goto p (.done n target))
    else if s.input.r = s.input.w then
      if s.killed p then some (s.leave p (-1)) else some (s.sleep p (.asleep n target))
    else some (s.fetch p n target)
  | .have_ n target c =>
    if c = ctrlD then
      -- a ^D after other characters is left for the next call
      if n < target then some (s.putBack p n target)
      else some ((s.consume p c).goto p (.done n target))
    else if c = newline then some ((s.consume p c).goto p (.done (n - 1) target))
    else some ((s.consume p c).goto p (.loop (n - 1) target))
  | .asleep n target => if s.sleeping p then none else s.acquire p (.loop n target)
  | .done n target => some (s.leave p (target - n))

/-- One turn of the loop of `consoleintr`. -/
def handle (s : State) (c : UInt8) : State :=
  { s with
    input := (s.input.key c).1
    sleeping := if (s.input.key c).2 then fun _ => false else s.sleeping
    events := s.events ++ [.key c] }

def next (s : State) (act : Act) : Option State :=
  match act with
  | .intr => if s.lock = none then some { s with lock := some .intr } else none
  | .key c => if s.lock = some .intr then some (handle s c) else none
  | .intrDone => if s.lock = some .intr then some { s with lock := none } else none
  | .read p n => if s.pc p = .idle then some (s.goto p (.start n)) else none
  | .kill p =>
    some { s with
      killed := Function.update s.killed p true
      sleeping := Function.update s.sleeping p false }
  | .run p => proceed s p

def Step (s : State) (act : Act) (t : State) : Prop := next s act = some t

/-- Nothing typed and nobody reading; the counters may stand anywhere, and the buffer may hold
anything. -/
def quiet (buf : Nat → UInt8) (start : BitVec 32) : State where
  input := { buf, r := start.toNat, w := start.toNat, e := start.toNat }
  lock := none
  pc := fun _ => .idle
  sleeping := fun _ => false
  killed := fun _ => false
  result := fun _ => none
  events := []

/-! Who holds `cons.lock`. -/

def Pc.locked : Pc → Bool
  | .loop _ _ | .have_ _ _ _ | .done _ _ => true
  | _ => false

/-- Only the holder of the lock is at such a place. -/
def Owner (s : State) : Prop := ∀ p, (s.pc p).locked = true → s.lock = some (.reader p)

@[simp] theorem goto_pc_same (s : State) (p : Pid) (pc : Pc) : (s.goto p pc).pc p = pc :=
  Function.update_self ..

variable {p : Pid} {s t : State}

theorem goto_pc_other (s : State) {q : Pid} (pc : Pc) (other : q ≠ p) :
    (s.goto p pc).pc q = s.pc q :=
  Function.update_of_ne other ..

@[simp] theorem setR_pc (s : State) (r : Nat) : (s.setR r).pc = s.pc := rfl

@[simp] theorem setR_lock (s : State) (r : Nat) : (s.setR r).lock = s.lock := rfl

@[simp] theorem setR_input (s : State) (r : Nat) : (s.setR r).input = { s.input with r } := rfl

@[simp] theorem setR_events (s : State) (r : Nat) : (s.setR r).events = s.events := rfl

@[simp] theorem goto_input (s : State) (p : Pid) (pc : Pc) : (s.goto p pc).input = s.input := rfl

@[simp] theorem goto_events (s : State) (p : Pid) (pc : Pc) : (s.goto p pc).events = s.events := rfl

/-- A step of process `p` alone: the lock stays, is taken while it is free, or is given up. -/
structure Moves (s : State) (p : Pid) (t : State) : Prop where
  others : ∀ q, q ≠ p → t.pc q = s.pc q
  lock : t.lock = s.lock ∨ s.lock = none ∨ s.lock = some (.reader p)
  held : (t.pc p).locked = true → t.lock = some (.reader p)

theorem Moves.owner (moves : Moves s p t) (owner : Owner s) : Owner t := by
  intro q locked
  by_cases here : q = p
  · subst here
    exact moves.held locked
  · rw [moves.others q here] at locked
    have holder := owner q locked
    rcases moves.lock with same | mine
    · exact same.trans holder
    · exact absurd holder (not_held mine fun same => here (Holder.reader.inj same))

/-- The pieces of `consoleread`, with the tests that lead to them. -/
inductive Piece (s : State) (p : Pid) : State → Prop where
  | lock (n target : Nat) (out : (s.pc p).locked = false) (free : s.lock = none) :
      Piece s p { s.goto p (.loop n target) with lock := some (.reader p) }
  | enough (target : Nat) (place : s.pc p = .loop 0 target) : Piece s p (s.goto p (.done 0 target))
  | refuse (n target : Nat) (place : s.pc p = .loop n target) : Piece s p (s.leave p (-1))
  | sleep (n target : Nat) (place : s.pc p = .loop n target) : Piece s p (s.sleep p (.asleep n target))
  | fetch (n target : Nat) (place : s.pc p = .loop n target) (some : s.input.r ≠ s.input.w) :
      Piece s p (s.fetch p n target)
  | putBack (n target : Nat) (place : s.pc p = .have_ n target ctrlD) :
      Piece s p (s.putBack p n target)
  | consume (n target : Nat) (c : UInt8) (place : s.pc p = .have_ n target c) (after : Pc)
      (keeps : after.locked = true) (plain : ∀ n target c, after ≠ .have_ n target c) :
      Piece s p ((s.consume p c).goto p after)
  | leave (n target : Nat) (place : s.pc p = .done n target) : Piece s p (s.leave p (target - n))

theorem acquire_some {pc : Pc} (result : s.acquire p pc = some t) :
    s.lock = none ∧ t = { s.goto p pc with lock := some (.reader p) } := by
  obtain ⟨free, rfl⟩ := guarded result
  exact ⟨free, rfl⟩

theorem proceed_piece (result : proceed s p = some t) : Piece s p t := by
  unfold proceed at result
  split at result
  case h_1 => cases result
  case h_2 n place =>
    obtain ⟨free, rfl⟩ := acquire_some result
    exact .lock n n (by rw [place]; rfl) free
  case h_3 n target place =>
    split at result
    · rename_i zero
      subst zero
      cases result
      exact .enough target place
    · split at result
      · split at result
        · cases result
          exact .refuse n target place
        · cases result
          exact .sleep n target place
      · rename_i some
        cases result
        exact .fetch n target place some
  case h_4 n target c place =>
    split at result
    · rename_i eof
      subst eof
      split at result
      · cases result
        exact .putBack n target place
      · cases result
        exact .consume n target _ place _ rfl (by simp)
    · split at result
      · cases result
        exact .consume n target c place _ rfl (by simp)
      · cases result
        exact .consume n target c place _ rfl (by simp)
  case h_5 n target place =>
    split at result
    · cases result
    · obtain ⟨free, rfl⟩ := acquire_some result
      exact .lock n target (by rw [place]; rfl) free
  case h_6 n target place =>
    cases result
    exact .leave n target place

/-- A piece after which `p` has the lock it had before. -/
theorem moves_inside {pc : Pc} (owner : Owner s) (held : (s.pc p).locked = true)
    (places : t.pc = (s.goto p pc).pc) (lock : t.lock = s.lock) :
    Moves s p t where
  others := fun q other => by rw [places, goto_pc_other s pc other]
  lock := Or.inl lock
  held := fun _ => lock.trans (owner p held)

/-- A piece that ends without the lock. -/
theorem moves_out {pc : Pc} (owner : Owner s) (held : (s.pc p).locked = true)
    (places : t.pc = (s.goto p pc).pc) (out : pc.locked = false) :
    Moves s p t where
  others := fun q other => by rw [places, goto_pc_other s pc other]
  lock := Or.inr (Or.inr (owner p held))
  held := fun locked => by
    rw [places, goto_pc_same, out] at locked
    cases locked

theorem Piece.moves (piece : Piece s p t) (owner : Owner s) :
    Moves s p t := by
  cases piece with
  | lock n target out free =>
    exact ⟨fun q other => goto_pc_other s _ other, Or.inr (Or.inl free), fun _ => rfl⟩
  | enough _ place | consume _ _ _ place => exact moves_inside owner (by rw [place]; rfl) rfl rfl
  | fetch _ _ place | putBack _ _ place =>
    exact moves_inside owner (by rw [place]; rfl) (setR_pc _ _) (setR_lock _ _)
  | refuse _ _ place | sleep _ _ place | leave _ _ place =>
    exact moves_out owner (by rw [place]; rfl) rfl rfl

/-- The steps that are not a piece of `consoleread`. -/
inductive Outside (s : State) : State → Prop where
  | intr (free : s.lock = none) : Outside s { s with lock := some .intr }
  | key (c : UInt8) (holder : s.lock = some .intr) : Outside s (handle s c)
  | intrDone (holder : s.lock = some .intr) : Outside s { s with lock := none }
  | read (p : Pid) (n : Nat) (idle : s.pc p = .idle) : Outside s (s.goto p (.start n))
  | kill (killed sleeping : Pid → Bool) : Outside s { s with killed, sleeping }

theorem step_cases {act : Act} (step : Step s act t) :
    Outside s t ∨ ∃ p, Piece s p t := by
  cases act with
  | intr =>
    obtain ⟨free, rfl⟩ := guarded step
    exact Or.inl (.intr free)
  | key c =>
    obtain ⟨holder, rfl⟩ := guarded step
    exact Or.inl (.key c holder)
  | intrDone =>
    obtain ⟨holder, rfl⟩ := guarded step
    exact Or.inl (.intrDone holder)
  | read p n =>
    obtain ⟨idle, rfl⟩ := guarded step
    exact Or.inl (.read p n idle)
  | kill p =>
    cases step
    exact Or.inl (.kill _ _)
  | run p => exact Or.inr ⟨p, proceed_piece step⟩

/-- While the handler has the lock, or nobody does, no process is at a locked place. -/
theorem unlocked_of_lock (owner : Owner s) (lock : ∀ p, s.lock ≠ some (.reader p))
    (p : Pid) : (s.pc p).locked = false := by
  by_contra locked
  exact lock p (owner p (by simpa using locked))

theorem Outside.owner (outside : Outside s t) (owner : Owner s) : Owner t := by
  cases outside with
  | intr free =>
    intro p locked
    simp [unlocked_of_lock owner (by simp [free]) p] at locked
  | key c holder => exact owner
  | intrDone holder =>
    intro p locked
    simp [unlocked_of_lock owner (by simp [holder]) p] at locked
  | read p n idle =>
    intro q locked
    by_cases here : q = p
    · subst here
      rw [goto_pc_same] at locked
      cases locked
    · rw [goto_pc_other s _ here] at locked
      exact owner q locked
  | kill killed sleeping => exact owner

end ColorXv6.Dev.Console
