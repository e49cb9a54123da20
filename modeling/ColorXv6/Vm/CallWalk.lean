import ColorXv6.Vm.Kernel

/-!
The calls that move descriptors and process states, walked once. What the operations of
file.c and pipe.c keep, the system calls on files keep; what a change of a process's links
keeps, `kill`, `wakeup` and the passing on of children keep.
-/
namespace ColorXv6.Vm.CallWalk
open Lib.Slots Lib.Wp Param Kalloc PageDir Process Kernel Descriptors

variable {ld : Link}

/-- What those changes leave as it is in a process. -/
def quietView (p : Proc ld) :
    Nat × Option (PgDir ld) × Option (Frame ld) × (Nat → Option Nat) × Bool × Bool :=
  (p.sz, p.pgdir, p.kstack, p.ofile, p.state = .unused, p.state = .zombie)

/-- A program that keeps `I` and relates the states before and after it by `R`. -/
def Tracks {α : Type} (I : Machine ld → Prop) (R : Machine ld → Machine ld → Prop)
    (E : Halt → Prop) (m : MachineM ld α) : Prop :=
  ∀ s, I s → wp m (fun _ t => R s t ∧ I t) E s

/-- What can be followed through a program, and is not about the links of processes. -/
structure Walk (I : Machine ld → Prop) (R : Machine ld → Machine ld → Prop) (E : Halt → Prop) :
    Prop where
  refl : ∀ s, R s s
  trans : ∀ {s t u}, R s t → R t u → R s u
  quiet : ∀ {s : Machine ld} {proc : Nat → Proc ld}, I s →
    (∀ q, quietView (proc q) = quietView (s.proc q)) → R s { s with proc } ∧ I { s with proc }

/-- The same for the operations on files. -/
structure FileWalk (I : Machine ld → Prop) (R : Machine ld → Machine ld → Prop) (E : Halt → Prop) :
    Prop extends Walk I R E where
  setOfile : ∀ p fd f, Tracks I R E (modifyProc p (setOfile fd f))
  opened : ∀ i readable writable,
    Tracks I R E (modifyFile i fun file => { file with type := .inode, readable, writable })
  filealloc : Tracks I R E filealloc
  filedup : ∀ i, Tracks I R E (filedup i)
  fileclose : ∀ i, Tracks I R E (fileclose i)
  pipealloc : Tracks I R E pipealloc
  edge : E .outOfBounds

section Rules
variable {I : Machine ld → Prop} {R : Machine ld → Machine ld → Prop} {E : Halt → Prop} {α β : Type}

theorem tracks_throw {e : Halt} (stops : E e) : Tracks I R E (throw e : MachineM ld α) :=
  fun _ _ => wp_fail stops

theorem tracks_read {f : Machine ld → MachineM ld α} (rest : ∀ s, Tracks I R E (f s)) :
    Tracks I R E (get >>= f) :=
  fun s inv => (wp_read ..).mpr (rest s s inv)

section Walk
variable (walk : Walk I R E)
include walk

theorem Walk.ret (a : α) : Tracks I R E (pure a : MachineM ld α) :=
  fun s inv => wp_ret ⟨walk.refl s, inv⟩

theorem Walk.bind {m : MachineM ld α} {f : α → MachineM ld β} (first : Tracks I R E m)
    (rest : ∀ a, Tracks I R E (f a)) : Tracks I R E (m >>= f) := by
  intro s inv
  apply wp_seq (first s inv)
  rintro a t ⟨before, inv'⟩
  apply wp_mono (rest a t inv')
  rintro b u ⟨after, inv''⟩
  exact ⟨walk.trans before after, inv''⟩

/-- The last operation of a program that returns a fixed value. -/
theorem Walk.last {m : MachineM ld α} (only : Tracks I R E m) (b : β) :
    Tracks I R E (m >>= fun _ => pure b) :=
  walk.bind only fun _ => walk.ret b

theorem Walk.modifyProc {s : Machine ld} {p : Nat} {f : Proc ld → Proc ld} (inv : I s)
    (same : quietView (f (s.proc p)) = quietView (s.proc p)) :
    wp (modifyProc p f) (fun _ t => R s t ∧ I t) E s := by
  apply wp_modifyProc
  apply walk.quiet inv
  intro q
  split
  · rename_i here
    rw [here]
    exact same
  · rfl

theorem Walk.setState {s : Machine ld} {p : Nat} {state : ProcState} (inv : I s)
    (unused : (state = .unused) = ((s.proc p).state = .unused))
    (zombie : (state = .zombie) = ((s.proc p).state = .zombie)) :
    wp (setState p state) (fun _ t => R s t ∧ I t) E s :=
  walk.modifyProc inv (by simp [quietView, unused, zombie])

theorem Walk.wakeup1 (chan : Option Nat) : Tracks I R E (wakeup1 chan) := by
  intro s inv
  unfold Process.wakeup1
  rw [wp_modify]
  apply walk.quiet inv
  intro q
  split
  · rename_i asleep
    simp [quietView, asleep.1]
  · rfl

theorem Walk.reparent (p : Nat) : Tracks I R E (reparent p) := by
  apply tracks_read
  intro s
  apply walk.bind
  · intro t inv
    rw [wp_modify]
    apply walk.quiet inv
    intro q
    split <;> rfl
  · intro _
    split
    · exact walk.wakeup1 _
    · exact walk.ret _

theorem Walk.kill (pid : Int) : Tracks I R E (kill pid) := by
  apply tracks_read
  intro s
  split
  · exact walk.ret _
  · rename_i q found
    apply walk.last
    intro t inv
    apply walk.modifyProc inv
    by_cases asleep : (t.proc q).state = .sleeping <;> simp [quietView, asleep]

end Walk

section Files
variable (walk : FileWalk I R E)
include walk

theorem FileWalk.fdalloc (p f : Nat) : Tracks I R E (fdalloc p f) := by
  apply tracks_read
  intro s
  split
  · exact walk.ret _
  · exact walk.last (walk.setOfile _ _ _) _

theorem FileWalk.closeBoth (i j : Nat) (a : α) :
    Tracks I R E (Process.fileclose i >>= fun _ => Process.fileclose j >>= fun _ => pure a) :=
  walk.bind (walk.fileclose i) fun _ => walk.last (walk.fileclose j) a

theorem FileWalk.sysPipe (p : Nat) : Tracks I R E (sysPipe p) := by
  apply walk.bind walk.pipealloc
  intro r
  split
  · exact walk.ret _
  · apply walk.bind (walk.fdalloc _ _)
    intro fd0
    split
    · exact walk.closeBoth _ _ _
    · apply walk.bind (walk.fdalloc _ _)
      intro fd1
      split
      · exact walk.bind (walk.setOfile _ _ _) fun _ => walk.closeBoth _ _ _
      · exact walk.ret _

theorem FileWalk.sysOpen (p : Nat) (readable writable : Bool) :
    Tracks I R E (sysOpen p readable writable) := by
  apply walk.bind walk.filealloc
  intro r
  split
  · exact walk.ret _
  · apply walk.bind (walk.fdalloc _ _)
    intro fd
    split
    · exact walk.last (walk.fileclose _) _
    · exact walk.last (walk.opened _ _ _) _

theorem FileWalk.sysDup (p fd : Nat) : Tracks I R E (sysDup p fd) := by
  apply tracks_read
  intro s
  split
  · exact walk.ret _
  · split
    · exact walk.ret _
    · apply walk.bind (walk.fdalloc _ _)
      intro new
      split
      · exact walk.ret _
      · exact walk.last (walk.filedup _) _

theorem FileWalk.sysClose (p fd : Nat) : Tracks I R E (sysClose p fd) := by
  apply tracks_read
  intro s
  split
  · exact walk.ret _
  · split
    · exact walk.ret _
    · exact walk.bind (walk.setOfile _ _ _) fun _ => walk.last (walk.fileclose _) _

theorem FileWalk.sysDup2 (p : Nat) (oldfd newfd : Int) : Tracks I R E (sysDup2 p oldfd newfd) := by
  have first : ∀ fnew, Tracks I R E (fileOps.closeFirst p newfd.toNat fnew) := by
    intro fnew
    cases fnew with
    | none => exact walk.ret _
    | some f => exact walk.bind (walk.setOfile _ _ _) fun _ => walk.fileclose f
  intro s inv
  refine (reads_ofile walk.edge rfl p s).wp_sysDup2 (fun _ => ⟨walk.refl s, inv⟩) fun fold _ _ _ _ => ?_
  exact walk.bind (first _) (fun _ => walk.bind (walk.filedup fold) fun _ =>
    walk.last (walk.setOfile _ _ _) _) s inv

theorem FileWalk.ofile (p fd : Nat) : Tracks I R E (fileOps.ofile p fd) := by
  intro s inv
  apply wp_mono (reads_ofile walk.edge rfl p s fd)
  rintro _ _ ⟨rfl, -⟩
  exact ⟨walk.refl _, inv⟩

theorem FileWalk.dupFiles (p np n : Nat) : Tracks I R E (fileOps.dupFiles p np n) := by
  induction n with
  | zero => exact walk.ret _
  | succ n ih =>
    apply walk.bind ih
    intro _
    apply walk.bind (walk.ofile p n)
    intro f
    cases f with
    | none => exact walk.ret _
    | some f => exact walk.bind (walk.filedup f) fun _ => walk.setOfile _ _ _

theorem FileWalk.closeFiles (p n : Nat) : Tracks I R E (fileOps.closeFiles p n) := by
  induction n with
  | zero => exact walk.ret _
  | succ n ih =>
    apply walk.bind ih
    intro _
    apply walk.bind (walk.ofile p n)
    intro f
    cases f with
    | none => exact walk.ret _
    | some f => exact walk.bind (walk.fileclose f) fun _ => walk.setOfile _ _ _

end Files

end Rules

end ColorXv6.Vm.CallWalk
