import ColorXv6.Vm.CallWalk

/-!
The address spaces of all processes. Everything about files and pipes leaves them
alone, and in proc.c what only changes states and links. A property of size and
directory that the operations on one address space preserve holds of every process.
-/
namespace ColorXv6.Vm.ProcSpaces
open Lib.LittleEndian Lib.Wp Param Mmu Kalloc PageDir Footprint Exec Process Kernel CallWalk

variable {ld : Link}

/-- Size and page directory of every process. -/
def spaces (s : Machine ld) : Nat → Nat × Option (PgDir ld) :=
  fun p => ((s.proc p).sz, (s.proc p).pgdir)

theorem keeps_inKmem {α : Type} (m : Prog (Kmem ld) Stop α) : Keeps spaces (inKmem m) := by
  apply keeps_zoom
  intro s k
  rfl

theorem keeps_modifyFile (i : Nat) (f : File → File) :
    Keeps spaces (modifyFile i f : MachineM ld Unit) :=
  keeps_modify fun _ => rfl

theorem keeps_modifyProc (p : Nat) {f : Proc ld → Proc ld}
    (same : ∀ proc, ((f proc).sz, (f proc).pgdir) = (proc.sz, proc.pgdir)) :
    Keeps spaces (modifyProc p f) := by
  apply keeps_modify
  intro s
  funext q
  unfold spaces
  dsimp only
  split
  · exact same _
  · rfl

theorem keeps_pipeclose (pa : Nat) (writable : Bool) :
    Keeps spaces (pipeclose pa writable : MachineM ld Unit) := by
  intro s
  unfold pipeclose
  rw [wp_read]
  cases s.pipes.find? fun q => q.page.pa = pa with
  | none => exact wp_fail True.intro
  | some q =>
    dsimp only
    split
    · rw [wp_bind, wp_set]
      exact wp_mono (keeps_inKmem (kfree (p2v pa)) _) fun _ _ same => same
    · exact (wp_set ..).mpr rfl

theorem keeps_fileclose (i : Nat) : Keeps spaces (fileclose i : MachineM ld Unit) := by
  apply keeps_read
  intro s
  dsimp only
  split
  · exact keeps_throw _
  · split
    · exact keeps_modifyFile _ _
    · apply keeps_bind (keeps_modifyFile _ _)
      intro _
      split
      · exact keeps_pipeclose _ _
      · exact keeps_pure _

theorem keeps_filealloc : Keeps spaces (filealloc : MachineM ld (Option Nat)) := by
  apply keeps_read
  intro s
  split
  · exact keeps_pure _
  · exact keeps_bind (keeps_modifyFile _ _) fun _ => keeps_pure _

theorem keeps_filedup (i : Nat) : Keeps spaces (filedup i : MachineM ld Unit) := by
  apply keeps_read
  intro s
  split
  · exact keeps_throw _
  · exact keeps_modifyFile _ _

theorem keeps_pipealloc : Keeps spaces (pipealloc : MachineM ld (Option (Nat × Nat))) := by
  apply keeps_bind keeps_filealloc
  intro r0
  cases r0 with
  | none => exact keeps_pure _
  | some f0 =>
    apply keeps_bind keeps_filealloc
    intro r1
    cases r1 with
    | none => exact keeps_bind (keeps_fileclose f0) fun _ => keeps_pure _
    | some f1 =>
      apply keeps_bind (keeps_inKmem _)
      intro page
      cases page with
      | none =>
        exact keeps_bind (keeps_fileclose f0) fun _ => keeps_bind (keeps_fileclose f1) fun _ => keeps_pure _
      | some page =>
        refine keeps_bind (keeps_modify ?_) fun _ => ?_
        · exact fun _ => rfl
        apply keeps_bind (keeps_modifyFile _ _)
        intro _
        exact keeps_bind (keeps_modifyFile _ _) fun _ => keeps_pure _

theorem keeps_kfreeStack (kstack : Option (Frame ld)) :
    Keeps spaces (kfreeStack kstack : MachineM ld Unit) := by
  unfold kfreeStack
  split
  · exact keeps_throw _
  · exact keeps_inKmem _

theorem keeps_wait (p : Nat) : Keeps spaces (wait p : MachineM ld (Option Int)) := by
  apply keeps_read
  intro s
  split
  · apply keeps_bind (keeps_kfreeStack _)
    intro _
    apply keeps_bind (keeps_inKmem _)
    intro _
    exact keeps_bind (keeps_modifyProc _ fun _ => rfl) fun _ => keeps_pure _
  · split
    · exact keeps_pure _
    · exact keeps_bind (keeps_modifyProc _ fun _ => rfl) fun _ => keeps_pure _

theorem keeps_allocproc : Keeps spaces (allocproc : MachineM ld (Option Nat)) := by
  apply keeps_read
  intro s
  split
  · exact keeps_pure _
  · refine keeps_bind (keeps_modifyProc _ ?_) fun _ => ?_
    · exact fun _ => rfl
    refine keeps_bind (keeps_modify ?_) fun _ => ?_
    · exact fun _ => rfl
    apply keeps_bind (keeps_inKmem _)
    intro kstack
    split <;> exact keeps_bind (keeps_modifyProc _ fun _ => rfl) fun _ => keeps_pure _

theorem keeps_setState (p : Nat) (state : ProcState) :
    Keeps spaces (setState p state : MachineM ld Unit) :=
  keeps_modifyProc p fun _ => rfl

/-- The specification of an action that may halt. -/
def anyHalt (_ : Halt) : Prop := True

/-- What the operations on one address space have to preserve. -/
structure Closed (F : Nat → Option (PgDir ld) → Prop) : Prop where
  gone : ∀ {sz dir}, F sz dir → F sz none
  starts : ∀ init size k, wp setupkvm (fun r _ => ∀ d, r = some d → ∀ k',
    wp (inituvm d init size) (fun r _ => F pgSize (some r.1)) anyStop k') anyStop k
  copies : ∀ d {sz} k, sz ≤ kernBase →
    wp (copyuvm d sz) (fun r _ => ∀ child, r = some child → F sz (some child)) anyStop k
  builds : ∀ img argv k, wp (buildImage img argv)
    (fun r _ => ∀ image, r = some image → F image.sz (some image.pgdir)) anyStop k
  frees : ∀ d {sz dir} k, F sz dir →
    wp (deallocuvm d kernBase 0) (fun r _ => F sz (some r.1)) anyStop k
  shrinks : ∀ {d sz} newsz k, sz ≤ kernBase → F sz (some d) →
    wp (deallocuvm d sz newsz) (fun r _ => F sz (some r.1) ∧ F r.2 (some r.1)) anyStop k

section Fit
variable {F : Nat → Option (PgDir ld) → Prop} {s : Machine ld} {p : Nat} {α : Type}

/-- Size and directory of every process fit. -/
def AllFit (F : Nat → Option (PgDir ld) → Prop) (s : Machine ld) : Prop :=
  ∀ p, F (s.proc p).sz (s.proc p).pgdir

theorem AllFit.spaces {t : Machine ld} (all : AllFit F s) (same : spaces t = spaces s) :
    AllFit F t := by
  intro p
  have here := congrFun same p
  simp only [ProcSpaces.spaces, Prod.mk.injEq] at here
  rw [here.1, here.2]
  exact all p

theorem tracks_fit {m : MachineM ld α} (keeps : Keeps spaces m) :
    Tracks (AllFit F) (fun _ _ => True) anyHalt m :=
  fun s all => wp_mono (keeps s) fun _ _ same => ⟨True.intro, all.spaces same⟩

theorem fitWalk : FileWalk (AllFit F) (fun _ _ => True) anyHalt where
  refl _ := True.intro
  trans _ _ := True.intro
  quiet {s _} all same := by
    refine ⟨True.intro, all.spaces ?_⟩
    funext q
    have fields := same q
    simp only [quietView, Prod.mk.injEq] at fields
    exact Prod.ext fields.1 fields.2.1
  setOfile p _ _ := tracks_fit (keeps_modifyProc p fun _ => rfl)
  opened i _ _ := tracks_fit (keeps_modifyFile i _)
  filealloc := tracks_fit keeps_filealloc
  filedup i := tracks_fit (keeps_filedup i)
  fileclose i := tracks_fit (keeps_fileclose i)
  pipealloc := tracks_fit keeps_pipealloc
  edge := True.intro

variable (all : AllFit F s)
include all

theorem fit_of_keeps {m : MachineM ld α} (keeps : Keeps spaces m) :
    wp m (fun _ t => AllFit F t) anyHalt s :=
  wp_mono (keeps s) fun _ _ same => all.spaces same

theorem fit_of_tracks {m : MachineM ld α} (tracks : Tracks (AllFit F) (fun _ _ => True) anyHalt m) :
    wp m (fun _ t => AllFit F t) anyHalt s :=
  wp_mono (tracks s all) fun _ _ after => after.2

/-- Giving one process a directory and a size that go together. -/
theorem fit_modifyProc (p : Nat) (f : Proc ld → Proc ld)
    (fits : F (f (s.proc p)).sz (f (s.proc p)).pgdir) :
    wp (modifyProc p f) (fun _ t => AllFit F t) anyHalt s := by
  apply wp_modifyProc
  intro q
  dsimp only
  split
  · rename_i here
    rw [here]
    exact fits
  · exact all q

theorem fit_inKmem {m : Prog (Kmem ld) Stop α} {Q : α → Prop}
    (spec : wp m (fun r _ => Q r) anyStop s.kmem) :
    wp (inKmem m) (fun r t => AllFit F t ∧ t.proc = s.proc ∧ Q r) anyHalt s := by
  apply wp_inKmem_of
  exact wp_mono (wp_error spec fun _ _ => True.intro) fun r k holds => ⟨all, rfl, holds⟩

variable (closed : Closed F)
include closed

theorem fit_userinit (init : Bytes) (size : Nat) :
    wp (userinit init size) (fun _ t => AllFit F t) anyHalt s := by
  apply wp_seq (fit_of_keeps all keeps_allocproc)
  intro np s1 all1
  cases np with
  | none => exact wp_fail True.intro
  | some np =>
    rw [wp_bind, wp_modify]
    apply wp_seq (fit_inKmem (s := { s1 with initproc := some np }) all1
      (closed.starts init size s1.kmem))
    rintro dir s2 ⟨all2, -, starts⟩
    cases dir with
    | none => exact wp_fail True.intro
    | some d =>
      apply wp_seq (fit_inKmem all2 (starts d rfl s2.kmem))
      rintro ⟨d', lost⟩ s3 ⟨all3, -, fits⟩
      rw [wp_bind, wp_modify]
      exact fit_modifyProc (s := { s3 with boot := lost.toList ++ s3.boot }) all3 np _ fits

theorem fit_fork (bounded : Bounded s) (p : Nat) :
    wp (fork p) (fun _ t => AllFit F t) anyHalt s := by
  apply wp_seq (keeps_allocproc s)
  intro np s1 same
  have all1 := all.spaces same
  cases np with
  | none => exact wp_ret all1
  | some np =>
    have small : (s1.proc p).sz ≤ kernBase := (congrArg Prod.fst (congrFun same p)).trans_le (bounded p)
    rw [wp_read]
    split
    · exact wp_fail True.intro
    · apply wp_seq (fit_inKmem all1 (closed.copies _ s1.kmem small))
      rintro child s2 ⟨all2, -, copied⟩
      cases child with
      | none =>
        apply wp_seq (fit_of_keeps all2 (keeps_kfreeStack _))
        intro _ s3 all3
        apply wp_seq (fit_modifyProc all3 np _ (closed.gone (all3 np)))
        exact fun _ s4 all4 => wp_ret all4
      | some child =>
        apply wp_seq (fit_modifyProc all2 np _ (copied child rfl))
        intro _ s3 all3
        apply wp_seq (fit_of_tracks all3 (fitWalk.dupFiles _ _ _))
        intro _ s4 all4
        exact fit_of_keeps all4 (keeps_bind (keeps_modifyProc _ fun _ => rfl) fun _ => keeps_pure _)

theorem fit_exec (p : Nat) (path : List UInt8) (file : Option Image)
    (argv : List (List UInt8)) : wp (exec p path file argv) (fun _ t => AllFit F t) anyHalt s := by
  cases file with
  | none => exact wp_ret all
  | some img =>
    apply wp_seq (fit_inKmem all (closed.builds img argv s.kmem))
    rintro r s1 ⟨all1, -, built⟩
    cases r with
    | none => exact wp_ret all1
    | some image =>
      rw [wp_read]
      apply wp_seq (fit_modifyProc all1 p _ (built image rfl))
      intro _ s2 all2
      exact fit_of_keeps all2 (keeps_bind (keeps_inKmem _) fun _ => keeps_pure _)

theorem fit_exit (p : Nat) (status : Int) :
    wp (exit p status) (fun _ t => AllFit F t) anyHalt s := by
  unfold exit
  rw [wp_read]
  split
  · exact wp_fail True.intro
  · apply wp_seq (fit_of_tracks all (fitWalk.closeFiles p nofile))
    intro _ s1 all1
    rw [wp_read]
    apply wp_seq (fit_of_tracks all1 (fitWalk.wakeup1 _))
    intro _ s2 all2
    apply wp_seq (fit_of_tracks all2 (fitWalk.reparent p))
    intro _ s3 all3
    split
    · exact wp_fail True.intro
    · rename_i d dir
      apply wp_seq (fit_inKmem all3 (closed.frees d s3.kmem (all3 p)))
      rintro ⟨d', size⟩ s4 ⟨all4, same, fits⟩
      exact fit_modifyProc all4 p _ (by rw [same]; exact fits)

theorem fit_shrink {n : Int} (small : (s.proc p).sz ≤ kernBase) (neg : n < 0) :
    wp (sysSbrk p n) (fun _ t => AllFit F t) anyHalt s := by
  have grows : wp (growproc p n) (fun _ t => AllFit F t) anyHalt s := by
    unfold growproc
    rw [wp_read]
    split
    · exact wp_fail True.intro
    · rename_i d dir
      rw [if_neg (by omega), if_pos neg]
      apply wp_seq (fit_inKmem all (closed.shrinks _ s.kmem small (dir ▸ all p)))
      rintro ⟨d', size⟩ s1 ⟨all1, same, still, fits⟩
      apply wp_seq (wp_and (fit_modifyProc all1 p _ (by rw [same]; exact still))
        (wp_modifyProc (Q := fun _ t => (t.proc p).pgdir = some d') (by simp)))
      rintro _ s2 ⟨all2, dir2⟩
      split
      · exact wp_ret all2
      · apply wp_seq (fit_modifyProc all2 p _ (by rw [dir2]; exact fits))
        exact fun _ t after => wp_ret after
  unfold sysSbrk
  rw [wp_read, if_neg (by omega)]
  apply wp_seq grows
  intro r t after
  split <;> exact wp_ret after

/-- Every action but `sbrk`; a page fault is the caller's affair. -/
theorem fit_perform (bounded : Bounded s) {act : Action} (other : ∀ p n, act ≠ .sbrk p n)
    (faults : ∀ p user cr2 code err, act = .fault p user cr2 code →
      wp (pageFault p cr2 err) (fun _ t => AllFit F t) anyHalt s) :
    wp (perform act) (fun _ t => AllFit F t) anyHalt s := by
  have follow : ∀ {α : Type} {m : MachineM ld α}, Tracks (AllFit F) (fun _ _ => True) anyHalt m →
      wp (ignore m) (fun _ t => AllFit F t) anyHalt s := fun tracks =>
    wp_ignore (fit_of_tracks all tracks)
  cases act with
  | kvmalloc =>
    exact fit_of_keeps all (keeps_bind (keeps_inKmem _) fun d => keeps_modify fun _ => rfl)
  | startother =>
    apply fit_of_keeps all
    apply keeps_bind (keeps_inKmem _)
    intro page
    split
    · exact keeps_throw _
    · exact keeps_modify fun _ => rfl
  | userinit init size => exact fit_userinit all closed init size
  | schedule p | yield p => exact fit_of_keeps all (keeps_setState p _)
  | fork p => exact wp_ignore (fit_fork all closed bounded p)
  | exec p path file argv => exact wp_ignore (fit_exec all closed p path file argv)
  | exit p status => exact fit_exit all closed p status
  | wait p => exact follow (tracks_fit (keeps_wait p))
  | kill p pid => exact follow (fitWalk.kill pid)
  | sbrk p n => exact absurd rfl (other p n)
  | fault p user cr2 code =>
    apply wp_ignore
    apply wp_seq (faults p user cr2 code _ rfl)
    intro _ t after
    rw [wp_read]
    split
    · exact wp_seq (fit_exit after closed p _) fun _ _ gone => wp_ret gone
    · exact wp_ret after
  | pipe p => exact follow (fitWalk.sysPipe p)
  | openFile p readable writable => exact follow (fitWalk.sysOpen p readable writable)
  | close p fd => exact follow (fitWalk.sysClose p fd)
  | dup p fd => exact follow (fitWalk.sysDup p fd)
  | dup2 p oldfd newfd => exact follow (fitWalk.sysDup2 p oldfd newfd)

end Fit

end ColorXv6.Vm.ProcSpaces
