import ColorXv6.Vm.Files
import ColorXv6.Vm.UserPointers

/-!
Ownership of physical pages over whole runs. The account of a page adds up its
occurrences on the free list, in the processes, in the pipes and in what the boot
code keeps; every action moves pages between these without changing the sum.
-/
namespace ColorXv6.Vm.Ownership
open Lib.LittleEndian Lib.Slots Lib.Wp Lib.Runs Lib.Holdings Param Mmu Kalloc PageDir Footprint Exec Process
open Kernel Boot Files Finset

variable {ld : Link}

/-- Occurrences of page `a` in a process: its stack and its address space. -/
def procHits (a : Nat) (p : Proc ld) : Nat :=
  if p.state = .unused then 0 else optHit a p.kstack + optPages a p.pgdir

/-- Occurrences of `a` in what the boot code allocated. -/
def bootHits (a : Nat) (s : Machine ld) : Nat :=
  optPages a s.kpgdir + (s.boot.map Frame.pa).count a

def total (a : Nat) (s : Machine ld) : Nat :=
  freeCount a s.kmem + ∑ p ∈ range nproc, procHits a (s.proc p) + pipeHits a s.pipes + bootHits a s

/-- Every page is accounted for once, and a zombie has no user pages left. -/
structure Owned (pages : List (Frame ld)) (s : Machine ld) : Prop where
  distinct : (pages.map Frame.pa).Nodup
  exact : ∀ a, total a s = (pages.map Frame.pa).count a
  zombies : ∀ p, (s.proc p).state = .zombie → ∀ d, (s.proc p).pgdir = some d → NoUser d
  kernel : ∀ d, s.kpgdir = some d → NoUser d
  pipes : PipeInv s

theorem procHits_view (a : Nat) {p q : Proc ld} (same : memView p = memView q) :
    procHits a p = procHits a q := by
  simp only [memView, Prod.mk.injEq, decide_eq_decide] at same
  obtain ⟨-, dir, stack, unused, -⟩ := same
  unfold procHits
  rw [dir, stack]
  simp only [unused]

variable {p : Nat} {pages : List (Frame ld)} {t : Machine ld}

/-- What leaves address spaces alone and keeps the pipes in order keeps the account. -/
theorem Owned.safe {s : Machine ld} (own : Owned pages s) (safe : Safe s t) : Owned pages t where
  distinct := own.distinct
  exact a := by
    have before := own.exact a
    have moved := safe.1.counts a
    have procs : ∑ p ∈ range nproc, procHits a (t.proc p) = ∑ p ∈ range nproc, procHits a (s.proc p) :=
      sum_range_same _ _ fun p _ => procHits_view a (safe.1.view p)
    unfold total bootHits at *
    rw [procs, safe.1.kpgdir, safe.1.boot]
    omega
  zombies p dead d dir := by
    have view := safe.1.view p
    simp only [memView, Prod.mk.injEq, decide_eq_decide] at view
    obtain ⟨-, dirs, -, -, zombie⟩ := view
    exact own.zombies p (zombie.mp dead) d (dirs ▸ dir)
  kernel d dir := own.kernel d (safe.1.kpgdir ▸ dir)
  pipes := safe.2

/-- An action that changes one process, memory and what the boot code holds keeps the
account if it balances over these. -/
theorem Owned.account {s : Machine ld} (own : Owned pages s)
    (inside : p < nproc) (files : t.file = s.file) (pipes : t.pipes = s.pipes)
    (zombie : (t.proc p).state = .zombie → ∀ d, (t.proc p).pgdir = some d → NoUser d)
    (kernel : ∀ d, t.kpgdir = some d → NoUser d)
    (balance : ∀ a, freeCount a t.kmem + procHits a (t.proc p) + bootHits a t =
      freeCount a s.kmem + procHits a (s.proc p) + bootHits a s)
    (others : ∀ q, q ≠ p → t.proc q = s.proc q := by intro q other; simp [other]) : Owned pages t := by
  have exact : ∀ a, total a t = (pages.map Frame.pa).count a := by
    intro a
    have before := own.exact a
    have moved := balance a
    have procs := sum_range_update inside (fun q => procHits a (s.proc q))
      (fun q => procHits a (t.proc q)) fun q different => by rw [others q different]
    unfold total at *
    rw [pipes]
    omega
  have once : ∀ a, freeCount a t.kmem + pipeHits a t.pipes ≤ 1 := by
    intro a
    have after := exact a
    have single := List.nodup_iff_count_le_one.mp own.distinct a
    unfold total at after
    omega
  refine ⟨own.distinct, exact, ?_, kernel, ⟨once, ?_, ?_, ?_⟩⟩
  · intro q dead d dir
    by_cases here : q = p
    · subst here
      exact zombie dead d dir
    · rw [others q here] at dead dir
      exact own.zombies q dead d dir
  · rw [files, pipes]
    exact own.pipes.attached
  · rw [files]
    exact own.pipes.single
  · rw [pipes]
    exact own.pipes.openEnd

section Actions
variable {pages : List (Frame ld)} {s : Machine ld}

/-- A memory operation inside an action, by what it does to the count of every page. -/
theorem wp_counts {α β : Type} {m : Prog (Kmem ld) Stop α} {C : Nat → α → Kmem ld → Prop}
    {f : α → MachineM ld β} {Q : β → Machine ld → Prop} (counts : ∀ a, wp m (C a) anyStop s.kmem)
    (rest : ∀ r k, (∀ a, C a r k) → wp (f r) Q notFreed { s with kmem := k }) :
    wp (inKmem m >>= f) Q notFreed s := by
  rw [wp_bind]
  exact wp_inKmem (wp_mono (wp_forall counts) rest)

theorem owned_kvmalloc (own : Owned pages s) (none : s.kpgdir = none) :
    wp kvmalloc (fun _ t => Owned pages t) notFreed s := by
  apply wp_counts fun a => setupkvm_count a s.kmem
  intro kpgdir k built
  rw [wp_modify]
  refine own.account (p := 0) (by decide) rfl rfl (own.zombies 0) ?_ ?_
  · intro d dir
    exact (built 0).2 d dir
  · intro a
    have count := (built a).1
    simp only [bootHits, none, optPages]
    unfold optPages at count
    omega

theorem owned_startother (own : Owned pages s) :
    wp startother (fun _ t => Owned pages t) notFreed s := by
  apply wp_counts fun a => kalloc_count a s.kmem
  intro r k counts
  cases r with
  | none => exact wp_fail (by simp [notFreed])
  | some stack =>
    refine (wp_modify ..).mpr
      (own.account (p := 0) (by decide) rfl rfl (own.zombies 0) own.kernel ?_)
    intro a
    have count := counts a
    simp only [bootHits, List.map_cons, List.count_cons, optHit, frameHit, beq_iff_eq] at count ⊢
    omega

/-- What `allocproc` returns: an unused slot that has become an embryo with a stack. -/
structure Embryo (s t : Machine ld) (np : Nat) : Prop where
  inside : np < nproc
  unused : (s.proc np).state = .unused
  embryo : (t.proc np).state = .embryo
  stack : ∃ f, (t.proc np).kstack = some f ∧
    ∀ a, freeCount a t.kmem + frameHit a f = freeCount a s.kmem
  others : ∀ q, q ≠ np → t.proc q = s.proc q
  file : t.file = s.file
  pipes : t.pipes = s.pipes
  kpgdir : t.kpgdir = s.kpgdir
  boot : t.boot = s.boot

theorem owned_allocproc (own : Owned pages s) :
    wp allocproc (fun r t => (r = none → Owned pages t) ∧ ∀ np, r = some np → Embryo s t np)
      notFreed s := by
  unfold allocproc
  rw [wp_read]
  cases found : firstSlot nproc fun p => (s.proc p).state = .unused with
  | none => exact wp_ret ⟨fun _ => own, by simp⟩
  | some p =>
    obtain ⟨inside, test⟩ := firstSlot_some found
    have unused : (s.proc p).state = .unused := by simpa using test
    rw [wp_bind]
    apply wp_modifyProc
    rw [wp_bind, wp_modify]
    apply wp_counts fun a => kalloc_count a _
    intro r k counts
    cases r with
    | none =>
      rw [wp_bind]
      apply wp_modifyProc
      refine wp_ret ⟨fun _ => ?_, by simp⟩
      refine own.account (p := p) inside rfl rfl (by simp) own.kernel fun a => ?_
      have count := counts a
      simp only [bootHits, procHits, unused, if_true, optHit] at count ⊢
      omega
    | some kstack =>
      rw [wp_bind]
      apply wp_modifyProc
      refine wp_ret ⟨by simp, ?_⟩
      rintro np ⟨⟩
      refine ⟨inside, unused, by simp, ⟨kstack, by simp, counts⟩, ?_, rfl, rfl, rfl, rfl⟩
      intro q different
      simp [different]

/-- `kfree` of a kernel stack that is there. -/
theorem wp_kfreeStack {f : Frame ld} {Q : Unit → Machine ld → Prop}
    (freed : ∀ k : Kmem ld, (∀ a, freeCount a k = freeCount a s.kmem + frameHit a f) →
      Q () { s with kmem := k }) :
    wp (kfreeStack (some f)) Q notFreed s := by
  apply wp_inKmem
  apply wp_mono (wp_forall fun a => kfree_count a s.kmem f.pa_lt)
  intro _ k counts
  exact freed k counts

section Calls
variable (own : Owned pages s)
include own

theorem owned_userinit (init : Bytes) (size : Nat) :
    wp (userinit init size) (fun _ t => Owned pages t) notFreed s := by
  apply wp_seq (owned_allocproc own)
  rintro r t ⟨-, embryo⟩
  cases r with
  | none => exact wp_fail (by simp [notFreed])
  | some p =>
    obtain ⟨inside, unused, isEmbryo, ⟨f, stack, taken⟩, others, file, pipes, kpgdir, boot⟩ :=
      embryo p rfl
    rw [wp_bind, wp_modify]
    apply wp_counts fun a => setupkvm_count a _
    intro dir k1 built
    cases dir with
    | none => exact wp_fail (by simp [notFreed])
    | some d =>
      apply wp_counts fun a => inituvm_count a d k1 init size
      rintro ⟨d', lost⟩ k2 counts
      rw [wp_bind, wp_modify]
      apply wp_modifyProc
      refine own.account (p := p) inside file pipes (by simp) ?_ ?_ ?_
      · intro kd kdir
        exact own.kernel kd (kpgdir ▸ kdir)
      · intro a
        have one := taken a
        have two := (built a).1
        have three := counts a
        have lostCount : ((lost.toList ++ t.boot).map Frame.pa).count a =
            optHit a lost + (s.boot.map Frame.pa).count a := by
          rw [boot]
          cases lost <;> simp [optHit, frameHit, List.count_cons, Nat.add_comm]
        simp only [bootHits, procHits, unused, if_true, reduceCtorEq, if_false, lostCount, stack,
          kpgdir, optHit, optPages] at *
        omega
      · intro q different
        simpa [different] using others q different

/-- The slot of one process, when only its directory, size and the list have changed. -/
theorem Owned.resize (inside : p < nproc) (running : (s.proc p).state = .running) {d : PgDir ld}
    (dir : (s.proc p).pgdir = some d) {d' : PgDir ld} {k : Kmem ld}
    (kept : ∀ a, Kept a d s.kmem k d') (file : t.file = s.file) (pipes : t.pipes = s.pipes)
    (kpgdir : t.kpgdir = s.kpgdir) (boot : t.boot = s.boot) (mem : t.kmem = k)
    (state : (t.proc p).state = .running) (stack : (t.proc p).kstack = (s.proc p).kstack)
    (dir' : (t.proc p).pgdir = some d')
    (others : ∀ q, q ≠ p → t.proc q = s.proc q := by intro q other; simp [other]) : Owned pages t := by
  refine own.account inside file pipes (by simp [state]) ?_ ?_ others
  · rw [kpgdir]
    exact own.kernel
  · intro a
    have moved := kept a
    simp only [Kept, bootHits, procHits, state, running, reduceCtorEq, if_false, stack, dir, dir',
      kpgdir, boot, mem, optPages] at *
    omega

theorem owned_growproc (inside : p < nproc) (running : (s.proc p).state = .running)
    (small : (s.proc p).sz ≤ kernBase) (n : Int) :
    wp (growproc p n) (fun _ t => Owned pages t) notFreed s := by
  unfold growproc
  rw [wp_read]
  cases dir : (s.proc p).pgdir with
  | none => exact wp_fail (by simp [notFreed])
  | some d =>
    have done : ∀ (d' : PgDir ld) (k : Kmem ld) (sz : Nat), (∀ a, Kept a d s.kmem k d') →
        wp (modifyProc p (fun proc => { proc with pgdir := some d' }) >>= fun _ =>
          if sz = 0 then pure (-1 : Int)
          else modifyProc p (fun proc => { proc with sz }) >>= fun _ => pure 0)
          (fun _ t => Owned pages t) notFreed { s with kmem := k } := by
      intro d' k sz kept
      rw [wp_bind]
      apply wp_modifyProc
      split
      · refine wp_ret (own.resize inside running dir kept rfl rfl rfl rfl rfl ?_ ?_ ?_)
        all_goals simp [running]
      · rw [wp_bind]
        apply wp_modifyProc
        refine wp_ret (own.resize inside running dir kept rfl rfl rfl rfl rfl ?_ ?_ ?_)
        all_goals simp [running]
    dsimp only
    split
    · apply wp_counts fun a => allocuvm_count a d s.kmem _ _
      rintro ⟨d', sz⟩ k kept
      exact done d' k sz fun a => (kept a).1
    · split
      · apply wp_counts fun a => deallocuvm_count a d s.kmem _ small
        rintro ⟨d', sz⟩ k kept
        exact done d' k sz kept
      · exact wp_ret own

theorem owned_sysSbrk (inside : p < nproc) (running : (s.proc p).state = .running)
    (small : (s.proc p).sz ≤ kernBase) (n : Int) :
    wp (sysSbrk p n) (fun _ t => Owned pages t) notFreed s := by
  unfold sysSbrk
  rw [wp_read]
  split
  · rw [wp_bind]
    apply wp_modifyProc
    refine wp_ret (own.account inside rfl rfl ?_ own.kernel ?_)
    · simp [running]
    · intro a
      simp [bootHits, procHits]
  · apply wp_seq (owned_growproc own inside running small n)
    intro r t grown
    split <;> exact wp_ret grown

theorem owned_fork (running : (s.proc p).state = .running) (small : (s.proc p).sz ≤ kernBase) :
    wp (fork p) (fun _ t => Owned pages t) notFreed s := by
  apply wp_seq (owned_allocproc own)
  rintro r t ⟨failed, embryo⟩
  cases r with
  | none => exact wp_ret (failed rfl)
  | some np =>
    obtain ⟨inside, unused, isEmbryo, ⟨f, stack, taken⟩, others, file, pipes, kpgdir, boot⟩ :=
      embryo np rfl
    have different : p ≠ np := by
      rintro rfl
      simp [running] at unused
    rw [wp_read]
    cases dir : (t.proc p).pgdir with
    | none => exact wp_fail (by simp [notFreed])
    | some parent =>
      have bounded : (t.proc p).sz ≤ kernBase := by
        rw [others p different]
        exact small
      apply wp_counts fun a => copyuvm_count a t.kmem parent bounded
      intro copy k copied
      cases copy with
      | none =>
        simp only [stack]
        rw [wp_bind]
        apply wp_kfreeStack
        intro k2 freed
        rw [wp_bind]
        apply wp_modifyProc
        refine wp_ret (own.account inside file pipes (by simp) ?_ ?_ ?_)
        · dsimp only
          rw [kpgdir]
          exact own.kernel
        · intro a
          have one := taken a
          have two := copied a
          have three := freed a
          simp only [bootHits, procHits, unused, if_true, kpgdir, boot, optPages] at *
          omega
        · intro q differs
          simpa [differs] using others q differs
      | some d =>
        rw [wp_bind]
        apply wp_modifyProc
        -- the child has its stack and its copy, and is not yet runnable
        have born : Owned pages { t with
            kmem := k
            proc := fun q => if q = np then { t.proc q with
              pgdir := some d, sz := (t.proc p).sz, parent := some p,
              tf := { (t.proc p).tf with eax := 0 } } else t.proc q } := by
          refine own.account inside file pipes (by simp [isEmbryo]) ?_ ?_ ?_
          · dsimp only
            rw [kpgdir]
            exact own.kernel
          · intro a
            have one := taken a
            have two := copied a
            simp only [bootHits, procHits, unused, if_true, kpgdir, boot, stack, isEmbryo,
              reduceCtorEq, if_false, optPages, optHit] at *
            omega
          · intro q differs
            simpa [differs] using others q differs
        apply wp_seq (safeWalk.dupFiles p np nofile _ born.pipes)
        intro _ u dup
        have view := dup.1.view np
        simp only [memView, if_true, isEmbryo, Prod.mk.injEq, decide_eq_decide, reduceCtorEq,
          iff_false] at view
        obtain ⟨-, -, -, notUnused, notZombie⟩ := view
        apply wp_seq (safe_modifyProc dup.2 np ?_)
        · intro _ v ready
          exact wp_ret ((born.safe dup).safe ready)
        · simp [memView, notUnused, notZombie]

theorem owned_exit (inside : p < nproc) (running : (s.proc p).state = .running) (status : Int) :
    wp (exit p status) (fun _ t => Owned pages t) notFreed s := by
  unfold exit
  rw [wp_read]
  split
  · exact wp_fail (by simp [notFreed])
  · apply wp_seq (safeWalk.closeFiles p nofile _ own.pipes)
    intro _ s1 (closed : Safe s s1)
    rw [wp_read]
    apply wp_seq (safeWalk.wakeup1 _ _ closed.2)
    intro _ s2 (woken : Safe s1 s2)
    apply wp_seq (safeWalk.reparent p _ woken.2)
    intro _ s3 (passed : Safe s2 s3)
    have safe := closed.trans (woken.trans passed)
    have owned := own.safe safe
    cases dir : (s1.proc p).pgdir with
    | none => exact wp_fail (by simp [notFreed])
    | some d =>
      apply wp_counts fun a => deallocuvm_all_count a d s3.kmem
      rintro ⟨d', sz⟩ k kept
      apply wp_modifyProc
      have view := (woken.trans passed).1.view p
      have start := safe.1.view p
      simp only [memView, Prod.mk.injEq, decide_eq_decide, running, reduceCtorEq, iff_false] at view start
      obtain ⟨-, dirs, -, -, -⟩ := view
      obtain ⟨-, -, -, notUnused, -⟩ := start
      refine owned.account inside rfl rfl ?_ owned.kernel ?_
      · intro _ d'' found
        simp only [if_true, Option.some.injEq] at found
        subst found
        exact (kept 0).2
      · intro a
        have moved := (kept a).1
        simp only [Kept, bootHits, procHits, if_true, reduceCtorEq, if_false, notUnused, dirs, dir,
          optPages] at *
        omega

theorem owned_wait (p : Nat) (running : (s.proc p).state = .running) :
    wp (wait p) (fun _ t => Owned pages t) notFreed s := by
  unfold wait
  rw [wp_read]
  cases found : firstSlot nproc fun q =>
      (s.proc q).parent = some p ∧ (s.proc q).state = .zombie with
  | some q =>
    obtain ⟨inside, test⟩ := firstSlot_some found
    have dead : (s.proc q).state = .zombie := by
      simp only [decide_eq_true_eq] at test
      exact test.2
    cases stack : (s.proc q).kstack with
    | none =>
      rw [wp_bind, stack]
      exact wp_fail (by simp [notFreed])
    | some f =>
      rw [wp_bind, stack]
      apply wp_kfreeStack
      intro k1 freed
      cases dir : (s.proc q).pgdir with
      | none =>
        rw [wp_bind]
        apply wp_inKmem
        exact wp_fail True.intro
      | some d =>
        apply wp_counts fun a => freevm_count a d k1 fun _ => own.zombies q dead d dir
        intro _ k2 returned
        rw [wp_bind]
        apply wp_modifyProc
        refine wp_ret (own.account inside rfl rfl (by simp) own.kernel fun a => ?_)
        have one := freed a
        have two := returned a
        simp only [bootHits, procHits, dead, if_true, reduceCtorEq, if_false, stack, dir, optHit,
          optPages] at *
        omega
  | none =>
    dsimp only
    split
    · exact wp_ret own
    · apply wp_seq (safe_modifyProc own.pipes p ?_)
      · intro _ t asleep
        exact wp_ret (own.safe asleep)
      · simp [memView, running]

theorem owned_exec (inside : p < nproc) (running : (s.proc p).state = .running) (path : List UInt8)
    (file : Option Image) (argv : List (List UInt8)) :
    wp (exec p path file argv) (fun _ t => Owned pages t) notFreed s := by
  cases file with
  | none => exact wp_ret own
  | some img =>
    apply wp_counts fun a => buildImage_count a s.kmem img argv
    intro image k1 built
    cases image with
    | none =>
      refine wp_ret (own.account inside rfl rfl (own.zombies p) own.kernel ?_)
      intro a
      have count := (built a).1
      simp only [bootHits, optLoaded] at *
      omega
    | some image =>
      rw [wp_read, wp_bind]
      apply wp_modifyProc
      cases dir : (s.proc p).pgdir with
      | none =>
        rw [wp_bind]
        apply wp_inKmem
        exact wp_fail True.intro
      | some d =>
        apply wp_counts fun a => freevm_count a d k1 (by simp)
        intro _ k2 freed
        refine wp_ret (own.account inside rfl rfl (by simp [running]) own.kernel fun a => ?_)
        have one := (built a).1
        have two := freed a
        simp only [bootHits, procHits, running, if_true, reduceCtorEq, if_false, dir, optPages,
          optLoaded] at *
        omega

/-- The page-fault handler maps a page of the list, or gives it back and marks the process. -/
theorem owned_pageFault (inside : p < nproc) (running : (s.proc p).state = .running)
    (cr2 err : Nat) :
    wp (pageFault p cr2 err) (fun _ t => Owned pages t ∧ (t.proc p).state = .running)
      notFreed s := by
  have marked : ∀ {t : Machine ld}, Owned pages t → (t.proc p).state = .running →
      wp (modifyProc p fun proc => { proc with killed := true })
        (fun _ t => Owned pages t ∧ (t.proc p).state = .running) notFreed t := by
    intro t owned running
    apply wp_modifyProc
    refine ⟨owned.safe (safe_procs owned.pipes ?_), by simp [running]⟩
    intro q
    split <;> rfl
  unfold pageFault
  rw [wp_read]
  dsimp only
  split
  · exact marked own running
  · rename_i legal
    split
    · exact marked own running
    · have below : pgRoundDown cr2 < kernBase := by omega
      apply wp_counts fun a => kalloc_count a s.kmem
      intro r k1 counts
      cases r with
      | none =>
        refine marked (own.account inside rfl rfl (own.zombies p) own.kernel ?_) running
        intro a
        have count := counts a
        simp only [bootHits, optHit] at *
        omega
      | some mem =>
        apply wp_counts fun a => memset_count a k1 mem.pa 0
        intro _ k2 zeroed
        cases dir : (s.proc p).pgdir with
        | none => exact wp_fail (by simp [notFreed])
        | some d =>
          apply wp_counts fun a => mappages_user_count a d k2 mem below
            (pgRoundDown_aligned cr2) (by decide)
          rintro ⟨d', mapped⟩ k3 moved
          rw [wp_bind]
          apply wp_modifyProc
          cases mapped with
          | true =>
            have kept : ∀ a, Kept a d s.kmem k3 d' := by
              intro a
              have one := counts a
              have two := zeroed a
              have three := moved a
              simp only [Kept, optHit, if_true] at *
              omega
            refine wp_ret ⟨own.resize inside running dir kept rfl rfl rfl rfl rfl ?_ ?_ ?_,
              by simp [running]⟩
            all_goals simp [running]
          | false =>
            rw [if_neg (by simp)]
            apply wp_counts fun a => kfree_count a k3 mem.pa_lt
            intro _ k4 freed
            have kept : ∀ a, Kept a d s.kmem k4 d' := by
              intro a
              have one := counts a
              have two := zeroed a
              have three := moved a
              have four := freed a
              simp only [Kept, optHit, frameHit, Bool.false_eq_true, if_false] at *
              omega
            refine marked (own.resize inside running dir kept rfl rfl rfl rfl rfl ?_ ?_ ?_)
              (by simp [running])
            all_goals simp [running]

theorem owned_trap (inside : p < nproc) (running : (s.proc p).state = .running) (user : Bool)
    (cr2 code : Nat) :
    wp (trap p user cr2 code) (fun _ t => Owned pages t) notFreed s := by
  apply wp_seq (owned_pageFault own inside running cr2 _)
  rintro _ t ⟨owned, still⟩
  rw [wp_read]
  split
  · apply wp_seq (owned_exit owned inside still _)
    intro _ u gone
    exact wp_ret gone
  · exact wp_ret owned

end Calls

/-- One action keeps the account, and it does not touch a pipe that was freed. -/
theorem owned_perform (own : Owned pages s) (bounded : Bounded s) {act : Action}
    (ready : enabled s act) : wp (perform act) (fun _ t => Owned pages t) notFreed s := by
  have safely : ∀ {α : Type} {m : MachineM ld α}, wp m (fun _ t => Safe s t) notFreed s →
      wp m (fun _ t => Owned pages t) notFreed s := fun spec =>
    wp_mono spec fun _ t safe => own.safe safe
  cases act with
  | kvmalloc => exact owned_kvmalloc own ready
  | startother => exact owned_startother own
  | userinit init size => exact owned_userinit own init size
  | schedule p | yield p => exact safely (safeWalk.setState own.pipes (by simp [ready.2]) (by simp [ready.2]))
  | fork p => exact wp_ignore (owned_fork own ready.2 (bounded p))
  | exec p path file argv => exact wp_ignore (owned_exec own ready.1 ready.2 path file argv)
  | exit p status => exact owned_exit own ready.1 ready.2 status
  | wait p => exact wp_ignore (owned_wait own p ready.2)
  | kill p pid => exact wp_ignore (safely (safeWalk.kill pid s own.pipes))
  | sbrk p n => exact wp_ignore (owned_sysSbrk own ready.1 ready.2.1 (bounded p) n)
  | fault p user cr2 code => exact wp_ignore (owned_trap own ready.1 ready.2.1 user cr2 code)
  | pipe p => exact wp_ignore (safely (safeWalk.sysPipe p s own.pipes))
  | openFile p readable writable =>
    exact wp_ignore (safely (safeWalk.sysOpen p readable writable s own.pipes))
  | close p fd => exact wp_ignore (safely (safeWalk.sysClose p fd s own.pipes))
  | dup p fd => exact wp_ignore (safely (safeWalk.sysDup p fd s own.pipes))
  | dup2 p oldfd newfd => exact wp_ignore (safely (safeWalk.sysDup2 p oldfd newfd s own.pipes))

theorem owned_step (own : Owned pages s) {act : Action}
    (step : Guarded (fun s _ => Bounded s) Step s act t) : Owned pages t := by
  obtain ⟨bounded, ready, done⟩ := step
  have after := wp_ok (owned_perform own bounded ready) done
  exact after

end Actions

theorem owned_powerOn (distinct : (pages.map Frame.pa).Nodup)
    (mem : Nat → Bytes) : Owned pages (powerOn pages mem) where
  distinct := distinct
  exact a := by
    simp [total, powerOn, freeCount, procHits, pipeHits, bootHits, optPages]
  zombies p dead := by simp [powerOn] at dead
  kernel d dir := by simp [powerOn] at dir
  pipes := by
    refine ⟨?_, ?_, ?_, ?_⟩
    · intro a
      have single := List.nodup_iff_count_le_one.mp distinct a
      simpa [powerOn, freeCount, pipeHits] using single
    · intro i typed
      simp [powerOn] at typed
    · intro i j typed
      simp [powerOn] at typed
    · intro q member
      simp [powerOn] at member

/-- The account holds in every state of a run whose processes stay below KERNBASE. -/
theorem owned_run (distinct : (pages.map Frame.pa).Nodup) (mem : Nat → Bytes) {acts : List Action}
    {m : Machine ld}
    (run : Run (Guarded (fun s _ => Bounded s) Step) (powerOn pages mem) acts m) : Owned pages m :=
  run.preserves (Owned pages) (fun _ _ _ own step => owned_step own step)
    (owned_powerOn distinct mem)

/-- Where a page can be. -/
inductive Kind where
  | free
  | kernelStack
  | pageDirectory
  | pageTable
  | userPage
  | pipe
  | bootStack
  | kernelDirectory
  | kernelTable
deriving DecidableEq

def kinds : Finset Kind :=
  {.free, .kernelStack, .pageDirectory, .pageTable, .userPage, .pipe, .bootStack,
    .kernelDirectory, .kernelTable}

theorem mem_kinds (kind : Kind) : kind ∈ kinds := by
  cases kind <;> decide

/-- A kind with its indices: a position in a list or a process number, a directory entry
and a page-table entry. Indices that a kind does not have are 0. -/
abbrev Place := (_ : Kind) × Nat × Nat × Nat

/-- How many values the indices of a kind take. -/
def bounds (m : Machine ld) : Kind → Nat × Nat × Nat
  | .free => (m.kmem.freelist.length, 1, 1)
  | .kernelStack => (nproc, 1, 1)
  | .pageDirectory => (nproc, 1, 1)
  | .pageTable => (nproc, npdEntries, 1)
  | .userPage => (nproc, 512, nptEntries)
  | .pipe => (m.pipes.length, 1, 1)
  | .bootStack => (m.boot.length, 1, 1)
  | .kernelDirectory => (1, 1, 1)
  | .kernelTable => (1, npdEntries, 1)

/-- The page directory of a process that is in use. -/
def dirOf (p : Proc ld) : Option (PgDir ld) := if p.state = .unused then none else p.pgdir

def stackOf (p : Proc ld) : Option (Frame ld) := if p.state = .unused then none else p.kstack

/-- The page an entry points to, if it is present. -/
def target (pte : Nat) : Option Nat := if present pte then some (pteAddr pte) else none

def tableAt (d : Option (PgDir ld)) (i : Nat) : Option Nat := d.bind fun d => target (d.pde i)

def userAt (d : Option (PgDir ld)) (i j : Nat) : Option Nat :=
  d.bind fun d => if present (d.pde i) then target (d.pgtab i j) else none

/-- The page at a place of a kind. -/
def pageAt (m : Machine ld) : Kind → Nat → Nat → Nat → Option Nat
  | .free, n, _, _ => m.kmem.freelist[n]?.map Frame.pa
  | .kernelStack, p, _, _ => (stackOf (m.proc p)).map Frame.pa
  | .pageDirectory, p, _, _ => (dirOf (m.proc p)).map fun d => d.page.pa
  | .pageTable, p, i, _ => tableAt (dirOf (m.proc p)) i
  | .userPage, p, i, j => userAt (dirOf (m.proc p)) i j
  | .pipe, n, _, _ => m.pipes[n]?.map fun q => q.page.pa
  | .bootStack, n, _, _ => m.boot[n]?.map Frame.pa
  | .kernelDirectory, _, _, _ => m.kpgdir.map fun d => d.page.pa
  | .kernelTable, _, i, _ => tableAt m.kpgdir i

def box (m : Machine ld) (kind : Kind) : Finset (Nat × Nat × Nat) :=
  range (bounds m kind).1 ×ˢ range (bounds m kind).2.1 ×ˢ range (bounds m kind).2.2

/-- Page `a` is at a place. -/
def Holds (m : Machine ld) (a : Nat) (place : Place) : Prop :=
  place.2 ∈ box m place.1 ∧ pageAt m place.1 place.2.1 place.2.2.1 place.2.2.2 = some a

instance (m : Machine ld) (a : Nat) : DecidablePred (Holds m a) := fun _ =>
  inferInstanceAs (Decidable (_ ∧ _))

/-- One where an optional page is `a`. -/
def hitOpt (a : Nat) (page : Option Nat) : Nat := if page = some a then 1 else 0

theorem hitOpt_frame (a : Nat) (f : Option (Frame ld)) : hitOpt a (f.map Frame.pa) = optHit a f := by
  cases f <;> simp [hitOpt, optHit, frameHit]

theorem hitOpt_target (a pte : Nat) : hitOpt a (target pte) = hit a pte := by
  unfold hitOpt target hit
  cases present pte <;> simp

/-- The account of a directory, place by place. -/
theorem optPages_eq (a : Nat) (d : Option (PgDir ld)) :
    optPages a d = hitOpt a (d.map fun d => d.page.pa) +
      ∑ i ∈ range npdEntries, hitOpt a (tableAt d i) +
      ∑ i ∈ range 512, ∑ j ∈ range nptEntries, hitOpt a (userAt d i j) := by
  cases d with
  | none => simp [optPages, tableAt, userAt, hitOpt]
  | some d =>
    have user : ∀ i, entryHits a d i = ∑ j ∈ range nptEntries, hitOpt a (userAt (some d) i j) := by
      intro i
      unfold entryHits
      by_cases table : present (d.pde i) = true
      · simp [userAt, table, hitOpt_target]
      · simp [userAt, table, hitOpt]
    have page : hitOpt a (some d.page.pa) = frameHit a d.page := by simp [frameHit, hitOpt]
    have tables : tableHits a d = ∑ i ∈ range npdEntries, hitOpt a (tableAt (some d) i) :=
      Finset.sum_congr rfl fun i _ => (hitOpt_target a (d.pde i)).symm
    have pages : userHits a d = ∑ i ∈ range 512, ∑ j ∈ range nptEntries, hitOpt a (userAt (some d) i j) :=
      Finset.sum_congr rfl fun i _ => user i
    rw [Option.map_some, page, ← tables, ← pages]
    rfl

theorem procHits_eq (a : Nat) (p : Proc ld) :
    procHits a p = optHit a (stackOf p) + optPages a (dirOf p) := by
  unfold procHits stackOf dirOf
  split <;> simp [optHit, optPages]

theorem count_frames (a : Nat) (l : List (Frame ld)) :
    (l.map Frame.pa).count a = ∑ i ∈ range l.length, hitOpt a (l[i]?.map Frame.pa) := by
  rw [count_eq_sum_range, List.length_map]
  simp [hitOpt]

theorem pipeHits_eq (a : Nat) (l : List (Pipe ld)) :
    pipeHits a l = ∑ i ∈ range l.length, hitOpt a (l[i]?.map fun q => q.page.pa) := by
  unfold pipeHits
  rw [count_eq_sum_range, List.length_map]
  simp [hitOpt]

/-- The places of one kind at which page `a` is. -/
def kindCount (a : Nat) (m : Machine ld) (kind : Kind) : Nat :=
  ∑ i ∈ range (bounds m kind).1, ∑ j ∈ range (bounds m kind).2.1, ∑ l ∈ range (bounds m kind).2.2,
    hitOpt a (pageAt m kind i j l)

theorem sum_holds (a : Nat) (m : Machine ld) :
    ∑ place ∈ kinds.sigma (box m), (if Holds m a place then 1 else 0) =
      ∑ kind ∈ kinds, kindCount a m kind := by
  rw [sum_sigma]
  apply sum_congr rfl
  intro kind _
  have inside : ∀ x ∈ box m kind, (if Holds m a ⟨kind, x⟩ then 1 else 0) =
      hitOpt a (pageAt m kind x.1 x.2.1 x.2.2) := by
    intro x member
    simp [Holds, member, hitOpt]
  rw [sum_congr rfl inside]
  unfold box kindCount
  rw [sum_product]
  apply sum_congr rfl
  intro i _
  rw [sum_product]

/-- The user half of the boot code's directory is empty. -/
theorem optPages_kernel (a : Nat) {d : Option (PgDir ld)} (none : ∀ d', d = some d' → NoUser d') :
    optPages a d = hitOpt a (d.map fun d => d.page.pa) +
      ∑ i ∈ range npdEntries, hitOpt a (tableAt d i) := by
  cases d with
  | none => simp [optPages, tableAt, hitOpt]
  | some d =>
    simp only [optPages, pagesOf, tableHits, userHits_noUser a (none d rfl), tableAt,
      Option.bind_some, hitOpt_target, Option.map_some]
    simp [frameHit, hitOpt]

theorem total_eq (a : Nat) {m : Machine ld} (none : ∀ d, m.kpgdir = some d → NoUser d) :
    total a m = ∑ kind ∈ kinds, kindCount a m kind := by
  have procs : ∑ p ∈ range nproc, procHits a (m.proc p) =
      kindCount a m .kernelStack + kindCount a m .pageDirectory + kindCount a m .pageTable +
        kindCount a m .userPage := by
    simp only [procHits_eq, ← hitOpt_frame, optPages_eq, sum_add_distrib, kindCount, bounds,
      sum_range_one, pageAt]
    omega
  have boots : bootHits a m = kindCount a m .bootStack + kindCount a m .kernelDirectory +
      kindCount a m .kernelTable := by
    simp only [bootHits, optPages_kernel a none, count_frames, kindCount, bounds, sum_range_one,
      pageAt]
    omega
  have free : freeCount a m.kmem = kindCount a m .free := by
    simp only [freeCount, count_frames, kindCount, bounds, sum_range_one, pageAt]
  have pipes : pipeHits a m.pipes = kindCount a m .pipe := by
    simp only [pipeHits_eq, kindCount, bounds, sum_range_one, pageAt]
  unfold total kinds
  rw [procs, boots, free, pipes]
  repeat rw [sum_insert (by decide)]
  rw [sum_singleton]
  omega

/-- In every state of a run whose processes stay below KERNBASE, each page of the allocator
is at exactly one place, nothing else is at any place, every pipe has an open end, and no
action that can follow touches a pipe whose page was freed. -/
theorem each_page_has_one_owner {pages : List (Frame ld)} (distinct : pages.Nodup)
    (mem : Nat → Bytes) {acts : List Action} {m : Machine ld}
    (run : Run (Guarded (fun s _ => Bounded s) Step) (powerOn pages mem) acts m) :
    (∀ f ∈ pages, ∃! place, Holds m f.pa place) ∧
    (∀ a place, Holds m a place → ∃ f ∈ pages, f.pa = a) ∧
    (∀ q ∈ m.pipes, q.readopen = true ∨ q.writeopen = true) ∧
    (Bounded m → ∀ act, enabled m act → perform act m ≠ .error .freedPipe) := by
  have addresses : (pages.map Frame.pa).Nodup :=
    distinct.map fun _ _ same => Frame.ext same
  have own := owned_run addresses mem run
  have places : ∀ a, ∑ place ∈ kinds.sigma (box m), (if Holds m a place then 1 else 0) =
      (pages.map Frame.pa).count a := by
    intro a
    rw [sum_holds, ← total_eq a own.kernel]
    exact own.exact a
  have inside : ∀ a place, Holds m a place → place ∈ kinds.sigma (box m) := fun a place holds =>
    mem_sigma.mpr ⟨mem_kinds _, holds.1⟩
  refine ⟨?_, ?_, own.pipes.openEnd, ?_⟩
  · intro f member
    apply existsUnique_of_sum_one _ (inside f.pa)
    rw [places]
    exact List.count_eq_one_of_mem addresses (List.mem_map_of_mem member)
  · intro a place holds
    have found : 0 < (pages.map Frame.pa).count a := by
      rw [← places a]
      apply sum_pos'
      · intro _ _
        exact Nat.zero_le _
      · exact ⟨place, inside a place holds, by simp [holds]⟩
    simpa using List.count_pos_iff.mp found
  · intro bounded act ready stopped
    exact wp_stopped (owned_perform own bounded ready) stopped rfl

/-- The account of a machine whose first process has a pipe and has grown. -/
theorem each_page_has_one_owner_first_process :
    ∃ m, Run (Guarded (fun s _ => Bounded s) Step) smallMachine
        (booting ++ [.pipe 0, .dup 0 1, .sbrk 0 8192]) m ∧
      ∀ f ∈ smallPages, ∃! place, Holds m f.pa place := by
  obtain ⟨m, run, -⟩ := UserPointers.small_process_calls
  exact ⟨m, run, (each_page_has_one_owner smallPages_nodup _ run).1⟩

end ColorXv6.Vm.Ownership
