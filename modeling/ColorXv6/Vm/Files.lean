import ColorXv6.Vm.CallWalk

/-!
What the operations on open files do to memory. They leave the address spaces
alone and move pages only between the free list and the pipes, and a pipe they
use is never one whose page was freed.
-/
namespace ColorXv6.Vm.Files
open Lib.Slots Lib.Wp Param Mmu Kalloc PageDir Footprint Process CallWalk

variable {ld : Link}

/-- The only stop that is excluded below. -/
def notFreed (h : Halt) : Prop := h ≠ .freedPipe

/-- What a process table entry says about memory. -/
def memView (p : Proc ld) : Nat × Option (PgDir ld) × Option (Frame ld) × Bool × Bool :=
  (p.sz, p.pgdir, p.kstack, p.state = .unused, p.state = .zombie)

/-- Occurrences of page `a` as the buffer of a pipe. -/
def pipeHits (a : Nat) (pipes : List (Pipe ld)) : Nat := (pipes.map fun q => q.page.pa).count a

/-- Address spaces are as they were, and pages have moved only between the list and pipes. -/
structure FileOp (s t : Machine ld) : Prop where
  view : ∀ p, memView (t.proc p) = memView (s.proc p)
  kpgdir : t.kpgdir = s.kpgdir
  boot : t.boot = s.boot
  counts : ∀ a, freeCount a t.kmem + pipeHits a t.pipes = freeCount a s.kmem + pipeHits a s.pipes

theorem FileOp.refl (s : Machine ld) : FileOp s s := ⟨fun _ => rfl, rfl, rfl, fun _ => rfl⟩

variable {s : Machine ld}

theorem FileOp.trans {t u : Machine ld} (first : FileOp s t) (second : FileOp t u) :
    FileOp s u where
  view p := (second.view p).trans (first.view p)
  kpgdir := second.kpgdir.trans first.kpgdir
  boot := second.boot.trans first.boot
  counts a := (second.counts a).trans (first.counts a)

/-- The end of the pipe a file is for. -/
def endOpen (q : Pipe ld) (writable : Bool) : Bool := if writable then q.writeopen else q.readopen

/-- Every file of type FD_PIPE is the only one for its end of a pipe that is still there,
with that end open, and no page is in two places. -/
structure PipeInv (s : Machine ld) : Prop where
  exclusive : ∀ a, freeCount a s.kmem + pipeHits a s.pipes ≤ 1
  attached : ∀ i, (s.file i).type = .pipe →
    ∃ q ∈ s.pipes, q.page.pa = (s.file i).pipe ∧ endOpen q (s.file i).writable = true
  single : ∀ i j, (s.file i).type = .pipe → (s.file j).type = .pipe →
    (s.file i).pipe = (s.file j).pipe → (s.file i).writable = (s.file j).writable → i = j
  openEnd : ∀ q ∈ s.pipes, q.readopen = true ∨ q.writeopen = true

/-- What every file operation guarantees. -/
def Safe (s t : Machine ld) : Prop := FileOp s t ∧ PipeInv t

theorem Safe.trans {t u : Machine ld} (first : Safe s t) (second : Safe t u) : Safe s u :=
  ⟨first.1.trans second.1, second.2⟩

/-- No two pipes share a page. -/
theorem PipeInv.unique (inv : PipeInv s) {q r : Pipe ld} (left : q ∈ s.pipes) (right : r ∈ s.pipes)
    (same : q.page.pa = r.page.pa) : q = r := by
  have nodup : (s.pipes.map fun q => q.page.pa).Nodup := by
    rw [List.nodup_iff_count_le_one]
    intro a
    have once := inv.exclusive a
    unfold pipeHits at once
    omega
  exact List.inj_on_of_nodup_map nodup left right same

/-- Rule for a memory operation inside an action, whatever stops it. -/
theorem wp_inKmem {α : Type} {m : Prog (Kmem ld) Stop α} {Q : α → Machine ld → Prop}
    (spec : wp m (fun r k => Q r { s with kmem := k }) anyStop s.kmem) :
    wp (inKmem m) Q notFreed s :=
  wp_inKmem_of (wp_error spec fun e _ => by simp [notFreed])

/-- Changing fields of a process that say nothing about memory. -/
theorem safe_modifyProc (inv : PipeInv s) (p : Nat) {f : Proc ld → Proc ld}
    (same : memView (f (s.proc p)) = memView (s.proc p)) :
    wp (modifyProc p f) (fun _ t => Safe s t) notFreed s := by
  apply wp_modifyProc
  refine ⟨⟨?_, rfl, rfl, fun _ => rfl⟩, { inv with }⟩
  intro q
  dsimp only
  split
  · rename_i here
    rw [here]
    exact same
  · rfl

/-- Changing the reference count of a file, or making it something other than a pipe. -/
theorem safe_modifyFile (inv : PipeInv s) (i : Nat) {f : File → File}
    (same : ∀ file, ((f file).type = .pipe →
      file.type = .pipe ∧ (f file).pipe = file.pipe ∧ (f file).writable = file.writable)) :
    wp (modifyFile i f) (fun _ t => Safe s t) notFreed s := by
  have old : ∀ j, ((if j = i then f (s.file j) else s.file j).type = .pipe) →
      (s.file j).type = .pipe ∧ (if j = i then f (s.file j) else s.file j).pipe = (s.file j).pipe ∧
        (if j = i then f (s.file j) else s.file j).writable = (s.file j).writable := by
    intro j
    split
    · exact same (s.file j)
    · intro typed
      exact ⟨typed, rfl, rfl⟩
  apply wp_modifyFile
  refine ⟨⟨fun _ => rfl, rfl, rfl, fun _ => rfl⟩, ⟨inv.exclusive, ?_, ?_, inv.openEnd⟩⟩
  · intro j typed
    obtain ⟨type, pipe, writable⟩ := old j typed
    rw [pipe, writable]
    exact inv.attached j type
  · intro j k typedj typedk pipes writables
    obtain ⟨typej, pipej, writablej⟩ := old j typedj
    obtain ⟨typek, pipek, writablek⟩ := old k typedk
    rw [pipej, pipek] at pipes
    rw [writablej, writablek] at writables
    exact inv.single j k typej typek pipes writables

/-- Making a file the one for an open end of a pipe. -/
theorem safe_attach (inv : PipeInv s) (i pa : Nat) (readable writable : Bool)
    {q : Pipe ld} (member : q ∈ s.pipes) (page : q.page.pa = pa)
    (isOpen : endOpen q writable = true)
    (fresh : ∀ j ≠ i, (s.file j).type = .pipe → (s.file j).pipe = pa →
      (s.file j).writable ≠ writable) :
    wp (modifyFile i fun f => { f with type := .pipe, readable, writable, pipe := pa })
      (fun _ t => Safe s t) notFreed s := by
  apply wp_modifyFile
  refine ⟨⟨fun _ => rfl, rfl, rfl, fun _ => rfl⟩, ⟨inv.exclusive, ?_, ?_, inv.openEnd⟩⟩
  · intro j typed
    by_cases same : j = i
    · simp only [same, if_true] at typed ⊢
      exact ⟨q, member, page, isOpen⟩
    · simp only [same, if_false] at typed ⊢
      exact inv.attached j typed
  · intro j k typedj typedk pipes writables
    by_cases samej : j = i <;> by_cases samek : k = i
    · rw [samej, samek]
    · simp only [samej, samek, if_true, if_false] at typedk pipes writables
      exact absurd writables.symm (fresh k samek typedk pipes.symm)
    · simp only [samej, samek, if_true, if_false] at typedj pipes writables
      exact absurd writables (fresh j samej typedj pipes)
    · simp only [samej, samek, if_false] at typedj typedk pipes writables
      exact inv.single j k typedj typedk pipes writables

theorem endOpen_close (q : Pipe ld) (writable : Bool) :
    endOpen (q.close writable) (!writable) = endOpen q (!writable) := by
  cases writable <;> rfl

theorem close_page (q : Pipe ld) (writable : Bool) : (q.close writable).page = q.page := by
  cases writable <;> rfl

/-- Erasing a pipe takes its page out of the account. -/
theorem pipeHits_erase (a : Nat) {pipes : List (Pipe ld)} {q : Pipe ld} {pa : Nat}
    (member : q ∈ pipes) (page : q.page.pa = pa) :
    pipeHits a (pipes.eraseP fun r => r.page.pa = pa) + (if pa = a then 1 else 0) =
      pipeHits a pipes := by
  obtain ⟨r, before, after, -, here, whole, erased⟩ :=
    List.exists_of_eraseP (p := fun r : Pipe ld => decide (r.page.pa = pa)) member (by simp [page])
  have rpage : r.page.pa = pa := by simpa using here
  unfold pipeHits
  rw [erased, whole]
  simp only [List.map_append, List.map_cons, List.count_append, List.count_cons, rpage, beq_iff_eq]
  omega

section Calls
variable (inv : PipeInv s)
include inv

/-- Closing an end for which no file is left. -/
theorem safe_pipeclose {pa : Nat} {writable : Bool}
    (alive : ∃ q ∈ s.pipes, q.page.pa = pa)
    (last : ∀ j, (s.file j).type = .pipe → (s.file j).pipe = pa →
      (s.file j).writable = !writable) :
    wp (pipeclose pa writable) (fun _ t => Safe s t) notFreed s := by
  unfold pipeclose
  rw [wp_read]
  cases found : s.pipes.find? (fun q => q.page.pa = pa) with
  | none =>
    obtain ⟨q, member, page⟩ := alive
    exact absurd page (by simpa using List.find?_eq_none.mp found q member)
  | some q =>
    have member := List.mem_of_find?_eq_some found
    have page : q.page.pa = pa := by simpa using List.find?_some found
    have other : ∀ j, (s.file j).type = .pipe → (s.file j).pipe = pa →
        endOpen (q.close writable) (s.file j).writable = true := by
      intro j typed same
      obtain ⟨r, inside, rpage, ropen⟩ := inv.attached j typed
      have unique := inv.unique inside member (by rw [rpage, same, page])
      rw [last j typed same, endOpen_close, ← unique, ← last j typed same]
      exact ropen
    dsimp only
    split
    · rename_i shut
      -- both ends are closed, so no file is left for this pipe
      have gone : ∀ j, (s.file j).type = .pipe → (s.file j).pipe ≠ pa := by
        intro j typed same
        have isOpen := other j typed same
        unfold endOpen at isOpen
        split at isOpen <;> simp_all
      rw [wp_bind, wp_set]
      apply wp_inKmem
      have bounded : pa < 2 ^ 32 := page ▸ q.page.pa_lt
      apply wp_mono (wp_forall fun a => kfree_count a s.kmem bounded)
      intro _ k freed
      have erased := fun a => pipeHits_erase a member page
      refine ⟨⟨fun _ => rfl, rfl, rfl, ?_⟩, ⟨?_, ?_, inv.single, ?_⟩⟩
      · intro a
        have one := freed a
        have two := erased a
        dsimp only
        omega
      · intro a
        have one := freed a
        have two := erased a
        have three := inv.exclusive a
        dsimp only
        omega
      · intro j typed
        obtain ⟨r, inside, rpage, ropen⟩ := inv.attached j typed
        refine ⟨r, ?_, rpage, ropen⟩
        apply (List.mem_eraseP_of_neg _).mpr inside
        simpa [rpage] using gone j typed
      · intro r inside
        exact inv.openEnd r (List.mem_of_mem_eraseP inside)
    · rename_i isOpen
      have same : ∀ a, pipeHits a (s.pipes.map fun r : Pipe ld =>
          if r.page.pa = pa then q.close writable else r) = pipeHits a s.pipes := by
        intro a
        unfold pipeHits
        rw [List.map_map]
        congr 1
        apply List.map_congr_left
        intro r _
        by_cases here : r.page.pa = pa <;> simp [here, close_page, page]
      rw [wp_set]
      refine ⟨⟨fun _ => rfl, rfl, rfl, ?_⟩, ⟨?_, ?_, inv.single, ?_⟩⟩
      · intro a
        rw [same]
      · intro a
        rw [same]
        exact inv.exclusive a
      · intro j typed
        by_cases here : (s.file j).pipe = pa
        · refine ⟨q.close writable, ?_, ?_, other j typed here⟩
          · exact List.mem_map.mpr ⟨q, member, by simp [page]⟩
          · rw [close_page, page]
            exact here.symm
        · obtain ⟨r, inside, rpage, ropen⟩ := inv.attached j typed
          refine ⟨r, List.mem_map.mpr ⟨r, inside, ?_⟩, rpage, ropen⟩
          simp [rpage, here]
      · intro r inside
        obtain ⟨r', member', rfl⟩ := List.mem_map.mp inside
        split
        · simp only [Bool.and_eq_true, Bool.not_eq_true'] at isOpen
          grind
        · exact inv.openEnd r' member'

theorem safe_fileclose (i : Nat) :
    wp (fileclose i) (fun _ t => Safe s t) notFreed s := by
  unfold fileclose
  rw [wp_read]
  dsimp only
  split
  · exact wp_fail (by simp [notFreed])
  · split
    · exact safe_modifyFile inv i fun file typed => ⟨typed, rfl, rfl⟩
    · rw [wp_bind]
      apply wp_modifyFile
      have dropped : Safe s { s with
          file := fun j => if j = i then { s.file j with ref := 0, type := .none } else s.file j } := by
        have done := safe_modifyFile inv i (f := fun f => { f with ref := 0, type := .none })
          fun file typed => by cases typed
        exact (wp_modify ..).mp done
      split
      · rename_i typed
        obtain ⟨q, member, page, -⟩ := inv.attached i typed
        apply wp_mono (safe_pipeclose dropped.2 ⟨q, member, page⟩ ?_)
        · intro _ t closed
          exact dropped.trans closed
        · -- another file for the same pipe is the one for its other end
          intro j typedj same
          by_cases here : j = i
          · simp [here] at typedj
          · simp only [here, if_false] at typedj same ⊢
            have different := fun writables => here (inv.single j i typedj typed same writables)
            revert different
            cases (s.file j).writable <;> cases (s.file i).writable <;> simp
      · exact wp_ret dropped

theorem safe_filealloc :
    wp filealloc (fun r t => Safe s t ∧ t.kmem = s.kmem ∧ t.pipes = s.pipes ∧
      ∀ i, r = some i → (s.file i).ref = 0 ∧ (t.file i).ref = 1) notFreed s := by
  unfold filealloc
  rw [wp_read]
  cases found : firstSlot nfile fun i => (s.file i).ref = 0 with
  | none => exact wp_ret ⟨⟨.refl s, inv⟩, rfl, rfl, by simp⟩
  | some i =>
    have free : (s.file i).ref = 0 := by simpa using (firstSlot_some found).2
    have taken := safe_modifyFile inv i (f := fun f => { f with ref := 1 })
      fun file typed => ⟨typed, rfl, rfl⟩
    rw [wp_bind]
    apply wp_modifyFile
    refine wp_ret ⟨(wp_modify ..).mp taken, rfl, rfl, ?_⟩
    rintro j ⟨⟩
    exact ⟨free, by simp⟩

theorem safe_filedup (i : Nat) :
    wp (filedup i) (fun _ t => Safe s t) notFreed s := by
  unfold filedup
  rw [wp_read]
  split
  · exact wp_fail (by simp [notFreed])
  · exact safe_modifyFile inv i fun file typed => ⟨typed, rfl, rfl⟩

/-- A page taken from the list becomes a pipe with both ends open. -/
theorem safe_newPipe {page : Frame ld} {rest : List (Frame ld)}
    (list : s.kmem.freelist = page :: rest) :
    Safe s { s with
      kmem := { s.kmem with freelist := rest }, pipes := ⟨page, true, true⟩ :: s.pipes } := by
  have counts : ∀ a, freeCount a { s.kmem with freelist := rest } +
      pipeHits a (⟨page, true, true⟩ :: s.pipes) = freeCount a s.kmem + pipeHits a s.pipes := by
    intro a
    simp only [freeCount, pipeHits, list, List.map_cons, List.count_cons]
    omega
  refine ⟨⟨fun _ => rfl, rfl, rfl, counts⟩, ⟨?_, ?_, inv.single, ?_⟩⟩
  · intro a
    rw [counts a]
    exact inv.exclusive a
  · intro i typed
    obtain ⟨q, member, same, isOpen⟩ := inv.attached i typed
    exact ⟨q, List.mem_cons_of_mem _ member, same, isOpen⟩
  · intro q member
    rcases List.mem_cons.mp member with rfl | member
    · exact Or.inl rfl
    · exact inv.openEnd q member

/-- No file refers to a page that is on the free list. -/
theorem PipeInv.fresh {page : Frame ld} {rest : List (Frame ld)}
    (list : s.kmem.freelist = page :: rest) (i : Nat) (typed : (s.file i).type = .pipe) :
    (s.file i).pipe ≠ page.pa := by
  intro same
  obtain ⟨q, member, qpage, -⟩ := inv.attached i typed
  have once := inv.exclusive page.pa
  have onList : 1 ≤ freeCount page.pa s.kmem := by
    simp [freeCount, list]
  have inPipe : 1 ≤ pipeHits page.pa s.pipes :=
    List.count_pos_iff.mpr (List.mem_map.mpr ⟨q, member, by rw [qpage, same]⟩)
  omega

theorem safe_pipealloc :
    wp pipealloc (fun _ t => Safe s t) notFreed s := by
  apply wp_seq (safe_filealloc inv)
  rintro r1 s1 ⟨safe1, -, -, taken1⟩
  cases r1 with
  | none => exact wp_ret safe1
  | some f0 =>
    apply wp_seq (safe_filealloc safe1.2)
    rintro r2 s2 ⟨safe2, -, -, taken2⟩
    have safe := safe1.trans safe2
    cases r2 with
    | none =>
      apply wp_seq (safe_fileclose safe2.2 f0)
      intro _ t closed
      exact wp_ret (safe.trans closed)
    | some f1 =>
      rw [wp_bind]
      apply wp_inKmem
      apply wp_kalloc
      · intro _
        apply wp_seq (safe_fileclose safe2.2 f0)
        intro _ t closed
        apply wp_seq (safe_fileclose closed.2 f1)
        intro _ u closed2
        exact wp_ret ((safe.trans closed).trans closed2)
      · intro page rest list
        have added := safe_newPipe safe2.2 list
        have reading := (wp_modify ..).mp (safe_attach added.2 f0 page.pa true false
          List.mem_cons_self rfl rfl fun j _ typed same =>
            absurd same (safe2.2.fresh list j typed))
        have writing := (wp_modify ..).mp (safe_attach reading.2 f1 page.pa false true
          List.mem_cons_self rfl rfl (by
            intro j _ typed same
            by_cases here : j = f0
            · simp [here]
            · simp only [here, if_false] at typed same
              exact absurd same (safe2.2.fresh list j typed)))
        rw [wp_bind, wp_modify, wp_bind]
        apply wp_modifyFile
        rw [wp_bind]
        apply wp_modifyFile
        exact wp_ret (safe.trans (added.trans (reading.trans writing)))

/-- A change to every process that says nothing about memory. -/
theorem safe_procs {proc : Nat → Proc ld}
    (same : ∀ q, memView (proc q) = memView (s.proc q)) : Safe s { s with proc } :=
  ⟨⟨same, rfl, rfl, fun _ => rfl⟩, { inv with }⟩

end Calls

theorem memView_quiet {p q : Proc ld} (same : quietView p = quietView q) : memView p = memView q := by
  simp only [quietView, Prod.mk.injEq] at same
  obtain ⟨sz, dir, stack, -, unused, zombie⟩ := same
  simp only [memView, sz, dir, stack, unused, zombie]

/-- All calls on files are safe. -/
theorem safeWalk : FileWalk (PipeInv : Machine ld → Prop) FileOp notFreed where
  refl := FileOp.refl
  trans := FileOp.trans
  quiet inv same := safe_procs inv fun q => memView_quiet (same q)
  setOfile p _ _ _ inv := safe_modifyProc inv p rfl
  opened i _ _ _ inv := safe_modifyFile inv i fun _ typed => by cases typed
  filealloc _ inv := wp_mono (safe_filealloc inv) fun _ _ safe => safe.1
  filedup i _ inv := safe_filedup inv i
  fileclose i _ inv := safe_fileclose inv i
  pipealloc _ inv := safe_pipealloc inv
  edge := by simp [notFreed]

end ColorXv6.Vm.Files
