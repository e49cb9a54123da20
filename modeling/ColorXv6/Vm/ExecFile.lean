import ColorXv6.Fs.InodeRefs
import ColorXv6.Vm.ExecArgs

/-!
The whole of exec.c, on the memory of the machine and on its file system at once. The loops of
`Exec` that load a program read through the inode layer here, inside the transaction `exec` opens.
-/
namespace ColorXv6.Vm.ExecFile
open Lib.LittleEndian Lib.Wp Lib.Holdings Param Mmu Kalloc PageDir Footprint Mapping Space Exec
open ExecLoad (Filled Abandoned Exclusive byteAt wp_extend wp_clearpteu userBit_kernelPte)
open CopyOut (Accessible Seen)
open Boot (smallLink smallPages)
open Process (Machine MachineM inKmem modifyProc progName)
open Fs.Inode (FsM readi ilock iunlockput)
open Fs.Directory (namei slash)
open Fs.Layout (putDinode zeroBlock inodeOff rootIno tFile)
open Fs.Frame (Users users keeps_beginOp keeps_ilock keeps_readi)
open Fs.InodeRefs (Balanced anyHalt balanced_seq balanced_keeps balanced_namei balanced_iunlockput taken)

variable {ld : Link}

/-- The machine and its file system, with the number of calls of `begin_op` and `end_op`. -/
structure Kernel (ld : Link) where
  machine : Machine ld
  fs : Fs.Inode.Fs
  begun : Nat
  ended : Nat

inductive Halt where
  | machine (halt : Process.Halt)
  | file (halt : Fs.Inode.Halt)

abbrev KernelM (ld : Link) (α : Type) := Prog (Kernel ld) Halt α

def inMachine {α : Type} (m : MachineM ld α) : KernelM ld α :=
  zoom Kernel.machine (fun s machine => { s with machine }) Halt.machine m

def inPages {α : Type} (m : Prog (Kmem ld) Stop α) : KernelM ld α := inMachine (inKmem m)

def inFs {α : Type} (m : FsM α) : KernelM ld α :=
  zoom Kernel.fs (fun s fs => { s with fs }) Halt.file m

def beginOp : KernelM ld Unit := do
  modify fun s => { s with begun := s.begun + 1 }
  inFs Fs.SysFile.beginOp

def endOp : KernelM ld Unit := modify fun s => { s with ended := s.ended + 1 }

/-- `readi` from the program's inode. -/
def readFile (ip : Nat) (_ : ReadCall) (off n : Nat) : KernelM ld (Int × Bytes) :=
  inFs (readi ip off n)

/-- The label `bad`, with what `pgdir` and `ip` hold there. -/
def bad (pgdir : Option (PgDir ld)) (ip : Option Nat) : KernelM ld Int := do
  match pgdir with
  | none => pure ()
  | some d => inPages (freevm (some d) true)
  match ip with
  | none => return -1
  | some ip =>
    inFs (iunlockput ip)
    endOp
    return -1

/-- The new image becomes the process's, and the old one goes. -/
def commit (p : Nat) (path : List UInt8) (image : Loaded ld) : KernelM ld Int := do
  let s ← get
  inMachine (modifyProc p fun proc => { proc with
    name := progName path, pgdir := some image.pgdir, sz := image.sz,
    tf := { proc.tf with eip := image.entry, esp := image.sp } })
  inPages (freevm (s.machine.proc p).pgdir true)
  return 0

/-- Guard page, stack and arguments, after the file was closed. -/
def finish (p : Nat) (path : List UInt8) (argv : List (List UInt8)) (elf : ElfHdr) (d : PgDir ld)
    (sz : Nat) : KernelM ld Int := do
  let (d, sz) ← inPages (allocuvm d (pgRoundUp sz) (word (pgRoundUp sz + 2 * pgSize)))
  if sz = 0 then
    bad (some d) none
  else
    let d ← inPages (clearpteu d (wordSub sz (2 * pgSize)))
    let (d, built) ← inPages (pushStack d sz elf.entry argv)
    match built with
    | none => bad (some d) none
    | some image => commit p path image

/-- From the ELF header on, with the inode locked. -/
def load (p : Nat) (path : List UInt8) (argv : List (List UInt8)) (ip : Nat) : KernelM ld Int := do
  let (count, bytes) ← readFile ip .header 0 elfHdrSize
  let elf := elfHdr bytes
  if count ≠ elfHdrSize then
    bad none (some ip)
  else if elf.magic ≠ elfMagic then
    bad none (some ip)
  else
    match ← inPages setupkvm with
    | none => bad none (some ip)
    | some d =>
      let (d, loaded) ← loadSegments inPages (readFile ip) d 0 elf.phoff 0 elf.phnum
      match loaded with
      | none => bad (some d) (some ip)
      | some sz =>
        inFs (iunlockput ip)
        endOp
        finish p path argv elf d sz

def exec (p : Nat) (path : List UInt8) (argv : List (List UInt8)) : KernelM ld Int := do
  beginOp
  match ← inFs (namei p path) with
  | none =>
    endOp
    return -1
  | some ip =>
    inFs (ilock ip)
    load p path argv ip

/-- Stores into user pages leave a page alone that is not part of the directory. -/
theorem stable_idle {d : PgDir ld} {a : Nat} (k : Kmem ld)
    (kernel : ∀ x, IsPage x → kernBase ≤ x → userBit (d.pteOf x) = false) (other : pagesOf a d = 0) :
    Stable d fun k' => k'.mem a = k.mem a := by
  intro k' x off n p small aligned there user same
  have low : x < kernBase := by
    by_contra high
    have clear := kernel x ⟨small, aligned⟩ (by omega)
    rw [user] at clear
    cases clear
  have apart : a ≠ pteAddr (d.pteOf x) := by
    rintro rfl
    have counted := hit_le_pagesOf d (pteAddr (d.pteOf x)) low
    simp [hit, there, other] at counted
  rw [storeBytes, wp_modify]
  exact (if_neg apart).trans same

/-- In the middle of `exec`, started in `s`: the pages taken so far are `pages`, the references
`held`, and `open_` transactions are open. -/
structure During (s : Kernel ld) (pages : Nat → Nat) (held : Nat → Int) (open_ : Nat)
    (t : Kernel ld) : Prop where
  machine : ∃ kmem, t.machine = { s.machine with kmem }
  count : ∀ a, freeCount a t.machine.kmem + pages a = freeCount a s.machine.kmem
  idle : ∀ a, freeCount a s.machine.kmem = 0 → t.machine.kmem.mem a = s.machine.kmem.mem a
  refs : Balanced (users s.fs) held t.fs
  ops : t.begun + s.ended = s.begun + t.ended + open_

/-- How the kernel stops is of no concern here. -/
def anyEnd (_ : Halt) : Prop := True

variable {d : PgDir ld} {sz : Nat}

section Run
variable {s t : Kernel ld} {pages : Nat → Nat} {held : Nat → Int} {open_ : Nat} {α : Type}

/-- An operation on memory that moves pages between the list and the new directory. -/
theorem During.onPages {m : Prog (Kmem ld) Stop α} {Q : α → Kmem ld → Prop} {T : α → Nat → Nat}
    (during : During s pages held open_ t) (count : ∀ a, wp m (fun r k' =>
      freeCount a k' + T r a = freeCount a t.machine.kmem + pages a) anyStop t.machine.kmem)
    (idle : ∀ a, freeCount a t.machine.kmem + pages a = 0 →
      wp m (fun _ k' => k'.mem a = t.machine.kmem.mem a) anyStop t.machine.kmem)
    (spec : wp m Q anyStop t.machine.kmem) :
    wp (inPages m) (fun r u => During s (T r) held open_ u ∧ Q r u.machine.kmem) anyEnd t := by
  have whole : wp m (fun r k' => (Q r k' ∧ ∀ a, freeCount a k' + T r a =
      freeCount a t.machine.kmem + pages a) ∧ ∀ a, freeCount a t.machine.kmem + pages a = 0 →
      k'.mem a = t.machine.kmem.mem a) anyStop t.machine.kmem := by
    refine wp_also (wp_also spec (wp_forall count)) (F := anyStop) (wp_forall fun a => ?_)
    by_cases free : freeCount a t.machine.kmem + pages a = 0
    · exact wp_mono (idle a free) fun _ _ same _ => same
    · exact wp_mono (wp_true m _ fun _ => True.intro) fun _ _ _ zero => absurd zero free
  unfold inPages inMachine inKmem
  rw [wp_zoom, wp_zoom]
  refine wp_mono (wp_error whole fun _ _ => True.intro) ?_
  rintro r k' ⟨⟨post, counts⟩, still⟩
  refine ⟨⟨?_, fun a => ?_, fun a free => ?_, during.refs, during.ops⟩, post⟩
  · obtain ⟨kmem, same⟩ := during.machine
    exact ⟨k', by rw [same]⟩
  · exact (counts a).trans (during.count a)
  · exact (still a ((during.count a).trans free)).trans (during.idle a free)

/-- An operation on the file system. -/
theorem During.onFile {m : FsM α} {H : α → Nat → Int} (during : During s pages held open_ t)
    (spec : wp m (fun r f => Balanced (users s.fs) (H r) f) anyHalt t.fs) :
    wp (inFs m) (fun r u => During s pages (H r) open_ u ∧ u.machine = t.machine) anyEnd t := by
  unfold inFs
  rw [wp_zoom]
  refine wp_mono (wp_error spec fun _ _ => True.intro) ?_
  intro r f refs
  exact ⟨{ during with refs }, rfl⟩

theorem During.endsOp (during : During s pages held (open_ + 1) t) :
    wp endOp (fun _ u => During s pages held open_ u ∧ u.machine = t.machine) anyEnd t := by
  refine (wp_modify ..).mpr ⟨{ during with ops := ?_ }, rfl⟩
  have ops := during.ops
  dsimp only
  omega

theorem inPages_pure (a : α) : (inPages (pure a) : KernelM ld α) = pure a := rfl

theorem wp_inPages_throw (e : Stop) (Q : α → Kernel ld → Prop) :
    wp (inPages (throw e)) Q anyEnd t := by
  unfold inPages inMachine inKmem
  rw [wp_zoom, wp_zoom, wp_throw]
  exact True.intro

/-- Reading the program's file leaves all counts as they are. -/
theorem During.read (during : During s pages held open_ t) (ip : Nat) (call : ReadCall) (off n : Nat) :
    wp (readFile ip call off n) (fun _ u => During s pages held open_ u) anyEnd t := by
  apply wp_mono (during.onFile (H := fun _ => held) (balanced_keeps (keeps_readi ip off n) during.refs))
  exact fun _ _ done => done.1

/-- The loop of `loaduvm` on pages that are mapped. -/
theorem during_loadFrom {addr filesz i : Nat} (ip segment offset fuel : Nat)
    (during : During s (fun a => pagesOf a d) held open_ t) (filled : Filled d sz)
    (aligned : addr % pgSize = 0) (step : i % pgSize = 0) (inside : addr + filesz ≤ sz) :
    wp (loadFrom inPages (readFile ip) d addr segment offset filesz i fuel)
      (fun _ u => During s (fun a => pagesOf a d) held open_ u) anyEnd t := by
  have user := filled.small
  induction fuel generalizing t i with
  | zero => exact wp_inPages_throw _ _
  | succ fuel ih =>
    rw [loadFrom]
    split
    · rename_i more
      have wordAddr : word (addr + i) = addr + i := by
        unfold word
        unfold kernBase at user
        omega
      have page : IsPage (addr + i) := by
        unfold kernBase at user
        unfold IsPage
        unfold pgSize at *
        omega
      have mapped := filled.there page (by omega)
      have table : present (d.pde (pdx (addr + i))) = true := by
        cases there : present (d.pde (pdx (addr + i))) with
        | true => rfl
        | false => simp [PgDir.pteOf, there] at mapped
      have entry : d.pgtab (pdx (addr + i)) (ptx (addr + i)) = d.pteOf (addr + i) := by
        simp [PgDir.pteOf, table]
      have next : word (i + pgSize) = i + pgSize := word_next (by omega)
      rw [wordAddr, walkpgdir_find, inPages_pure, pure_bind, if_pos table]
      dsimp only
      rw [entry]
      apply wp_seq (during.read ip _ _ _)
      rintro ⟨count, bytes⟩ u during
      apply wp_seq (during.onPages (T := fun _ a => pagesOf a d) (Q := fun _ _ => True) ?_ ?_ ?_)
      · rintro _ u ⟨during, -⟩
        split
        · exact wp_ret during
        · rw [next]
          exact ih during (by simp [step])
      · intro a
        apply wp_mono (storeBytes_count a u.machine.kmem _ _ _ _)
        intro _ k' same
        rw [same]
      · intro a none
        have apart : a ≠ pteAddr (d.pteOf (addr + i)) := by
          rintro rfl
          have counted := hit_le_pagesOf d (pteAddr (d.pteOf (addr + i))) (by omega : addr + i < kernBase)
          simp [hit, mapped] at counted
          omega
        rw [storeBytes, wp_modify]
        exact if_neg apart
      · exact wp_true _ _ fun _ => True.intro
    · exact wp_ret during

/-- No page is in two places while the directory is built. -/
theorem During.exclusive (during : During s (fun a => pagesOf a d) held open_ t)
    (once : ∀ a, freeCount a s.machine.kmem ≤ 1) : Exclusive d t.machine.kmem :=
  fun a => during.count a ▸ once a

/-- Growing the new address space, or giving up. -/
theorem During.extend (newsz : Nat) (during : During s (fun a => pagesOf a d) held open_ t)
    (once : ∀ a, freeCount a s.machine.kmem ≤ 1) (filled : Filled d sz) :
    wp (inPages (allocuvm d sz newsz)) (fun r u => During s (fun a => pagesOf a r.1) held open_ u ∧
      Abandoned r.1 ∧ (r.2 ≠ 0 → sz ≤ r.2 ∧ newsz ≤ r.2 ∧ (r.2 = newsz ∨ newsz < sz) ∧
        Filled r.1 r.2)) anyEnd t := by
  have count := fun a => wp_mono (allocuvm_count a d t.machine.kmem sz newsz) fun _ _ moved => moved.1
  refine during.onPages (Q := fun r _ => Abandoned r.1 ∧
    (r.2 ≠ 0 → sz ≤ r.2 ∧ newsz ≤ r.2 ∧ (r.2 = newsz ∨ newsz < sz) ∧ Filled r.1 r.2))
    count (fun a none => ?_) ?_
  · exact wp_mono (wp_allocuvm d newsz _ (fun _ _ => True.intro) fun _ => True.intro)
      fun _ _ done => done.2.1 a (by omega) (by omega)
  · refine wp_mono (wp_error (wp_extend newsz _ filled (during.exclusive once))
      fun _ no => no.elim) ?_
    rintro r k' ⟨abandoned, done⟩
    refine ⟨abandoned, fun nonzero => ?_⟩
    obtain ⟨grows, covers, size, filled', -⟩ := done nonzero
    exact ⟨grows, covers, size, filled'⟩

/-- The loop over the program headers. -/
theorem during_loadSegments (ip off i n : Nat)
    (during : During s (fun a => pagesOf a d) held open_ t)
    (once : ∀ a, freeCount a s.machine.kmem ≤ 1) (filled : Filled d sz) :
    wp (loadSegments inPages (readFile ip) d sz off i n) (fun r u =>
      (During s (fun a => pagesOf a r.1) held open_ u ∧ Abandoned r.1) ∧
      ∀ size, r.2 = some size → During s (fun a => pagesOf a r.1) held open_ u ∧ Filled r.1 size)
      anyEnd t := by
  refine wp_loadSegments_inv
    (I := fun d sz u => During s (fun a => pagesOf a d) held open_ u ∧ Filled d sz)
    (L := fun d u => During s (fun a => pagesOf a d) held open_ u ∧ Abandoned d)
    (fun now => ⟨now.1, now.2.abandoned⟩) ?_ ?_ ?_ off i n ⟨during, filled⟩
  · rintro d sz u call off n ⟨during, filled⟩
    exact wp_mono (during.read ip call off n) fun _ _ still => ⟨still, filled⟩
  · rintro d sz u newsz ⟨during, filled⟩
    apply wp_mono (during.extend newsz once filled)
    rintro r u' ⟨during, abandoned, grown⟩
    refine ⟨⟨during, abandoned⟩, fun nonzero => ?_⟩
    obtain ⟨-, covers, -, filled⟩ := grown nonzero
    exact ⟨covers, during, filled⟩
  · rintro d sz u addr filesz segment offset ⟨during, filled⟩ aligned inside
    exact wp_mono (during_loadFrom ip segment offset _ during filled aligned (Nat.zero_mod _) inside)
      fun _ _ still => ⟨still, filled⟩

/-- The file is closed and the transaction ends. -/
theorem During.close {ip : Nat} {f : KernelM ld α} {Q : α → Kernel ld → Prop}
    (during : During s pages (add nobody ip) 1 t)
    (rest : ∀ u, During s pages nobody 0 u → wp f Q anyEnd u) :
    wp (do inFs (iunlockput ip); endOp; f) Q anyEnd t := by
  apply wp_seq (during.onFile (balanced_iunlockput ip during.refs))
  rintro _ u ⟨during, -⟩
  rw [drop_add] at during
  apply wp_seq during.endsOp
  rintro _ u ⟨during, -⟩
  exact rest u during

/-- Leaving through `bad`, with or without a directory, before the file was closed or after. -/
theorem during_bad (pgdir : Option (PgDir ld)) (ip : Option Nat)
    (during : During s (fun a => optPages a pgdir) (taken nobody ip) (if ip.isSome then 1 else 0) t)
    (abandoned : ∀ d, pgdir = some d → Abandoned d) :
    wp (bad pgdir ip) (fun _ u => During s (fun _ => 0) nobody 0 u) anyEnd t := by
  have leave : ∀ u, During s (fun _ => 0) (taken nobody ip) (if ip.isSome then 1 else 0) u →
      wp (match ip with
        | none => return -1
        | some ip => do
          inFs (iunlockput ip)
          endOp
          return -1) (fun (_ : Int) u => During s (fun _ => 0) nobody 0 u) anyEnd u := by
    intro u during
    cases ip with
    | none => exact wp_ret during
    | some ip => exact During.close during fun u during => wp_ret during
  cases pgdir with
  | none =>
    exact leave t during
  | some d =>
    have gone := abandoned d rfl
    apply wp_seq (during.onPages (T := fun _ _ => 0) (Q := fun _ _ => True) ?_ ?_ ?_)
    · exact fun _ u done => leave u done.1
    · exact fun a => freevm_count a d _ nofun
    · intro a none
      refine wp_error (wp_mono (wp_freevm d true _ gone.tabled fun _ => gone.backed) ?_)
        fun _ no => no.elim
      intro _ k' same
      exact same a (by simp only [optPages] at none; omega)
    · exact wp_true _ _ fun _ => True.intro

theorem wp_commit (p : Nat) (path : List UInt8) (image : Loaded ld) :
    wp (commit p path image) (fun r _ => r = 0) anyEnd t := by
  unfold commit
  rw [wp_read]
  apply wp_seq (wp_true _ _ fun _ => True.intro)
  intro _ u _
  apply wp_seq (wp_true _ _ fun _ => True.intro)
  intro _ u _
  exact wp_ret rfl

/-- The part of `exec` after the file was closed. -/
theorem during_finish (p : Nat) (path : List UInt8) (argv : List (List UInt8)) (elf : ElfHdr)
    (during : During s (fun a => pagesOf a d) nobody 0 t)
    (once : ∀ a, freeCount a s.machine.kmem ≤ 1) (filled : Filled d sz) :
    wp (finish p path argv elf d sz) (fun r u => r = -1 → During s (fun _ => 0) nobody 0 u)
      anyEnd t := by
  have give : ∀ (d : PgDir ld) (u : Kernel ld), During s (fun a => pagesOf a d) nobody 0 u →
      Abandoned d → wp (bad (some d) none)
        (fun r u => r = -1 → During s (fun _ => 0) nobody 0 u) anyEnd u := by
    intro d u during abandoned
    refine wp_mono (during_bad (some d) none during ?_) fun _ _ done _ => done
    rintro _ ⟨⟩
    exact abandoned
  apply wp_seq (during.extend _ once filled.roundUp)
  rintro ⟨d1, sz1⟩ u1 ⟨during1, abandoned1, grown⟩
  dsimp only at during1 abandoned1 grown ⊢
  split
  · exact give d1 u1 during1 abandoned1
  · rename_i nonzero
    obtain ⟨-, -, size, filled1⟩ := grown nonzero
    have small1 := filled1.small
    have room : word (pgRoundUp sz + 2 * pgSize) = pgRoundUp sz + 2 * pgSize := by
      unfold word
      unfold kernBase pgSize at *
      omega
    have guardPlace : wordSub sz1 (2 * pgSize) = pgRoundUp sz := by
      unfold wordSub word
      unfold kernBase pgSize at *
      omega
    have guardPage : IsPage (pgRoundUp sz) := ⟨pgRoundUp_lt sz, pgRoundUp_aligned sz⟩
    have below : pgRoundUp sz < sz1 := by
      unfold pgSize at *
      omega
    have clears := wp_clearpteu u1.machine.kmem guardPage (filled1.there guardPage below)
    rw [guardPlace]
    apply wp_seq (during1.onPages (T := fun d a => pagesOf a d) (Q := fun d _ => Abandoned d) ?_ ?_ ?_)
    · rintro d2 u2 ⟨during2, abandoned2⟩
      apply wp_seq (during2.onPages (T := fun r a => pagesOf a r.1) (Q := fun r _ => r.1 = d2) ?_ ?_ ?_)
      · rintro ⟨d3, built⟩ u3 ⟨during3, same⟩
        subst same
        cases built with
        | none => exact give d3 u3 during3 abandoned2
        | some image =>
          refine wp_mono (wp_commit p path image) fun r _ zero fails => ?_
          rw [zero] at fails
          cases fails
      · intro a
        apply wp_mono (pushStack_keeps (stable_count a _ d2) sz1 elf.entry argv rfl)
        rintro ⟨d3, built⟩ k' ⟨count, rfl, -⟩
        rw [count]
      · intro a none
        refine wp_mono (pushStack_keeps (stable_idle _ (fun x page high => ?_) (by omega))
          sz1 elf.entry argv rfl) fun _ _ done => done.1
        rw [abandoned2.kernel x page high]
        exact userBit_kernelPte page
      · apply wp_mono (pushStack_keeps (stable_count 0 _ d2) sz1 elf.entry argv rfl)
        exact fun _ _ done => done.2.1
    · exact fun a => clearpteu_count a d1 _ (by omega)
    · intro a _
      refine wp_error (wp_mono clears ?_) fun _ no => no.elim
      rintro d2 k' ⟨rfl, -⟩
      rfl
    · refine wp_error (wp_mono clears ?_) fun _ no => no.elim
      rintro d2 k' ⟨-, tables, entries⟩
      exact abandoned1.clear (by omega) tables entries

theorem during_load {ip : Nat} (p : Nat) (path : List UInt8) (argv : List (List UInt8))
    (during : During s (fun _ => 0) (add nobody ip) 1 t)
    (once : ∀ a, freeCount a s.machine.kmem ≤ 1) :
    wp (load p path argv ip) (fun r u => r = -1 → During s (fun _ => 0) nobody 0 u) anyEnd t := by
  have give : ∀ (pgdir : Option (PgDir ld)) (u : Kernel ld),
      During s (fun a => optPages a pgdir) (add nobody ip) 1 u →
      (∀ d, pgdir = some d → Abandoned d) → wp (bad pgdir (some ip))
        (fun r u => r = -1 → During s (fun _ => 0) nobody 0 u) anyEnd u := fun pgdir u during abandoned =>
    wp_mono (during_bad pgdir (some ip) during abandoned) fun _ _ done _ => done
  apply wp_seq (during.read ip _ _ _)
  rintro ⟨count, bytes⟩ u during
  dsimp only
  split
  · exact give none u during nofun
  · split
    · exact give none u during nofun
    · apply wp_seq (during.onPages (T := fun r a => optPages a r)
        (Q := fun r _ => ∀ d, r = some d → KernelOnly d) ?_ ?_ ?_)
      · rintro r u ⟨during, built⟩
        cases r with
        | none => exact give none u during nofun
        | some d =>
          have only := built d rfl
          apply wp_seq (during_loadSegments ip _ 0 _ during once (.empty only))
          rintro ⟨d1, loaded⟩ u1 ⟨⟨during1, abandoned⟩, done⟩
          cases loaded with
          | none =>
            refine give (some d1) u1 during1 ?_
            rintro _ ⟨⟩
            exact abandoned
          | some sz =>
            exact During.close during1 fun u2 during2 =>
              during_finish p path argv _ during2 once (done sz rfl).2
      · intro a
        refine wp_error (wp_mono (wp_setupkvm u.machine.kmem) ?_) fun _ no => no.elim
        rintro r k' ⟨-, counts, -⟩
        exact counts a
      · intro a free
        refine wp_error (wp_mono (wp_setupkvm u.machine.kmem) ?_) fun _ no => no.elim
        rintro r k' ⟨same, -⟩
        exact same a free
      · refine wp_error (wp_mono (wp_setupkvm u.machine.kmem) ?_) fun _ no => no.elim
        rintro r k' ⟨-, -, built⟩ d found
        exact (built d found).2

/-- `exec` from its first line on. -/
theorem during_exec {p : Nat} (path : List UInt8) (argv : List (List UInt8)) (bound : p < nproc)
    (once : ∀ a, freeCount a s.machine.kmem ≤ 1) (refs : Balanced (users s.fs) nobody s.fs) :
    wp (exec p path argv) (fun r u => r = -1 → During s (fun _ => 0) nobody 0 u) anyEnd s := by
  have start : During s (fun _ => 0) nobody 1 { s with begun := s.begun + 1 } := by
    refine ⟨⟨_, rfl⟩, fun _ => rfl, fun _ _ => rfl, refs, ?_⟩
    dsimp only
    omega
  unfold exec beginOp
  rw [wp_bind, wp_bind, wp_modify]
  apply wp_mono (start.onFile (H := fun _ => nobody) (balanced_keeps keeps_beginOp refs))
  rintro _ t ⟨during, -⟩
  apply wp_seq (during.onFile (balanced_namei path bound during.refs fun _ => le_refl 0))
  rintro r t ⟨during, -⟩
  cases r with
  | none =>
    apply wp_seq during.endsOp
    rintro _ t ⟨during, -⟩
    exact wp_ret fun _ => during
  | some ip =>
    apply wp_seq (during.onFile (H := fun _ => add nobody ip) (balanced_keeps (keeps_ilock ip) during.refs))
    rintro _ t ⟨during, -⟩
    exact during_load p path argv during once

end Run

/-- A failed `exec` leaves the process, its memory, the free list, the reference counts and the
balance of transactions as they were. -/
theorem failed_exec_changes_nothing {s t : Kernel ld} {p : Nat} (path : List UInt8)
    (argv : List (List UInt8)) (bound : p < nproc)
    (owned : ∀ a, freeCount a s.machine.kmem + optPages a (s.machine.proc p).pgdir ≤ 1)
    (refs : Balanced (users s.fs) nobody s.fs) (failed : exec p path argv s = .ok (-1, t)) :
    t.machine.proc p = s.machine.proc p ∧
    (∀ d, (s.machine.proc p).pgdir = some d → ∀ u, Seen d u →
      byteAt d t.machine.kmem u = byteAt d s.machine.kmem u) ∧
    t.machine.kmem.freelist.Perm s.machine.kmem.freelist ∧
    (∀ i, (t.fs.inode i).ref = (s.fs.inode i).ref) ∧
    t.begun + s.ended = s.begun + t.ended := by
  have once : ∀ a, freeCount a s.machine.kmem ≤ 1 := fun a =>
    Nat.le_trans (Nat.le_add_right _ _) (owned a)
  have during := wp_ok (during_exec path argv bound once refs) failed rfl
  obtain ⟨kmem, machine⟩ := during.machine
  refine ⟨by rw [machine], fun d dir u seen => ?_, ?_, fun i => ?_, during.ops⟩
  · have down := pgRoundDown_le u
    have counted := hit_le_pagesOf d (pteAddr (d.pteOf (pgRoundDown u))) (Nat.lt_of_le_of_lt down seen.1)
    have bound := owned (pteAddr (d.pteOf (pgRoundDown u)))
    simp only [hit, seen.2, and_self, if_true] at counted
    rw [dir, optPages] at bound
    unfold byteAt
    rw [during.idle _ (by omega)]
  · rw [List.perm_iff_count]
    intro f
    rw [← ForkCopy.freeCount_frame, ← ForkCopy.freeCount_frame]
    exact during.count f.pa
  · rw [during.refs.exact i, refs.exact i]

/-- A disk on which inode 1 is a file of the length of an ELF header, with its magic number. -/
def programDisk : Logging.Commit.Disk := fun b k =>
  if b = 0 then putDinode zeroBlock (inodeOff rootIno)
    { type := tFile, nlink := 1, size := 52, addrs := fun j => if j.val = 0 then 5 else 0 } k
  else if b = 5 then [0x7f, 0x45, 0x4c, 0x46].getD k 0 else 0

/-- A machine without processes, with one free page. -/
def programKernel : Kernel smallLink where
  machine := Vm.Kernel.powerOn (smallPages.take 1) fun _ _ => 0
  fs := Fs.SysFile.mount programDisk
  begun := 0
  ended := 0

/-- The page becomes a page directory, and there is none for a page table. -/
theorem failed_exec_changes_nothing_program : ∃ t,
    exec 0 [slash] [] programKernel = .ok (-1, t) ∧
      t.machine.kmem.freelist.Perm (smallPages.take 1) ∧ t.begun = 1 ∧ t.ended = 1 := by
  have outcome : (match exec 0 [slash] [] programKernel with
      | .ok (r, t) => decide (r = -1 ∧ t.begun = 1)
      | .error _ => false) = true := by decide +kernel
  have owned : ∀ a, freeCount a programKernel.machine.kmem +
      optPages a (programKernel.machine.proc 0).pgdir ≤ 1 :=
    List.nodup_iff_count_le_one.mp
      (Boot.smallPages_pa.sublist ((List.take_sublist 1 smallPages).map Frame.pa))
  cases result : exec 0 [slash] [] programKernel with
  | error e =>
    rw [result] at outcome
    cases outcome
  | ok r =>
    obtain ⟨r, t⟩ := r
    rw [result] at outcome
    obtain ⟨rfl, begun⟩ := of_decide_eq_true outcome
    obtain ⟨-, -, list, -, ops⟩ := failed_exec_changes_nothing [slash] [] (by decide) owned
      (Fs.InodeRefs.inv_mount _).bal result
    refine ⟨t, rfl, list, begun, ?_⟩
    have none : programKernel.ended = 0 ∧ programKernel.begun = 0 := ⟨rfl, rfl⟩
    omega

end ColorXv6.Vm.ExecFile
