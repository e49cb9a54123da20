import ColorXv6.Fs.SysFile
import ColorXv6.Fs.Truncate

/-!
`sys_dup2` on the words of struct proc from `ofile` on. The array has NOFILE entries and
the pointer to the working directory comes next, so a descriptor NOFILE names the inode of
the working directory as if it were a file.
-/
namespace ColorXv6.Fs.Dup2
open Function Lib.Wp Param Descriptors
open Inode (Fs Halt iput)
open SysFile (beginOp)
open Store CacheOps Truncate

inductive FdType where
  | none
  | pipe
  | inode
deriving DecidableEq, Repr

/-- struct file. -/
structure File where
  type : FdType := .none
  ref : Int := 0
  readable : Bool := false
  writable : Bool := false
  pipe : Nat := 0
  ip : Nat := 0
  off : Nat := 0

/-- The ends of a pipe that are open. -/
structure Pipe where
  readopen : Bool
  writeopen : Bool

/-- What a word of struct proc points to. -/
inductive Pointer where
  | file (i : Nat)
  | inode (ip : Nat)
deriving DecidableEq, Repr

structure Kernel where
  fs : Fs
  file : Nat → File
  /-- A pipe whose page was freed is not there. -/
  pipe : Nat → Option Pipe
  /-- `ofile[0]` to `ofile[NOFILE - 1]` of a process, and then `cwd`. -/
  word : Nat → Nat → Option Pointer

/-- Where a call can stop without returning. -/
inductive Stop where
  | fs (halt : Halt)
  | filedup
  | fileclose
  /-- A pointer is followed that is none. -/
  | wildPointer

abbrev KernelM (α : Type) := Prog Kernel Stop α

/-- The count at offset 4: `ref` of a struct file, `inum` of a struct inode. -/
def refOf (s : Kernel) : Pointer → Int
  | .file i => (s.file i).ref
  | .inode ip => (s.fs.inode ip).inum

def setRef (f : Pointer) (ref : Int) : KernelM Unit :=
  modify fun s => match f with
    | .file i => { s with file := update s.file i { s.file i with ref } }
    | .inode ip => { s with fs := setInode s.fs ip { s.fs.inode ip with inum := ref.toNat } }

def setWord (p fd : Nat) (f : Option Pointer) : KernelM Unit :=
  modify fun s => { s with word := update s.word p (update (s.word p) fd f) }

def filedup (f : Pointer) : KernelM Unit := do
  let s ← get
  if refOf s f < 1 then throw .filedup else setRef f (refOf s f + 1)

def Pipe.close (q : Pipe) (writable : Bool) : Pipe :=
  if writable then { q with writeopen := false } else { q with readopen := false }

def Pipe.remains (q : Pipe) : Option Pipe := if q.readopen || q.writeopen then some q else none

/-- A pipe with both ends closed is freed. -/
def pipeclose (p : Nat) (writable : Bool) : KernelM Unit := do
  let s ← get
  match s.pipe p with
  | none => throw .wildPointer
  | some q => set { s with pipe := update s.pipe p (q.close writable).remains }

/-- What `fileclose` does with what the file was for. -/
def release (ff : File) : KernelM Unit :=
  match ff.type with
  | .none => return ()
  | .pipe => pipeclose ff.pipe ff.writable
  | .inode => zoom Kernel.fs (fun s fs => { s with fs }) Stop.fs do
      beginOp
      iput ff.ip

/-- In place of a file an inode has its device number as the type, which is that of a pipe,
and the word of its lock as the pipe. -/
def fileclose (f : Pointer) : KernelM Unit := do
  let s ← get
  if refOf s f < 1 then
    throw .fileclose
  else if refOf s f - 1 > 0 then
    setRef f (refOf s f - 1)
  else
    match f with
    | .inode _ => throw .wildPointer
    | .file i =>
      modify fun s => { s with file := update s.file i { s.file i with ref := 0, type := .none } }
      release (s.file i)

def fileOps : FileOps Kernel Stop Pointer where
  ofile p fd := do
    let s ← get
    return s.word p fd
  setOfile := setWord
  filedup := filedup
  fileclose := fileclose

def sysDup2 (p : Nat) (oldfd newfd : Int) : KernelM Int := fileOps.sysDup2 p oldfd newfd

/-! ### What the call is for -/

/-- What the file was for has been given up. -/
def Released (s t : Kernel) (ff : File) : Prop :=
  match ff.type with
  | .none => t.fs = s.fs ∧ t.pipe = s.pipe
  | .pipe => t.fs = s.fs ∧ ∃ q, s.pipe ff.pipe = some q ∧
      t.pipe = update s.pipe ff.pipe (q.close ff.writable).remains
  | .inode => t.pipe = s.pipe ∧ Put { s.fs with logged := [] } t.fs ff.ip

/-- Descriptor `fd` of `p` has become one for file `i`. -/
structure Duplicated (s t : Kernel) (p fd i : Nat) : Prop where
  word : t.word = update s.word p (update (s.word p) fd (some (.file i)))
  ref : ∀ j, (t.file j).ref = (s.file j).ref + (if j = i then 1 else 0) -
    (if s.word p fd = some (.file j) then 1 else 0)
  file : ∀ j, s.word p fd ≠ some (.file j) ∨ 1 < (s.file j).ref →
    t.file j = { s.file j with ref := (t.file j).ref }
  shared : (∀ j, s.word p fd = some (.file j) → 1 < (s.file j).ref) → t.fs = s.fs ∧ t.pipe = s.pipe
  last : ∀ j, s.word p fd = some (.file j) → (s.file j).ref = 1 →
    (t.file j).type = .none ∧ Released s t (s.file j)

/-- A descriptor of `p` that is in range and open. -/
def IsOpen (s : Kernel) (p : Nat) (fd : Int) : Prop :=
  0 ≤ fd ∧ fd < nofile ∧ s.word p fd.toNat ≠ none

structure Contract (s : Kernel) (p : Nat) (oldfd newfd : Int) : Prop where
  copies : IsOpen s p oldfd → 0 ≤ newfd → newfd < nofile →
    ∃ t, sysDup2 p oldfd newfd s = .ok (newfd, t) ∧ (oldfd = newfd → t = s) ∧
      (oldfd ≠ newfd → ∃ i, s.word p oldfd.toNat = some (.file i) ∧ Duplicated s t p newfd.toNat i)
  fails : ¬ (IsOpen s p oldfd ∧ 0 ≤ newfd ∧ newfd < nofile) → sysDup2 p oldfd newfd s = .ok (-1, s)

/-- Descriptors name files, each of which counts at least those of `p`; a file that is in
use is for something that is there, and the process has a working directory. -/
structure Sound (s : Kernel) (p : Nat) : Prop where
  good : Consistent s.fs
  files : ∀ fd < nofile, ∀ w, s.word p fd = some w → ∃ i, w = .file i
  refs : ∀ i, (((Finset.range nofile).filter fun fd => s.word p fd = some (.file i)).card : Int) ≤
    (s.file i).ref
  inodes : ∀ i, 0 < (s.file i).ref → (s.file i).type = .inode →
    0 < (s.fs.inode (s.file i).ip).ref ∧ (s.fs.inode (s.file i).ip).locked = false
  pipes : ∀ i, 0 < (s.file i).ref → (s.file i).type = .pipe → ∃ q, s.pipe (s.file i).pipe = some q
  cwd : ∃ ip, s.word p nofile = some (.inode ip)

section Close
variable {s : Kernel} {p fd i : Nat} {E : Stop → Prop}

theorem wp_release (good : Consistent s.fs) {ff : File}
    (inode : ff.type = .inode → 0 < (s.fs.inode ff.ip).ref ∧ (s.fs.inode ff.ip).locked = false)
    (pipe : ff.type = .pipe → ∃ q, s.pipe ff.pipe = some q) :
    wp (release ff) (fun _ t => Released s t ff ∧ t.file = s.file ∧ t.word = s.word) E s := by
  unfold release Released
  cases type : ff.type with
  | none =>
    rw [wp_pure]
    exact ⟨⟨rfl, rfl⟩, rfl, rfl⟩
  | pipe =>
    obtain ⟨q, here⟩ := pipe type
    unfold pipeclose
    rw [wp_read, here, wp_set]
    exact ⟨⟨rfl, q, rfl, rfl⟩, rfl, rfl⟩
  | inode =>
    obtain ⟨ref, unlocked⟩ := inode type
    unfold beginOp
    rw [wp_zoom, wp_bind, wp_modify]
    apply wp_mono (wp_iput (s := { s.fs with logged := [] }) (good.congr rfl rfl rfl) ref unlocked)
    intro _ fs put
    exact ⟨⟨rfl, put⟩, rfl, rfl⟩

/-- What `fileclose` does to a file. -/
inductive Closed (s t : Kernel) (i : Nat) : Prop where
  | shared (more : 1 < (s.file i).ref)
      (after : t = { s with file := update s.file i { s.file i with ref := (s.file i).ref - 1 } })
  | last (one : (s.file i).ref = 1) (word : t.word = s.word)
      (file : t.file = update s.file i { s.file i with ref := 0, type := .none })
      (released : Released s t (s.file i))

theorem wp_fileclose (good : Consistent s.fs) (used : 0 < (s.file i).ref)
    (inode : (s.file i).type = .inode →
      0 < (s.fs.inode (s.file i).ip).ref ∧ (s.fs.inode (s.file i).ip).locked = false)
    (pipe : (s.file i).type = .pipe → ∃ q, s.pipe (s.file i).pipe = some q) :
    wp (fileclose (.file i)) (fun _ t => Closed s t i) E s := by
  unfold fileclose
  rw [wp_read]
  unfold refOf
  dsimp only
  rw [if_neg (by omega)]
  split
  · rename_i more
    unfold setRef
    rw [wp_modify]
    exact .shared (by omega) rfl
  · rename_i one
    rw [wp_bind, wp_modify]
    apply wp_mono (wp_release (s := { s with file := update s.file i { s.file i with
      ref := 0, type := .none } }) good inode pipe)
    rintro _ t ⟨released, file, word⟩
    exact .last (by omega) word file released

end Close

variable {fd i : Nat}

section Call
variable {s : Kernel} {p : Nat} {oldfd newfd : Int} {E : Stop → Prop}

theorem wp_word (p fd : Nat) (f : Option Pointer → KernelM Int) (Q : Int → Kernel → Prop)
    (E : Stop → Prop) (s : Kernel) :
    wp (fileOps.ofile p fd >>= f) Q E s ↔ wp (f (s.word p fd)) Q E s := by
  unfold fileOps
  rw [bind_assoc, wp_read, pure_bind]

/-- Past the checks the call returns the new descriptor, if it returns. -/
theorem wp_sysDup2_passed {fold : Pointer} (left : 0 ≤ oldfd ∧ oldfd ≤ nofile)
    (present : s.word p oldfd.toNat = some fold) (right : 0 ≤ newfd ∧ newfd ≤ nofile) :
    wp (sysDup2 p oldfd newfd) (fun r _ => r = newfd) (fun _ => True) s := by
  unfold sysDup2 FileOps.sysDup2
  rw [if_neg (by omega), wp_word, present]
  dsimp only
  rw [if_neg (by omega)]
  split
  · exact wp_ret rfl
  · rw [wp_word]
    apply wp_seq (wp_true _ _ fun _ => trivial)
    intro _ t _
    apply wp_seq (wp_true _ _ fun _ => trivial)
    intro _ u _
    exact wp_seq (wp_true _ _ fun _ => trivial) fun _ _ _ => wp_ret rfl

/-- A file that a descriptor names is in use. -/
theorem Sound.used (sound : Sound s p) (inside : fd < nofile)
    (here : s.word p fd = some (.file i)) : 0 < (s.file i).ref := by
  have counted : 0 < ((Finset.range nofile).filter fun fd => s.word p fd = some (.file i)).card :=
    Finset.card_pos.mpr ⟨fd, Finset.mem_filter.mpr ⟨Finset.mem_range.mpr inside, here⟩⟩
  have refs := sound.refs i
  omega

/-- Two descriptors for one file are two references. -/
theorem Sound.twice (sound : Sound s p) {gd : Nat} (left : fd < nofile) (right : gd < nofile)
    (apart : fd ≠ gd) (first : s.word p fd = some (.file i))
    (second : s.word p gd = some (.file i)) :
    1 < (s.file i).ref := by
  have both : ({fd, gd} : Finset Nat) ⊆
      (Finset.range nofile).filter fun fd => s.word p fd = some (.file i) := by
    intro x mem
    rw [Finset.mem_insert, Finset.mem_singleton] at mem
    rcases mem with rfl | rfl
    · exact Finset.mem_filter.mpr ⟨Finset.mem_range.mpr left, first⟩
    · exact Finset.mem_filter.mpr ⟨Finset.mem_range.mpr right, second⟩
  have two := Finset.card_le_card both
  rw [Finset.card_pair apart] at two
  have refs := sound.refs i
  omega

/-- The end of the call, when nothing was to be closed or it was closed. -/
theorem wp_attach {u : Kernel} (used : 0 < (u.file i).ref) :
    wp (do filedup (.file i); setWord p fd (some (.file i)); return newfd)
      (fun r t => r = newfd ∧ t = { u with
        file := update u.file i { u.file i with ref := (u.file i).ref + 1 }
        word := update u.word p (update (u.word p) fd (some (.file i))) }) E u := by
  unfold filedup setWord setRef
  rw [wp_bind, wp_read]
  unfold refOf
  dsimp only
  rw [if_neg (by omega), wp_modify, wp_bind, wp_modify, wp_pure]
  exact ⟨rfl, rfl⟩

theorem wp_copy (sound : Sound s p) {old : Nat} (inside : fd < nofile) (before : old < nofile)
    (apart : old ≠ fd) (here : s.word p old = some (.file i)) :
    wp (do
        fileOps.closeFirst p fd (s.word p fd)
        filedup (.file i)
        setWord p fd (some (.file i))
        return newfd)
      (fun r t => r = newfd ∧ Duplicated s t p fd i) E s := by
  have used := sound.used before here
  unfold FileOps.closeFirst
  cases slot : s.word p fd with
  | none =>
    rw [pure_bind]
    apply wp_mono (wp_attach used)
    rintro r t ⟨rfl, rfl⟩
    refine ⟨rfl, rfl, fun j => ?_, fun j _ => ?_, fun _ => ⟨rfl, rfl⟩, fun j none => ?_⟩
    · simp only [slot, reduceCtorEq, if_false, update_apply]
      split_ifs <;> subst_vars <;> first | omega | (dsimp only; omega)
    · simp only [update_apply]
      split_ifs <;> subst_vars <;> rfl
    · rw [slot] at none
      cases none
  | some w =>
    obtain ⟨j, rfl⟩ := sound.files fd inside w slot
    have open_ := sound.used inside slot
    dsimp only [fileOps, setWord]
    rw [bind_assoc, wp_bind, wp_modify]
    apply wp_seq (wp_fileclose (s := { s with word := update s.word p (update (s.word p) fd none) })
      (i := j) sound.good open_ (sound.inodes j open_) (sound.pipes j open_))
    intro _ u closed
    have words : u.word = update s.word p (update (s.word p) fd none) := by
      cases closed with
      | shared _ after => rw [after]
      | last _ word => exact word
    have final : update u.word p (update (u.word p) fd (some (.file i))) =
        update s.word p (update (s.word p) fd (some (.file i))) := by
      rw [words, update_self, update_idem, update_idem]
    cases closed with
    | shared more after =>
      dsimp only at more
      have files : u.file = update s.file j { s.file j with ref := (s.file j).ref - 1 } := by
        rw [after]
      have used' : 0 < (u.file i).ref := by
        rw [files]
        by_cases mine : i = j
        · rw [mine, update_self]
          dsimp only
          omega
        · rwa [update_of_ne mine]
      apply wp_mono (wp_attach used')
      rintro r t ⟨rfl, rfl⟩
      refine ⟨rfl, final, fun k => ?_, fun k _ => ?_, fun _ => ⟨by rw [after], by rw [after]⟩,
        fun k mine one => ?_⟩
      · simp only [slot, files, update_apply, Option.some.injEq, Pointer.file.injEq]
        split_ifs <;> subst_vars <;> first | omega | (dsimp only; omega)
      · simp only [files, update_apply]
        split_ifs <;> subst_vars <;> rfl
      · rw [slot] at mine
        cases mine
        omega
    | last one word file released =>
      dsimp only at one
      have apart' : i ≠ j := by
        rintro rfl
        have := sound.twice before inside apart here slot
        omega
      have used' : 0 < (u.file i).ref := by
        rw [file, update_of_ne apart']
        exact used
      apply wp_mono (wp_attach used')
      rintro r t ⟨rfl, rfl⟩
      refine ⟨rfl, final, fun k => ?_, fun k other => ?_, fun all => ?_, fun k mine _ => ?_⟩
      · simp only [slot, file, update_apply, Option.some.injEq, Pointer.file.injEq]
        split_ifs <;> subst_vars <;> first | omega | (dsimp only; omega)
      · have mine : k ≠ j := by
          rintro rfl
          exact other.elim (fun none => none slot) (by omega)
        simp only [file, update_apply]
        split_ifs <;> subst_vars <;> rfl
      · have := all j slot
        omega
      · rw [slot] at mine
        cases mine
        refine ⟨?_, released⟩
        dsimp only
        rw [update_of_ne apart'.symm, file, update_self]

/-- The contract holds unless one descriptor is NOFILE in a call that passes the checks. -/
theorem dup2_contract_iff (sound : Sound s p) (oldfd newfd : Int) :
    Contract s p oldfd newfd ↔ ¬ (oldfd = nofile ∧ 0 ≤ newfd ∧ newfd ≤ nofile) ∧
      ¬ (newfd = nofile ∧ IsOpen s p oldfd) := by
  constructor
  · intro contract
    -- a call that passes the checks does not return -1
    have passes : ∀ fold, 0 ≤ oldfd ∧ oldfd ≤ nofile → s.word p oldfd.toNat = some fold →
        0 ≤ newfd ∧ newfd ≤ nofile → oldfd = nofile ∨ newfd = nofile → False := by
      intro fold left present right edge
      have failed := contract.fails fun inside => by
        obtain ⟨⟨_, below, _⟩, _, below'⟩ := inside
        omega
      have result := wp_ok (wp_sysDup2_passed left present right) failed
      omega
    refine ⟨fun ⟨old, lo, hi⟩ => ?_, fun ⟨new, lo, hi, present⟩ => ?_⟩
    · obtain ⟨ip, cwd⟩ := sound.cwd
      exact passes (.inode ip) (by omega) (by rw [old]; exact cwd) ⟨lo, hi⟩ (.inl old)
    · obtain ⟨fold, here⟩ := Option.ne_none_iff_exists'.mp present
      exact passes fold (by omega) here (by omega) (.inr new)
  · rintro ⟨left, right⟩
    constructor
    · rintro ⟨lo, hi, present⟩ first last
      obtain ⟨w, here⟩ := Option.ne_none_iff_exists'.mp present
      have inside : oldfd.toNat < nofile := by omega
      obtain ⟨i, rfl⟩ := sound.files _ inside w here
      by_cases same : oldfd = newfd
      · refine ⟨s, ?_, fun _ => rfl, fun other => absurd same other⟩
        have spec : wp (sysDup2 p oldfd newfd) (fun r t => r = newfd ∧ t = s) (fun _ => False) s := by
          unfold sysDup2 FileOps.sysDup2
          rw [if_neg (by omega), wp_word, here]
          dsimp only
          rw [if_neg (by omega), if_pos same.symm, wp_pure]
          exact ⟨rfl, rfl⟩
        obtain ⟨_, _, result, rfl, rfl⟩ := wp_returns spec
        exact result
      · have spec : wp (sysDup2 p oldfd newfd) (fun r t => r = newfd ∧ Duplicated s t p newfd.toNat i)
            (fun _ => False) s := by
          unfold sysDup2 FileOps.sysDup2
          rw [if_neg (by omega), wp_word, here]
          dsimp only
          rw [if_neg (by omega), if_neg (Ne.symm same), wp_word]
          exact wp_copy sound (by omega) inside (by omega) here
        obtain ⟨_, t, result, rfl, copied⟩ := wp_returns spec
        exact ⟨t, result, fun equal => absurd equal same, fun _ => ⟨i, here, copied⟩⟩
    · intro outside
      have spec : wp (sysDup2 p oldfd newfd) (fun r t => r = -1 ∧ t = s) (fun _ => False) s := by
        unfold sysDup2 FileOps.sysDup2
        split
        · exact wp_ret ⟨rfl, rfl⟩
        · rename_i within
          rw [wp_word]
          split
          · exact wp_ret ⟨rfl, rfl⟩
          · rename_i fold here
            have present : s.word p oldfd.toNat ≠ none := by
              rw [here]
              exact Option.some_ne_none _
            rw [if_pos, wp_pure]
            · exact ⟨rfl, rfl⟩
            · by_contra passed
              by_cases edge : oldfd = nofile
              · exact left ⟨edge, by omega, by omega⟩
              · have opened : IsOpen s p oldfd := ⟨by omega, by omega, present⟩
                by_cases last : newfd = nofile
                · exact right ⟨last, opened⟩
                · exact outside ⟨opened, by omega, by omega⟩
      obtain ⟨_, _, result, rfl, rfl⟩ := wp_returns spec
      exact result

end Call

/-! A process with one file, in the tiny file system. -/

def shell : Kernel where
  fs := tiny
  file := fun i => if i = 0 then { type := .pipe, ref := 1, writable := true } else {}
  pipe := fun q => if q = 0 then some ⟨true, true⟩ else none
  word := fun _ fd => if fd = 0 then some (.file 0) else if fd = nofile then some (.inode 0) else none

theorem shell_file (used : 0 < (shell.file i).ref) : i = 0 := by
  by_contra other
  rw [show shell.file i = {} from if_neg other] at used
  exact absurd used (by decide)

theorem shell_sound : Sound shell 0 where
  good := tiny_consistent
  files := by
    intro fd inside w here
    by_cases first : fd = 0
    · rw [first] at here
      exact ⟨0, (Option.some.inj here).symm⟩
    · rw [show shell.word 0 fd = none from (if_neg first).trans (if_neg (Nat.ne_of_lt inside))] at here
      cases here
  refs := by
    intro i
    by_cases here : i = 0
    · rw [here]
      decide
    · have none : ((Finset.range nofile).filter fun fd => shell.word 0 fd = some (.file i)) = ∅ := by
        refine Finset.filter_eq_empty_iff.mpr fun fd inside named => here ?_
        by_cases first : fd = 0
        · rw [first] at named
          exact (Pointer.file.inj (Option.some.inj named)).symm
        · rw [show shell.word 0 fd = Option.none from
            (if_neg first).trans (if_neg (Nat.ne_of_lt (Finset.mem_range.mp inside)))] at named
          cases named
      rw [none, show shell.file i = {} from if_neg here]
      decide
  inodes := by
    intro i used type
    rw [shell_file used] at type
    cases type
  pipes := by
    intro i used _
    rw [shell_file used]
    exact ⟨_, rfl⟩
  cwd := ⟨0, rfl⟩

/-- Descriptor NOFILE is duplicated, which counts up the inode number of the directory. -/
theorem dup2_duplicates_cwd : ∃ t, sysDup2 0 16 3 shell = .ok (3, t) ∧
    t.word 0 3 = some (.inode 0) ∧ (shell.fs.inode 0).inum = 1 ∧ (t.fs.inode 0).inum = 2 := by
  refine ⟨_, rfl, rfl, rfl, rfl⟩

theorem dup2_contract_iff_shell : Contract shell 0 0 5 ∧ ¬ Contract shell 0 16 3 :=
  ⟨(dup2_contract_iff shell_sound 0 5).mpr
    ⟨by decide, fun both => absurd both.1 (by decide)⟩,
    fun contract => ((dup2_contract_iff shell_sound 16 3).mp contract).1 (by decide)⟩

end ColorXv6.Fs.Dup2
