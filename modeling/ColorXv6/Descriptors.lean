import ColorXv6.Lib.Wp
import ColorXv6.Param

/-!
The calls of sysfile.c and proc.c that only move descriptors around. They are the same whatever
else a model of the kernel keeps of files and processes, so they are written over the operations
of file.c and on `ofile` that the model has.
-/
namespace ColorXv6.Descriptors
open Lib.Wp Param

/-- What a model has to offer; `F` is what a descriptor names. -/
structure FileOps (σ ε F : Type) where
  ofile : (p fd : Nat) → Prog σ ε (Option F)
  setOfile : (p fd : Nat) → Option F → Prog σ ε Unit
  filedup : F → Prog σ ε Unit
  fileclose : F → Prog σ ε Unit

variable {σ ε F : Type} (ops : FileOps σ ε F)

/-- A descriptor that is open is closed first. -/
def FileOps.closeFirst (p fd : Nat) : Option F → Prog σ ε Unit
  | none => return ()
  | some fnew => do
    ops.setOfile p fd none
    ops.fileclose fnew

/-- Both tests admit the descriptor NOFILE, which is past the end of the array. -/
def FileOps.sysDup2 (p : Nat) (oldfd newfd : Int) : Prog σ ε Int := do
  if oldfd < 0 ∨ oldfd > nofile then
    return -1
  else
    match ← ops.ofile p oldfd.toNat with
    | none => return -1
    | some fold =>
      if newfd < 0 ∨ newfd > nofile then
        return -1
      else if newfd = oldfd then
        return newfd
      else
        let fnew ← ops.ofile p newfd.toNat
        ops.closeFirst p newfd.toNat fnew
        ops.filedup fold
        ops.setOfile p newfd.toNat (some fold)
        return newfd

/-- The loop of `fork` over the first `n` descriptors. -/
def FileOps.dupFiles (p np : Nat) : Nat → Prog σ ε Unit
  | 0 => return ()
  | n + 1 => do
    dupFiles p np n
    match ← ops.ofile p n with
    | none => return ()
    | some f =>
      ops.filedup f
      ops.setOfile np n (some f)

/-- The loop of `exit` over the first `n` descriptors. -/
def FileOps.closeFiles (p : Nat) : Nat → Prog σ ε Unit
  | 0 => return ()
  | n + 1 => do
    closeFiles p n
    match ← ops.ofile p n with
    | none => return ()
    | some f =>
      ops.fileclose f
      ops.setOfile p n none

/-- `ofile[fd]`, which is not to be past the end. -/
def readOfile (ofile : σ → Nat → Nat → Option F) (outOfBounds : ε) (p fd : Nat) :
    Prog σ ε (Option F) := do
  let s ← get
  if fd = nofile then
    throw outOfBounds
  else
    return ofile s p fd

/-- `ops.ofile` reads the array `word` of process `p`, and stops past its end. -/
def FileOps.Reads (p : Nat) (word : Nat → Option F) (E : ε → Prop) (s : σ) : Prop :=
  ∀ fd, wp (ops.ofile p fd) (fun r t => t = s ∧ fd ≠ nofile ∧ r = word fd) E s

variable {ops}

theorem reads_ofile {ofile : σ → Nat → Nat → Option F} {e : ε} {E : ε → Prop}
    (stops : E e) (array : ops.ofile = readOfile ofile e) (p : Nat) (s : σ) :
    ops.Reads p (ofile s p) E s := by
  intro fd
  rw [array, readOfile, wp_read]
  split
  · exact wp_fail stops
  · rename_i inside
    exact wp_ret ⟨rfl, inside, rfl⟩

/-- `sys_dup2` returns at once, or both descriptors are in range and the second becomes the first. -/
theorem FileOps.Reads.wp_sysDup2 {p : Nat} {oldfd newfd : Int} {word : Nat → Option F}
    {Q : Int → σ → Prop} {E : ε → Prop} {s : σ} (reads : ops.Reads p word E s) (same : ∀ r, Q r s)
    (copies : ∀ fold, oldfd.toNat < nofile → newfd.toNat < nofile → oldfd.toNat ≠ newfd.toNat →
      word oldfd.toNat = some fold → wp (do
        ops.closeFirst p newfd.toNat (word newfd.toNat)
        ops.filedup fold
        ops.setOfile p newfd.toNat (some fold)
        return newfd) Q E s) :
    wp (ops.sysDup2 p oldfd newfd) Q E s := by
  unfold sysDup2
  split
  · exact wp_ret (same _)
  · apply wp_seq (reads _)
    rintro r t ⟨rfl, edge, here⟩
    cases r with
    | none => exact wp_ret (same _)
    | some fold =>
      dsimp only
      split
      · exact wp_ret (same _)
      · split
        · exact wp_ret (same _)
        · apply wp_seq (reads _)
          rintro r t ⟨rfl, edge', rfl⟩
          exact copies fold (by omega) (by omega) (by omega) here.symm

end ColorXv6.Descriptors
