import ColorXv6.Fs.Frame
import ColorXv6.Lib.Holdings

/-!
References to entries of the inode cache. Between two system calls the count of an
entry is the number of open files and working directories that are that entry. Inside
a call `held` says what it has in its local variables.
-/
namespace ColorXv6.Fs.InodeRefs
open Lib.LittleEndian Lib.Slots Lib.Wp Lib.Runs Lib.Holdings Param Logging.Commit Layout Inode
open Descriptors Directory SysFile Frame Finset

/-- File `i` is in use and refers to entry `k`. -/
def opens (u : Users) (k i : Nat) : Prop :=
  0 < u.fileRef i ∧ u.fileType i = .inode ∧ u.fileIp i = k

instance (u : Users) (k i : Nat) : Decidable (opens u k i) := inferInstanceAs (Decidable (_ ∧ _))

def files (u : Users) (k : Nat) : Nat := ∑ i ∈ range nfile, if opens u k i then 1 else 0

def cwds (u : Users) (k : Nat) : Nat := ∑ p ∈ range nproc, if u.cwd p = some k then 1 else 0

/-- What holds of the users: a free file has no type, and only live processes have a working
directory. -/
structure Sound (u : Users) : Prop where
  idle : ∀ i, u.fileRef i = 0 → u.fileType i = .none
  bound : ∀ i, nfile ≤ i → u.fileRef i = 0
  dead : ∀ p, u.live p = false → u.cwd p = none

/-- The references are those of the users `u` and those in `held`. -/
structure Balanced (u : Users) (held : Nat → Int) (s : Fs) : Prop where
  same : users s = u
  exact : ∀ k, (s.inode k).ref = files u k + cwds u k + held k
  inside : ∀ k, 0 < (s.inode k).ref → k < ninode
  unique : ∀ j k, 0 < (s.inode j).ref → 0 < (s.inode k).ref →
    (s.inode j).inum = (s.inode k).inum → j = k

/-- How a call stops is of no concern here. -/
def anyHalt (_ : Halt) : Prop := True

/-! Programs that take and drop references. -/

variable {ip p : Nat}

section Specs
variable {u : Users} {held : Nat → Int} {s : Fs} {α β : Type} {m : FsM α}

theorem Balanced.congr {t : Fs} (bal : Balanced u held s) (same : view t = view s) :
    Balanced u held t := by
  have refs : ∀ k, ((t.inode k).ref, (t.inode k).inum) = ((s.inode k).ref, (s.inode k).inum) :=
    fun k => congrFun (congrArg Prod.fst same) k
  simp only [Prod.mk.injEq] at refs
  constructor
  · exact (congrArg Prod.snd same).trans bal.same
  · intro k
    rw [(refs k).1]
    exact bal.exact k
  · intro k
    rw [(refs k).1]
    exact bal.inside k
  · intro j k
    rw [(refs j).1, (refs j).2, (refs k).1, (refs k).2]
    exact bal.unique j k

theorem balanced_keeps (keeps : Keeps view m) (bal : Balanced u held s) :
    wp m (fun _ t => Balanced u held t) anyHalt s :=
  wp_mono (keeps s) fun _ _ same => bal.congr same

/-- Sequencing after a program that does not touch references. -/
theorem balanced_seq {f : α → FsM β} {R : β → Fs → Prop} (keeps : Keeps view m)
    (bal : Balanced u held s) (rest : ∀ a t, Balanced u held t → wp (f a) R anyHalt t) :
    wp (m >>= f) R anyHalt s :=
  wp_seq (balanced_keeps keeps bal) rest

/-- An inode is changed and written to its block. -/
theorem balanced_update {f : Dinode → Dinode} {g : Unit → FsM β} {R : β → Fs → Prop}
    (bal : Balanced u held s) (rest : ∀ t, Balanced u held t → wp (g ()) R anyHalt t) :
    wp (modifyDin ip f >>= fun _ => iupdate ip >>= g) R anyHalt s :=
  balanced_seq (keeps_modifyDin ip f) bal fun _ _ bal =>
    balanced_seq (keeps_iupdate ip) bal fun _ => rest

theorem balanced_throw (e : Halt) (R : α → Fs → Prop) : wp (throw e : FsM α) R anyHalt s :=
  wp_fail True.intro

theorem balanced_grab (bal : Balanced u held s) (used : 0 < (s.inode ip).ref) :
    wp (modifyInode ip fun i => { i with ref := i.ref + 1 })
      (fun _ t => Balanced u (add held ip) t) anyHalt s := by
  have inside := bal.inside
  have unique := bal.unique
  have exact := bal.exact
  simp only [modifyInode, wp_modify]
  constructor
  · exact bal.same
  · grind [add]
  · grind
  · grind

theorem balanced_iget (inum : Nat) (bal : Balanced u held s) :
    wp (iget inum) (fun ip t => Balanced u (add held ip) t) anyHalt s := by
  have inside := bal.inside
  have unique := bal.unique
  have exact := bal.exact
  unfold iget
  rw [wp_read]
  cases cached : firstSlot ninode fun k => 0 < (s.inode k).ref ∧ (s.inode k).inum = inum with
  | some ip =>
    have found := (firstSlot_some cached).2
    simp only [decide_eq_true_eq] at found
    exact wp_seq (balanced_grab bal found.1) fun _ _ bal => wp_ret bal
  | none =>
    have fresh := firstSlot_none.mp cached
    cases free : firstSlot ninode fun k => (s.inode k).ref = 0 with
    | none => exact balanced_throw _ _
    | some empty =>
      obtain ⟨slot, unused⟩ := firstSlot_some free
      simp only [modifyInode, wp_bind, wp_modify, wp_pure]
      constructor
      · exact bal.same
      · grind [add]
      · grind
      · grind

theorem balanced_iput (ip : Nat) (bal : Balanced u held s) :
    wp (iput ip) (fun _ t => Balanced u (drop held ip) t) anyHalt s := by
  have last : ∀ t, Balanced u held t → wp (releasesleep ip >>= fun _ =>
      modifyInode ip fun i => { i with ref := i.ref - 1 })
      (fun _ t => Balanced u (drop held ip) t) anyHalt t := by
    intro t bal
    apply balanced_seq (keeps_releasesleep ip) bal
    intro _ t bal
    have inside := bal.inside
    have unique := bal.unique
    have exact := bal.exact
    simp only [modifyInode, wp_modify]
    constructor
    · exact bal.same
    · grind [drop]
    · grind
    · grind
  apply balanced_seq (keeps_acquiresleep ip) bal
  intro _ t bal
  rw [wp_read]
  dsimp only
  split
  · apply balanced_seq (keeps_itrunc ip) bal
    intro _ t bal
    apply balanced_update bal
    intro t bal
    refine balanced_seq (keeps_modifyInode ip ?_) bal fun _ t bal => ?_
    · exact fun _ => rfl
    exact last t bal
  · exact last t bal

theorem balanced_iunlockput (ip : Nat) (bal : Balanced u held s) :
    wp (iunlockput ip) (fun _ t => Balanced u (drop held ip) t) anyHalt s :=
  balanced_seq (keeps_iunlock ip) bal fun _ _ bal => balanced_iput ip bal

/-- The call puts a reference that it took. -/
theorem balanced_put (bal : Balanced u (add held ip) s) :
    wp (iput ip) (fun _ t => Balanced u held t) anyHalt s :=
  drop_add held ip ▸ balanced_iput ip bal

theorem balanced_unlockPut (bal : Balanced u (add held ip) s) :
    wp (iunlockput ip) (fun _ t => Balanced u held t) anyHalt s :=
  drop_add held ip ▸ balanced_iunlockput ip bal

theorem balanced_iallocFrom (type : Int) (inum n : Nat) (bal : Balanced u held s) :
    wp (iallocFrom type inum n) (fun ip t => Balanced u (add held ip) t) anyHalt s := by
  induction n generalizing inum s with
  | zero => exact balanced_throw _ _
  | succ n ih =>
    rw [iallocFrom, wp_read]
    split
    · apply balanced_seq (keeps_bread _) bal
      intro data t bal
      split
      · exact balanced_seq (keeps_logWrite _ _) bal fun _ _ bal => balanced_iget inum bal
      · exact ih _ bal
    · exact balanced_throw _ _

theorem balanced_ialloc (type : Int) (bal : Balanced u held s) :
    wp (ialloc type) (fun ip t => Balanced u (add held ip) t) anyHalt s := by
  unfold ialloc
  rw [wp_read]
  exact balanced_iallocFrom type 1 _ bal

/-- The references after a search that may have found an entry. -/
def taken (held : Nat → Int) : Option Nat → Nat → Int
  | none => held
  | some ip => add held ip

theorem balanced_dirlookup (dp : Nat) (name : Bytes) (bal : Balanced u held s) :
    wp (dirlookup dp name) (fun r t => Balanced u (taken held (r.map Prod.fst)) t) anyHalt s := by
  unfold dirlookup
  rw [wp_read]
  split
  · exact balanced_throw _ _
  · apply balanced_seq (keeps_scanEntries _ _ _ _ _) bal
    rintro ⟨off, found⟩ t bal
    cases found with
    | none => exact wp_ret bal
    | some de => exact wp_seq (balanced_iget _ bal) fun _ _ bal => wp_ret bal

theorem balanced_dirlink (dp : Nat) (name : Bytes) (inum : Nat) (bal : Balanced u held s) :
    wp (dirlink dp name inum) (fun _ t => Balanced u held t) anyHalt s := by
  apply wp_seq (balanced_dirlookup dp name bal)
  intro r t bal
  match r with
  | some (ip, _) =>
    exact wp_seq (balanced_put bal) fun _ _ bal => wp_ret bal
  | none =>
    apply balanced_seq (keeps_scanEntries _ _ _ _ _) bal
    rintro ⟨off, _⟩ t bal
    apply balanced_seq (keeps_writei _ _ _ _) bal
    intro r t bal
    split
    · exact balanced_throw _ _
    · exact wp_ret bal

/-- Drop one of two references. -/
theorem drop_add_first (held : Nat → Int) (i j : Nat) :
    drop (add (add held i) j) i = add held j := by
  rw [drop_add_swap, drop_add]

theorem balanced_namexFrom (parent : Bool) (ip : Nat) (path : List UInt8) (name : Bytes)
    (fuel : Nat) (bal : Balanced u (add held ip) s) :
    wp (namexFrom parent ip path name fuel)
      (fun r t => Balanced u (taken held (r.map Prod.fst)) t) anyHalt s := by
  -- Whatever ends the walk without a result puts the inode it is at.
  have leave : ∀ t, Balanced u (add held ip) t → wp (iunlockput ip >>= fun _ => pure none)
      (fun r t => Balanced u (taken held (r.map (Prod.fst : Nat × Bytes → Nat))) t) anyHalt t := by
    intro t bal
    exact wp_seq (balanced_unlockPut bal) fun _ _ bal => wp_ret bal
  induction fuel generalizing ip path name s with
  | zero => exact balanced_throw _ _
  | succ fuel ih =>
    rw [namexFrom]
    cases skipelem path with
    | none =>
      dsimp only
      split
      · exact wp_seq (balanced_put bal) fun _ _ bal => wp_ret bal
      · exact wp_ret bal
    | some elem =>
      apply balanced_seq (keeps_ilock ip) bal
      intro _ t bal
      rw [wp_read]
      split
      · exact leave t bal
      · split
        · exact balanced_seq (keeps_iunlock ip) bal fun _ _ bal => wp_ret bal
        · apply wp_seq (balanced_dirlookup ip _ bal)
          intro r t bal
          match r with
          | none => exact leave t bal
          | some (next, _) =>
            apply wp_seq (balanced_iunlockput ip bal)
            intro _ t bal
            simp only [taken, Option.map_some, drop_add_first] at bal
            apply ih next _ _ bal
            intro t bal
            exact wp_seq (balanced_unlockPut bal) fun _ _ bal => wp_ret bal

/-- A working directory is in use. -/
theorem Balanced.cwd_used {cwd : Nat} (bal : Balanced u held s) (bound : p < nproc)
    (here : (s.proc p).cwd = some cwd) (nonneg : 0 ≤ held cwd) : 0 < (s.inode cwd).ref := by
  have counted : (if u.cwd p = some cwd then 1 else 0) ≤ cwds u cwd :=
    single_le_sum (f := fun p => if u.cwd p = some cwd then 1 else 0) (fun _ _ => Nat.zero_le _)
      (mem_range.mpr bound)
  have counts : u.cwd p = some cwd := by
    rw [← bal.same]
    exact here
  rw [if_pos counts] at counted
  have exact := bal.exact cwd
  omega

theorem balanced_idup (bal : Balanced u held s) (used : 0 < (s.inode ip).ref) :
    wp (idup ip) (fun r t => r = ip ∧ Balanced u (add held ip) t) anyHalt s :=
  wp_seq (balanced_grab bal used) fun _ _ bal => wp_ret ⟨rfl, bal⟩

theorem balanced_namex (path : List UInt8) (parent : Bool) (bound : p < nproc)
    (bal : Balanced u held s) (nonneg : ∀ k, 0 ≤ held k) :
    wp (namex p path parent) (fun r t => Balanced u (taken held (r.map Prod.fst)) t) anyHalt s := by
  unfold namex
  rw [wp_read]
  split
  · exact wp_seq (balanced_iget rootIno bal) fun ip t bal => balanced_namexFrom _ _ _ _ _ bal
  · cases here : (s.proc p).cwd with
    | none => exact balanced_throw _ _
    | some cwd =>
      apply wp_seq (balanced_idup bal (bal.cwd_used bound here (nonneg cwd)))
      rintro ip t ⟨rfl, bal⟩
      exact balanced_namexFrom _ _ _ _ _ bal

theorem balanced_namei (path : List UInt8) (bound : p < nproc) (bal : Balanced u held s)
    (nonneg : ∀ k, 0 ≤ held k) :
    wp (namei p path) (fun r t => Balanced u (taken held r) t) anyHalt s :=
  wp_seq (balanced_namex path false bound bal nonneg) fun _ _ bal => wp_ret bal

theorem balanced_nameiparent (path : List UInt8) (bound : p < nproc) (bal : Balanced u held s)
    (nonneg : ∀ k, 0 ≤ held k) :
    wp (nameiparent p path) (fun r t => Balanced u (taken held (r.map Prod.fst)) t) anyHalt s :=
  balanced_namex path true bound bal nonneg

theorem add_nonneg {held : Nat → Int} (nonneg : ∀ k, 0 ≤ held k) (ip k : Nat) :
    0 ≤ add held ip k := by
  have := nonneg k
  unfold add
  split
  · omega
  · omega

theorem balanced_unlinkBad (ip : Nat) (bal : Balanced u (add held ip) s) :
    wp (unlinkBad ip) (fun _ t => Balanced u held t) anyHalt s := by
  apply balanced_seq (keeps_ilock ip) bal
  intro _ t bal
  apply balanced_update bal
  intro t bal
  exact wp_seq (balanced_unlockPut bal) fun _ _ bal => wp_ret bal

theorem balanced_sysLink (old new : List UInt8) (bound : p < nproc) (bal : Balanced u nobody s) :
    wp (sysLink p old new) (fun _ t => Balanced u nobody t) anyHalt s := by
  have nonneg : ∀ k, 0 ≤ nobody k := fun _ => le_refl 0
  apply balanced_seq keeps_beginOp bal
  intro _ t bal
  apply wp_seq (balanced_namei old bound bal nonneg)
  intro r t bal
  cases r with
  | none => exact wp_ret bal
  | some ip =>
    apply balanced_seq (keeps_ilock ip) bal
    intro _ t bal
    rw [wp_read]
    split
    · exact wp_seq (balanced_unlockPut bal) fun _ _ bal => wp_ret bal
    · apply balanced_update bal
      intro t bal
      apply balanced_seq (keeps_iunlock ip) bal
      intro _ t bal
      apply wp_seq (balanced_nameiparent new bound bal (add_nonneg nonneg ip))
      intro r t bal
      match r with
      | none => exact balanced_unlinkBad ip bal
      | some (dp, name) =>
        apply balanced_seq (keeps_ilock dp) bal
        intro _ t bal
        apply wp_seq (balanced_dirlink dp name _ bal)
        intro r t bal
        split
        · apply wp_seq (balanced_unlockPut bal)
          intro _ t bal
          exact balanced_unlinkBad ip bal
        · apply wp_seq (balanced_unlockPut bal)
          intro _ t bal
          exact wp_seq (balanced_put bal) fun _ _ bal => wp_ret bal

theorem balanced_putBad (dp : Nat) (bal : Balanced u (add held dp) s) :
    wp (putBad dp) (fun _ t => Balanced u held t) anyHalt s := by
  exact wp_seq (balanced_unlockPut bal) fun _ _ bal => wp_ret bal

theorem balanced_removeEntry (dp ip off : Nat) (type : Int)
    (bal : Balanced u (add (add held dp) ip) s) :
    wp (removeEntry dp ip off type) (fun _ t => Balanced u held t) anyHalt s := by
  apply balanced_seq (keeps_writei _ _ _ _) bal
  intro r t bal
  split
  · exact balanced_throw _ _
  · apply balanced_seq (keeps_dropParent dp type) bal
    intro _ t bal
    apply wp_seq (balanced_iunlockput dp bal)
    intro _ t bal
    rw [drop_add_first] at bal
    apply balanced_update bal
    intro t bal
    exact wp_seq (balanced_unlockPut bal) fun _ _ bal => wp_ret bal

theorem balanced_sysUnlink (path : List UInt8) (bound : p < nproc) (bal : Balanced u nobody s) :
    wp (sysUnlink p path) (fun _ t => Balanced u nobody t) anyHalt s := by
  unfold sysUnlink unlinkFrom unlinkFound
  apply balanced_seq keeps_beginOp bal
  intro _ t bal
  apply wp_seq (balanced_nameiparent path bound bal fun _ => le_refl 0)
  intro r t bal
  match r with
  | none => exact wp_ret bal
  | some (dp, name) =>
    apply balanced_seq (keeps_ilock dp) bal
    intro _ t bal
    split
    · exact balanced_putBad dp bal
    · apply wp_seq (balanced_dirlookup dp name bal)
      intro r t bal
      match r with
      | none => exact balanced_putBad dp bal
      | some (ip, off) =>
        apply balanced_seq (keeps_ilock ip) bal
        intro _ t bal
        rw [wp_read]
        dsimp only
        split
        · exact balanced_throw _ _
        · apply balanced_seq (keeps_mayRemove ip _) bal
          intro empty t bal
          split
          · exact balanced_removeEntry dp ip off _ bal
          · apply wp_seq (balanced_unlockPut bal)
            intro _ t bal
            exact balanced_putBad dp bal

theorem balanced_makeDots (type : Int) (ip dp : Nat) (bal : Balanced u held s) :
    wp (makeDots type ip dp) (fun _ t => Balanced u held t) anyHalt s := by
  unfold makeDots
  split
  · apply balanced_update bal
    intro t bal
    rw [wp_read]
    apply wp_seq (balanced_dirlink ip _ _ bal)
    intro r t bal
    split
    · exact balanced_throw _ _
    · apply wp_seq (balanced_dirlink ip _ _ bal)
      intro r t bal
      split
      · exact balanced_throw _ _
      · exact wp_ret bal
  · exact wp_ret bal

section Paths
variable (path : List UInt8)

theorem balanced_create (type major minor : Int) (bound : p < nproc) (bal : Balanced u nobody s) :
    wp (create p path type major minor) (fun r t => Balanced u (taken nobody r) t) anyHalt s := by
  apply wp_seq (balanced_nameiparent path bound bal fun _ => le_refl 0)
  intro r t bal
  match r with
  | none => exact wp_ret bal
  | some (dp, name) =>
    apply balanced_seq (keeps_ilock dp) bal
    intro _ t bal
    apply wp_seq (balanced_dirlookup dp name bal)
    intro r t bal
    match r with
    | some (ip, _) =>
      apply wp_seq (balanced_iunlockput dp bal)
      intro _ t bal
      simp only [taken, Option.map_some, drop_add_first] at bal
      apply balanced_seq (keeps_ilock ip) bal
      intro _ t bal
      rw [wp_read]
      split
      · exact wp_ret bal
      · exact wp_seq (balanced_unlockPut bal) fun _ _ bal => wp_ret bal
    | none =>
      apply wp_seq (balanced_ialloc type bal)
      intro ip t bal
      apply balanced_seq (keeps_ilock ip) bal
      intro _ t bal
      apply balanced_update bal
      intro t bal
      apply wp_seq (balanced_makeDots type ip dp bal)
      intro _ t bal
      rw [wp_read]
      apply wp_seq (balanced_dirlink dp name _ bal)
      intro r t bal
      split
      · exact balanced_throw _ _
      · apply wp_seq (balanced_iunlockput dp bal)
        intro _ t bal
        simp only [taken, Option.map_some, Option.map_none, drop_add_first] at bal
        exact wp_ret bal

theorem balanced_openInode (omode : Nat) (bound : p < nproc) (bal : Balanced u nobody s) :
    wp (openInode p path omode) (fun r t => Balanced u (taken nobody r) t) anyHalt s := by
  unfold openInode
  split
  · exact balanced_create path tFile 0 0 bound bal
  · apply wp_seq (balanced_namei path bound bal fun _ => le_refl 0)
    intro r t bal
    cases r with
    | none => exact wp_ret bal
    | some ip =>
      apply balanced_seq (keeps_ilock ip) bal
      intro _ t bal
      rw [wp_read]
      split
      · exact wp_seq (balanced_unlockPut bal) fun _ _ bal => wp_ret bal
      · exact wp_ret bal

/-- `sys_mkdir` and `sys_mknod`. -/
theorem balanced_createPut (type major minor : Int) (bound : p < nproc)
    (bal : Balanced u nobody s) :
    wp (create p path type major minor >>= fun r =>
      match r with
      | none => pure (-1 : Int)
      | some ip => iunlockput ip >>= fun _ => pure 0) (fun _ t => Balanced u nobody t) anyHalt s := by
  apply wp_seq (balanced_create path type major minor bound bal)
  intro r t bal
  cases r with
  | none => exact wp_ret bal
  | some ip =>
    exact wp_seq (balanced_unlockPut bal) fun _ _ bal => wp_ret bal

theorem balanced_sysMkdir (bound : p < nproc) (bal : Balanced u nobody s) :
    wp (sysMkdir p path) (fun _ t => Balanced u nobody t) anyHalt s :=
  balanced_seq keeps_beginOp bal fun _ _ bal => balanced_createPut path tDir 0 0 bound bal

theorem balanced_sysMknod (major minor : Int) (bound : p < nproc) (bal : Balanced u nobody s) :
    wp (sysMknod p path major minor) (fun _ t => Balanced u nobody t) anyHalt s :=
  balanced_seq keeps_beginOp bal fun _ _ bal =>
    balanced_createPut path tDev (toShort major) (toShort minor) bound bal

theorem balanced_execFile (reads : List (Nat × Nat)) (bound : p < nproc)
    (bal : Balanced u nobody s) :
    wp (execFile p path reads) (fun _ t => Balanced u nobody t) anyHalt s := by
  apply balanced_seq keeps_beginOp bal
  intro _ t bal
  apply wp_seq (balanced_namei path bound bal fun _ => le_refl 0)
  intro r t bal
  cases r with
  | none => exact wp_ret bal
  | some ip =>
    apply balanced_seq (keeps_ilock ip) bal
    intro _ t bal
    apply balanced_seq (keeps_readAll ip reads) bal
    intro _ t bal
    exact balanced_unlockPut bal

end Paths

/-! Programs that change open files and working directories. -/

/-- The account between the pieces of a call that works on the file table. -/
structure Inv (held : Nat → Int) (s : Fs) : Prop where
  sound : Sound (users s)
  bal : Balanced (users s) held s

theorem Balanced.inv (bal : Balanced u held s) (sound : Sound u) : Inv held s := by
  have same := bal.same
  subst same
  exact ⟨sound, bal⟩

theorem Inv.congr {t : Fs} (good : Inv held s) (same : view t = view s) : Inv held t :=
  (good.bal.congr same).inv good.sound

theorem inv_keeps (keeps : Keeps view m) (good : Inv held s) :
    wp m (fun _ t => Inv held t) anyHalt s :=
  wp_mono (balanced_keeps keeps good.bal) fun _ _ bal => bal.inv good.sound

theorem inv_seq {f : α → FsM β} {R : β → Fs → Prop} (keeps : Keeps view m) (good : Inv held s)
    (rest : ∀ a t, Inv held t → wp (f a) R anyHalt t) :
    wp (m >>= f) R anyHalt s :=
  wp_seq (inv_keeps keeps good) rest

/-- A file that refers to entry `k`. -/
def counts (file : File) (k : Nat) : Prop := 0 < file.ref ∧ file.type = .inode ∧ file.ip = k

instance (file : File) (k : Nat) : Decidable (counts file k) := inferInstanceAs (Decidable (_ ∧ _))

/-- A changed file gives what it referred to to the running call, and takes from it what it
refers to. -/
theorem inv_modifyFile {i : Nat} {f : File → File} (held' : Nat → Int) (good : Inv held s)
    (inside : i < nfile) (idle : (f (s.file i)).ref = 0 → (f (s.file i)).type = .none)
    (moves : ∀ k, held' k + (if counts (f (s.file i)) k then 1 else 0) =
      held k + if counts (s.file i) k then 1 else 0) :
    wp (modifyFile i f) (fun _ t => Inv held' t ∧ t.proc = s.proc ∧ t.file i = f (s.file i))
      anyHalt s := by
  unfold modifyFile
  rw [wp_modify]
  refine ⟨⟨⟨?_, ?_, good.sound.dead⟩, ⟨rfl, ?_, good.bal.inside, good.bal.unique⟩⟩, rfl, ?_⟩
  · intro j
    dsimp only [users]
    split
    · rename_i at_i
      rw [at_i]
      exact idle
    · exact good.sound.idle j
  · intro j past
    dsimp only [users]
    rw [if_neg (by omega)]
    exact good.sound.bound j past
  · intro k
    have total := count_range_update inside (opens (users s) k)
      (fun j => counts (if j = i then f (s.file j) else s.file j) k)
      (fun j other => by rw [if_neg other]; rfl)
    have before : (if opens (users s) k i then 1 else 0 : Int) =
      if counts (s.file i) k then 1 else 0 := rfl
    rw [before, if_pos rfl] at total
    have exact : (s.inode k).ref = files (users s) k + cwds (users s) k + held k :=
      good.bal.exact k
    have move := moves k
    unfold files at exact
    change (s.inode k).ref =
      ((∑ j ∈ range nfile, if counts (if j = i then f (s.file j) else s.file j) k then 1 else 0 :
        Nat) : Int) + cwds (users s) k + held' k
    omega
  · simp

/-- The same for a changed process. -/
theorem inv_modifyProc {f : Proc → Proc} (held' : Nat → Int) (good : Inv held s)
    (inside : p < nproc) (dead : (f (s.proc p)).live = false → (f (s.proc p)).cwd = none)
    (moves : ∀ k, held' k + (if (f (s.proc p)).cwd = some k then 1 else 0) =
      held k + if (s.proc p).cwd = some k then 1 else 0) :
    wp (modifyProc p f) (fun _ t => Inv held' t) anyHalt s := by
  unfold modifyProc
  rw [wp_modify]
  refine ⟨⟨good.sound.idle, good.sound.bound, ?_⟩, ⟨rfl, ?_, good.bal.inside, good.bal.unique⟩⟩
  · intro q
    dsimp only [users]
    split
    · rename_i at_p
      rw [at_p]
      exact dead
    · exact good.sound.dead q
  · intro k
    have total := count_range_update inside (fun q => (s.proc q).cwd = some k)
      (fun q => (if q = p then f (s.proc q) else s.proc q).cwd = some k)
      (fun q other => by rw [if_neg other])
    rw [if_pos rfl] at total
    have exact : (s.inode k).ref = files (users s) k +
        ((∑ q ∈ range nproc, if (s.proc q).cwd = some k then 1 else 0 : Nat) : Int) + held k :=
      good.bal.exact k
    have move := moves k
    change (s.inode k).ref = files (users s) k + ((∑ q ∈ range nproc,
      if (if q = p then f (s.proc q) else s.proc q).cwd = some k then 1 else 0 : Nat) : Int) + held' k
    omega

theorem Inv.file_lt {i : Nat} (good : Inv held s) (used : ¬(s.file i).ref < 1) : i < nfile := by
  by_contra past
  have unused : (s.file i).ref = 0 := good.sound.bound i (by omega)
  omega

theorem inv_filedup (i : Nat) (good : Inv held s) :
    wp (filedup i) (fun _ t => Inv held t ∧ t.proc = s.proc) anyHalt s := by
  unfold filedup
  rw [wp_read]
  split
  · exact balanced_throw _ _
  · rename_i used
    apply wp_mono (inv_modifyFile held good (good.file_lt used) ?_ ?_)
    · intro _ t done
      exact ⟨done.1, done.2.1⟩
    · grind
    · grind [counts]

theorem inv_iput (good : Inv (add held ip) s) :
    wp (iput ip) (fun _ t => Inv held t) anyHalt s :=
  wp_mono (balanced_put good.bal) fun _ _ bal => bal.inv good.sound

theorem inv_iunlockput (good : Inv (add held ip) s) :
    wp (iunlockput ip) (fun _ t => Inv held t) anyHalt s :=
  inv_seq (keeps_iunlock ip) good fun _ _ good => inv_iput good

theorem inv_fileclose (i : Nat) (good : Inv held s) :
    wp (fileclose i) (fun _ t => Inv held t) anyHalt s := by
  unfold fileclose
  rw [wp_read]
  dsimp only
  split
  · exact balanced_throw _ _
  · rename_i used
    have inside := good.file_lt used
    split
    · refine wp_mono (inv_modifyFile held good inside ?_ ?_) fun _ t done => done.1
      · grind
      · grind [counts]
    · by_cases type : (s.file i).type = .inode
      · -- The last reference: the call has the reference of the file to put.
        refine wp_seq (inv_modifyFile (add held (s.file i).ip) good inside ?_ ?_) ?_
        · exact fun _ => rfl
        · grind [counts, add]
        · rintro _ t ⟨good, -⟩
          rw [if_pos type]
          exact inv_seq keeps_beginOp good fun _ _ good => inv_iput good
      · refine wp_seq (inv_modifyFile held good inside ?_ ?_) ?_
        · exact fun _ => rfl
        · grind [counts]
        · rintro _ t ⟨good, -⟩
          rw [if_neg type]
          exact wp_ret good

theorem inv_filealloc (good : Inv held s) :
    wp filealloc (fun r t => Inv held t ∧ (t.proc = s.proc) ∧
      ∀ i, r = some i → (t.file i).ref = 1 ∧ (t.file i).type = .none) anyHalt s := by
  unfold filealloc
  rw [wp_read]
  cases free : firstSlot nfile fun i => (s.file i).ref = 0 with
  | none => exact wp_ret ⟨good, rfl, fun i none => by cases none⟩
  | some i =>
    obtain ⟨inside, unused⟩ := firstSlot_some free
    simp only [decide_eq_true_eq] at unused
    have idle : (s.file i).type = .none := good.sound.idle i unused
    refine wp_seq (inv_modifyFile held good inside ?_ ?_) ?_
    · grind
    · grind [counts]
    · rintro _ t ⟨good, same, new⟩
      refine wp_ret ⟨good, same, fun j here => ?_⟩
      cases here
      rw [new]
      exact ⟨rfl, idle⟩

theorem inv_sysDup (p : Nat) (fd : Int) (good : Inv held s) :
    wp (sysDup p fd) (fun _ t => Inv held t) anyHalt s := by
  apply inv_seq (keeps_argfd p fd) good
  intro r t good
  match r with
  | none => exact wp_ret good
  | some (_, f) =>
    apply inv_seq (keeps_fdalloc p f) good
    intro r t good
    cases r with
    | none => exact wp_ret good
    | some fd => exact wp_seq (inv_filedup f good) fun _ _ done => wp_ret done.1

theorem inv_sysDup2 (p : Nat) (oldfd newfd : Int) (good : Inv held s) :
    wp (sysDup2 p oldfd newfd) (fun _ t => Inv held t) anyHalt s := by
  have first : ∀ fnew, wp (fileOps.closeFirst p newfd.toNat fnew) (fun _ t => Inv held t) anyHalt s := by
    intro fnew
    cases fnew with
    | none => exact wp_ret good
    | some f => exact inv_seq (keeps_setOfile _ _ _) good fun _ _ good => inv_fileclose f good
  refine (reads_ofile True.intro rfl p s).wp_sysDup2 (fun _ => good) fun fold _ _ _ _ => ?_
  apply wp_seq (first _)
  intro _ t good
  exact wp_seq (inv_filedup fold good) fun _ _ done =>
    inv_seq (keeps_setOfile _ _ _) done.1 fun _ _ good => wp_ret good

theorem inv_sysClose (p : Nat) (fd : Int) (good : Inv held s) :
    wp (sysClose p fd) (fun _ t => Inv held t) anyHalt s := by
  apply inv_seq (keeps_argfd p fd) good
  intro r t good
  match r with
  | none => exact wp_ret good
  | some (fd, f) =>
    apply inv_seq (keeps_setOfile _ _ _) good
    intro _ t good
    exact wp_seq (inv_fileclose f good) fun _ _ good => wp_ret good

theorem inv_sysOpen (path : List UInt8) (omode : Nat) (bound : p < nproc)
    (good : Inv nobody s) : wp (sysOpen p path omode) (fun _ t => Inv nobody t) anyHalt s := by
  apply inv_seq keeps_beginOp good
  intro _ t good
  apply wp_seq (balanced_openInode path omode bound good.bal)
  intro r t bal
  have opened := bal.inv good.sound
  cases r with
  | none => exact wp_ret opened
  | some ip =>
    have leave : ∀ t, Inv (add nobody ip) t → wp (iunlockput ip >>= fun _ => pure (-1 : Int))
        (fun _ t => Inv nobody t) anyHalt t := fun t good =>
      wp_seq (inv_iunlockput good) fun _ _ good => wp_ret good
    apply wp_seq (inv_filealloc opened)
    rintro r t ⟨good, -, new⟩
    cases r with
    | none => exact leave t good
    | some f =>
      obtain ⟨one, idle⟩ := new f rfl
      apply wp_seq (keeps_fdalloc p f t)
      intro r t1 same
      cases r with
      | none =>
        exact wp_seq (inv_fileclose f (good.congr same)) fun _ t good => leave t good
      | some fd =>
        apply wp_seq (keeps_iunlock ip t1)
        intro _ t2 same'
        have file : users t2 = users t := congrArg Prod.snd (same'.trans same)
        have one' : (t2.file f).ref = 1 := (congrFun (congrArg Users.fileRef file) f).trans one
        have idle' : (t2.file f).type = .none :=
          (congrFun (congrArg Users.fileType file) f).trans idle
        have good' := good.congr (same'.trans same)
        -- The reference of the call becomes that of the file.
        refine wp_seq (inv_modifyFile nobody good' (good'.file_lt (by omega)) ?_ ?_) ?_
        · grind
        · intro k
          simp [counts, one', idle', taken, add, eq_comm]
        · exact fun _ t done => wp_ret done.1

theorem balanced_putCwd (cwd : Option Nat) (bal : Balanced u held s) :
    wp (putCwd cwd) (fun _ t => ∃ ip, cwd = some ip ∧ Balanced u (drop held ip) t) anyHalt s := by
  cases cwd with
  | none => exact balanced_throw _ _
  | some ip => exact wp_mono (balanced_iput ip bal) fun _ t bal => ⟨ip, rfl, bal⟩

theorem inv_sysChdir (path : List UInt8) (bound : p < nproc) (live : (s.proc p).live = true)
    (good : Inv nobody s) :
    wp (sysChdir p path) (fun _ t => Inv nobody t) anyHalt s := by
  apply balanced_seq keeps_beginOp good.bal
  intro _ t bal
  apply wp_seq (balanced_namei path bound bal fun _ => le_refl 0)
  intro r t bal
  cases r with
  | none => exact wp_ret (bal.inv good.sound)
  | some ip =>
    apply balanced_seq (keeps_ilock ip) bal
    intro _ t bal
    have here : (t.proc p).cwd = (s.proc p).cwd := congrFun (congrArg Users.cwd bal.same) p
    rw [wp_read]
    split
    · exact wp_seq (inv_iunlockput (bal.inv good.sound)) fun _ t good => wp_ret good
    · apply balanced_seq (keeps_iunlock ip) bal
      intro _ t bal
      apply wp_seq (balanced_putCwd _ bal)
      rintro _ t ⟨old, cwd, bal⟩
      rw [here] at cwd
      have cwd' : (t.proc p).cwd = some old := (congrFun (congrArg Users.cwd bal.same) p).trans cwd
      have live' : (t.proc p).live = true := (congrFun (congrArg Users.live bal.same) p).trans live
      refine wp_seq (inv_modifyProc nobody (bal.inv good.sound) bound ?_ ?_) ?_
      · grind
      · intro k
        simp [taken, add, drop, cwd', eq_comm]
      · exact fun _ t good => wp_ret good

theorem inv_dupFiles (p np n : Nat) (good : Inv held s) :
    wp (fileOps.dupFiles p np n) (fun _ t => Inv held t ∧ ∀ q, (t.proc q).live = (s.proc q).live)
      anyHalt s := by
  induction n with
  | zero => exact wp_ret ⟨good, fun _ => rfl⟩
  | succ n ih =>
    apply wp_seq ih
    rintro _ t ⟨good, live⟩
    apply wp_seq (reads_ofile True.intro rfl p t n)
    rintro r _ ⟨rfl, -⟩
    cases r with
    | none => exact wp_ret ⟨good, live⟩
    | some f =>
      apply wp_seq (inv_filedup f good)
      rintro _ t1 ⟨good1, same⟩
      apply wp_mono (keeps_setOfile np n (some f) t1)
      intro _ t2 same'
      refine ⟨good1.congr same', fun q => ?_⟩
      have users2 : users t2 = users t1 := congrArg Prod.snd same'
      have live2 : (t2.proc q).live = (t1.proc q).live := congrFun (congrArg Users.live users2) q
      rw [live2, same, live]

theorem inv_forkFiles {np : Nat} (bound : p < nproc) (new : np < nproc)
    (free : (s.proc np).live = false) (good : Inv nobody s) :
    wp (forkFiles p np) (fun _ t => Inv nobody t) anyHalt s := by
  apply wp_seq (inv_dupFiles p np nofile good)
  rintro _ t ⟨good, live⟩
  rw [wp_read]
  cases here : (t.proc p).cwd with
  | none => exact balanced_throw _ _
  | some cwd =>
    apply wp_seq (balanced_idup good.bal (good.bal.cwd_used bound here (le_refl 0)))
    rintro ip t1 ⟨rfl, bal⟩
    have unused : (t.proc np).cwd = none := good.sound.dead np ((live np).trans free)
    have unused' : (t1.proc np).cwd = none :=
      (congrFun (congrArg Users.cwd bal.same) np).trans unused
    refine inv_modifyProc nobody (bal.inv good.sound) new ?_ ?_
    · grind
    · grind [add]

theorem inv_closeFiles (p n : Nat) (good : Inv held s) :
    wp (fileOps.closeFiles p n) (fun _ t => Inv held t) anyHalt s := by
  induction n with
  | zero => exact wp_ret good
  | succ n ih =>
    apply wp_seq ih
    intro _ t good
    apply wp_seq (reads_ofile True.intro rfl p t n)
    rintro r _ ⟨rfl, -⟩
    cases r with
    | none => exact wp_ret good
    | some f =>
      exact wp_seq (inv_fileclose f good) fun _ _ good => inv_keeps (keeps_setOfile _ _ _) good

theorem inv_exitFiles (bound : p < nproc) (good : Inv nobody s) :
    wp (exitFiles p) (fun _ t => Inv nobody t) anyHalt s := by
  apply wp_seq (inv_closeFiles p nofile good)
  intro _ t good
  apply inv_seq keeps_beginOp good
  intro _ t good
  rw [wp_read]
  apply wp_seq (balanced_putCwd _ good.bal)
  rintro _ t1 ⟨old, cwd, bal⟩
  have cwd' : (t1.proc p).cwd = some old := (congrFun (congrArg Users.cwd bal.same) p).trans cwd
  refine inv_modifyProc nobody (bal.inv good.sound) bound ?_ ?_
  · exact fun _ => rfl
  · grind [drop]

theorem inv_userinit (bound : p < nproc) (free : (s.proc p).live = false)
    (good : Inv nobody s) : wp (userinit p) (fun _ t => Inv nobody t) anyHalt s := by
  apply wp_seq (balanced_namei [slash] bound good.bal fun _ => le_refl 0)
  intro r t bal
  cases r with
  | none => exact balanced_throw _ _
  | some ip =>
    have unused : (s.proc p).cwd = none := good.sound.dead p free
    have unused' : (t.proc p).cwd = none := (congrFun (congrArg Users.cwd bal.same) p).trans unused
    refine inv_modifyProc nobody (bal.inv good.sound) bound ?_ ?_
    · grind
    · intro k
      simp [taken, add, unused', eq_comm]

theorem inv_ignore (spec : wp m (fun _ t => Inv nobody t) anyHalt s) :
    wp (ignore m) (fun _ t => Inv nobody t) anyHalt s :=
  wp_seq spec fun _ _ good => wp_ret good

theorem inv_perform {act : Action} (can : enabled s act) (good : Inv nobody s) :
    wp (perform act) (fun _ t => Inv nobody t) anyHalt s := by
  have plain : ∀ {α : Type} {m : FsM α}, wp m (fun _ t => Balanced (users s) nobody t) anyHalt s →
      wp (ignore m) (fun _ t => Inv nobody t) anyHalt s := fun spec =>
    inv_ignore (wp_mono spec fun _ _ bal => bal.inv good.sound)
  cases act with
  | userinit p => exact inv_userinit can.1 (can.2 p) good
  | fork p np => exact inv_forkFiles can.2.1 can.2.2.1 can.2.2.2 good
  | exit p => exact inv_exitFiles can.2 good
  | exec p path reads =>
    exact wp_mono (balanced_execFile path reads can.2 good.bal) fun _ _ bal => bal.inv good.sound
  | openFile p path omode => exact inv_ignore (inv_sysOpen path omode can.2 good)
  | close p fd => exact inv_ignore (inv_sysClose p fd good)
  | dup p fd => exact inv_ignore (inv_sysDup p fd good)
  | dup2 p oldfd newfd => exact inv_ignore (inv_sysDup2 p oldfd newfd good)
  | read p fd n => exact plain (balanced_keeps (keeps_sysRead p fd n) good.bal)
  | write p fd addr n => exact plain (balanced_keeps (keeps_sysWrite p fd addr n) good.bal)
  | fstat p fd => exact plain (balanced_keeps (keeps_sysFstat p fd) good.bal)
  | link p old new => exact plain (balanced_sysLink old new can.2 good.bal)
  | unlink p path => exact plain (balanced_sysUnlink path can.2 good.bal)
  | mkdir p path => exact plain (balanced_sysMkdir path can.2 good.bal)
  | mknod p path major minor => exact plain (balanced_sysMknod path major minor can.2 good.bal)
  | chdir p path => exact inv_ignore (inv_sysChdir path can.2 can.1 good)
  | input console => exact (wp_modify ..).mpr (good.congr rfl)

end Specs

theorem inv_mount (disk : Disk) : Inv nobody (mount disk) := by
  constructor
  · exact ⟨fun _ _ => rfl, fun _ _ => rfl, fun _ _ => rfl⟩
  · constructor
    · rfl
    · intro k
      simp [files, cwds, opens, users, mount, nobody]
    · intro k used
      cases used
    · intro j k used
      cases used

/-- Between two system calls the entries in use cache different inodes, and the reference count
of an entry is the number of open files and working directories that are that entry. -/
theorem inode_refs_balanced {disk : Disk} {acts : List Action} {s : Fs}
    (run : Run Step (mount disk) acts s) :
    (∀ j k, 0 < (s.inode j).ref → 0 < (s.inode k).ref →
      (s.inode j).inum = (s.inode k).inum → j = k) ∧
    ∀ k, (s.inode k).ref =
      #{i ∈ range nfile | 0 < (s.file i).ref ∧ (s.file i).type = .inode ∧ (s.file i).ip = k} +
      #{p ∈ range nproc | (s.proc p).cwd = some k} := by
  have good : Inv nobody s := by
    apply run.preserves (Inv nobody) _ (inv_mount disk)
    rintro s act t good ⟨can, done⟩
    have after := wp_ok (inv_perform can good) done
    exact after
  refine ⟨good.bal.unique, fun k => ?_⟩
  have exact := good.bal.exact k
  rw [files, cwds, ← card_filter, ← card_filter, nobody, add_zero] at exact
  exact exact

/-- The state after a system call that returns. -/
def after (s : Fs) (act : Action) : Fs :=
  match perform act s with
  | .ok (_, t) => t
  | .error _ => s

/-- A disk on which inode 1 is an empty directory. -/
def rootOnly : Disk := fun b =>
  if b = 0 then putDinode zeroBlock (inodeOff rootIno) { type := tDir, nlink := 1 } else zeroBlock

theorem step_after {s : Fs} (act : Action) (can : enabled s act)
    (returns : (perform act s).toBool = true) : Step s act (after s act) := by
  refine ⟨can, ?_⟩
  unfold after
  cases result : perform act s with
  | ok r => rfl
  | error e =>
    rw [result] at returns
    cases returns

theorem inode_refs_balanced_root :
    ∃ s, Run Step (mount rootOnly)
        [.userinit 0, .openFile 0 [slash] oRdonly, .fork 0 1] s ∧
      (s.inode 0).ref = 3 ∧ (s.inode 0).ref =
        #{i ∈ range nfile | 0 < (s.file i).ref ∧ (s.file i).type = .inode ∧ (s.file i).ip = 0} +
        #{p ∈ range nproc | (s.proc p).cwd = some 0} := by
  have run := Run.cons (step_after (s := mount rootOnly) (.userinit 0)
    ⟨by decide, fun _ => rfl⟩ (by decide +kernel))
    (.cons (step_after (.openFile 0 [slash] oRdonly)
      ⟨by decide +kernel, by decide⟩ (by decide +kernel))
    (.cons (step_after (.fork 0 1)
      ⟨by decide +kernel, by decide, by decide, by decide +kernel⟩ (by decide +kernel)) (.nil _)))
  exact ⟨_, run, by decide +kernel, (inode_refs_balanced run).2 0⟩

end ColorXv6.Fs.InodeRefs
