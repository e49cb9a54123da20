import ColorXv6.Fs.DirEntries
import ColorXv6.Fs.Truncate
import ColorXv6.Lib.Holdings

/-!
What a system call holds while it runs: references to entries of the inode cache, and locks.
The functions of fs.c are said in these terms to move them and to change inodes.
-/
namespace ColorXv6.Fs.Calls
open Function Lib.LittleEndian Lib.Slots Lib.Wp Lib.SlotMap Lib.Holdings Param Layout BlockMap Inode
open Directory SysFile Regions Growth Writes Store CacheOps Truncate DirEntries

/-- A directory is a number of entries, which name inodes that there are. -/
structure DirOk (count : Nat) (n : Node) : Prop where
  whole : n.size % direntSize = 0
  known : ∀ j < (dir n).len, ∀ key i, (dir n).slot j = some (key, i) → i < count

/-- In the middle of a call: the entries of the cache are referred to `refs` times, and those in
`locks` are locked. -/
structure Mid (refs : Nat → Int) (locks : Finset Nat) (s : Fs) : Prop where
  good : Consistent s
  count : ∀ k, (s.inode k).ref = refs k
  nonneg : ∀ k, 0 ≤ refs k
  locked : ∀ k, (s.inode k).locked = true ↔ k ∈ locks
  mine : ∀ k ∈ locks, Loaded s k

/-- What no function of fs.c changes while the references `refs` are kept. -/
structure Frame (refs : Nat → Int) (s t : Fs) : Prop extends Beside s t where
  inum : ∀ k, 0 < refs k → (t.inode k).inum = (s.inode k).inum
  valid : ∀ k, 0 < refs k → (s.inode k).valid = true → (t.inode k).valid = true

/-- Only the cache has changed. -/
structure Quiet (refs : Nat → Int) (s t : Fs) : Prop extends Frame refs s t where
  disk : t.disk = s.disk
  logged : t.logged = s.logged

/-- Some reference of `refs` is to inode `i`. -/
def Used (refs : Nat → Int) (s : Fs) (i : Nat) : Prop := ∃ k, 0 < refs k ∧ (s.inode k).inum = i

/-- The blocks given to `log_write` since `s` are among `B`. -/
def Logs (s t : Fs) (B : Nat → Prop) : Prop := ∀ c ∈ t.logged, c ∈ s.logged ∨ B c

/-- A block of the free map. -/
def IsBitmap (sb : Superblock) (c : Nat) : Prop := ∃ b < sb.size, c = bblock sb b

/-- What dropping a reference to inode `i` in entry `ip` has done. -/
inductive Released (refs : Nat → Int) (s t : Fs) (ip i : Nat) : Prop where
  | kept (quiet : Quiet refs s t)
      (still : (s.inode ip).valid = true → (node s i).nlink = 0 → Used refs s i)
  | freed (frame : Frame refs s t) (nodes : node t = update (node s) i (freed (node s i)))
      (type : (node s i).type ≠ 0) (nlink : (node s i).nlink = 0) (unused : ¬ Used refs s i)
      (logs : Logs s t fun c => IsBitmap s.sb c ∨ c = iblock s.sb i)

/-- Entries of the cache that are not in use. -/
def freeSlots (refs : Nat → Int) : Nat := ((Finset.range ninode).filter fun k => refs k = 0).card

section Frame
variable {refs refs' : Nat → Int} {s t u : Fs}

theorem Frame.refl (refs : Nat → Int) (s : Fs) : Frame refs s s :=
  ⟨⟨rfl, rfl, rfl, rfl⟩, fun _ _ => rfl, fun _ _ valid => valid⟩

theorem Quiet.refl (refs : Nat → Int) (s : Fs) : Quiet refs s s := ⟨.refl refs s, rfl, rfl⟩

theorem Frame.trans (first : Frame refs s t) (later : Frame refs t u) : Frame refs s u where
  toBeside := first.toBeside.trans later.toBeside
  inum := fun k ref => (later.inum k ref).trans (first.inum k ref)
  valid := fun k ref valid => later.valid k ref (first.valid k ref valid)

theorem Quiet.trans (first : Quiet refs s t) (later : Quiet refs t u) : Quiet refs s u :=
  ⟨first.toFrame.trans later.toFrame, later.disk.trans first.disk, later.logged.trans first.logged⟩

theorem Frame.weaken (frame : Frame refs s t) (fewer : ∀ k, 0 < refs' k → 0 < refs k) :
    Frame refs' s t :=
  ⟨frame.toBeside, fun k ref => frame.inum k (fewer k ref),
    fun k ref => frame.valid k (fewer k ref)⟩

theorem Quiet.weaken (quiet : Quiet refs s t) (fewer : ∀ k, 0 < refs' k → 0 < refs k) :
    Quiet refs' s t :=
  ⟨quiet.toFrame.weaken fewer, quiet.disk, quiet.logged⟩

theorem Quiet.region_eq (quiet : Quiet refs s t) : region t = region s :=
  region_congr quiet.disk quiet.sb

theorem Quiet.node_eq (quiet : Quiet refs s t) : node t = node s := by
  unfold node place
  rw [quiet.region_eq]

theorem add_pos {i k : Nat} (ref : 0 < refs k) : 0 < add refs i k := by
  unfold add
  split <;> omega

theorem pos_add_self {i : Nat} (nonneg : 0 ≤ refs i) : 0 < add refs i i := by
  unfold add
  rw [if_pos rfl]
  omega

theorem add_nonneg {i : Nat} (nonneg : ∀ k, 0 ≤ refs k) (k : Nat) : 0 ≤ add refs i k := by
  have := nonneg k
  unfold add
  split <;> omega

theorem Used.congr {i : Nat} (frame : Frame refs s t) : Used refs t i ↔ Used refs s i := by
  constructor
  · rintro ⟨k, ref, here⟩
    exact ⟨k, ref, (frame.inum k ref).symm.trans here⟩
  · rintro ⟨k, ref, here⟩
    exact ⟨k, ref, (frame.inum k ref).trans here⟩

theorem freeSlots_add (refs : Nat → Int) (ip : Nat) : freeSlots refs ≤ freeSlots (add refs ip) + 1 := by
  have sub : (Finset.range ninode).filter (fun k => refs k = 0) ⊆
      insert ip ((Finset.range ninode).filter fun k => add refs ip k = 0) := by
    intro k mem
    obtain ⟨inside, free⟩ := Finset.mem_filter.mp mem
    by_cases here : k = ip
    · exact Finset.mem_insert.mpr (.inl here)
    · refine Finset.mem_insert_of_mem (Finset.mem_filter.mpr ⟨inside, ?_⟩)
      unfold add
      rw [if_neg here, free]
      rfl
  exact (Finset.card_le_card sub).trans (Finset.card_insert_le _ _)

end Frame

section Cache
variable {refs : Nat → Int} {locks : Finset Nat} {s t : Fs} {ip i : Nat} {E : Halt → Prop}

theorem Mid.unlocked (mid : Mid refs locks s) (free : ip ∉ locks) : (s.inode ip).locked = false := by
  rw [Bool.eq_false_iff]
  exact fun held => free ((mid.locked ip).mp held)

theorem Mid.ref_pos (mid : Mid refs locks s) (held : ip ∈ locks) : 0 < refs ip := by
  rw [← mid.count]
  exact (mid.mine ip held).ref

/-- One entry is set. -/
theorem Mid.set {refs' : Nat → Int} {locks' : Finset Nat} {x : Inode} (mid : Mid refs locks s)
    (entry : 0 < x.ref → Entry s ip x) (here : x.ref = refs' ip) (nonneg : 0 ≤ refs' ip)
    (others : ∀ k, k ≠ ip → refs' k = refs k ∧ (k ∈ locks' ↔ k ∈ locks))
    (locked : x.locked = true ↔ ip ∈ locks') (mine : ip ∈ locks' → 0 < x.ref ∧ x.valid = true) :
    Mid refs' locks' (setInode s ip x) where
  good := consistent_setInode mid.good entry
  count := by
    intro k
    by_cases same : k = ip
    · rw [same, setInode_self, here]
    · rw [setInode_other same, (others k same).1, mid.count]
  nonneg := by
    intro k
    by_cases same : k = ip
    · rwa [same]
    · rw [(others k same).1]
      exact mid.nonneg k
  locked := by
    intro k
    by_cases same : k = ip
    · rw [same, setInode_self, locked]
    · rw [setInode_other same, (others k same).2, mid.locked]
  mine := by
    intro k held
    by_cases same : k = ip
    · rw [same] at held ⊢
      obtain ⟨ref, valid⟩ := mine held
      exact ⟨by rwa [setInode_self], by rwa [setInode_self]⟩
    · have loaded := mid.mine k ((others k same).2.mp held)
      exact ⟨by rw [setInode_other same]; exact loaded.ref, by
        rw [setInode_other same]; exact loaded.valid⟩

theorem quiet_setInode {x : Inode} (same : 0 < refs ip → x.inum = (s.inode ip).inum ∧
    ((s.inode ip).valid = true → x.valid = true)) : Quiet refs s (setInode s ip x) := by
  refine ⟨⟨only_setInode.toBeside, fun k ref => ?_, fun k ref valid => ?_⟩, rfl, rfl⟩
  · by_cases here : k = ip
    · rw [here, setInode_self]
      exact (same (here ▸ ref)).1
    · rw [setInode_other here]
  · by_cases here : k = ip
    · rw [here] at ref valid ⊢
      rw [setInode_self]
      exact (same ref).2 valid
    · rwa [setInode_other here]

section Mid
variable (mid : Mid refs locks s)
include mid

/-- The entry a call refers to once more. -/
theorem Mid.more (ref : 0 < refs ip) :
    Mid (add refs ip) locks (setInode s ip { s.inode ip with ref := (s.inode ip).ref + 1 }) := by
  have count := mid.count ip
  have used : 0 < (s.inode ip).ref := by omega
  refine mid.set (fun _ => entry_in_use mid.good used rfl (mid.good.coherent ip used)) ?_ ?_ ?_
    (mid.locked ip) fun held => ⟨?_, (mid.mine ip held).valid⟩
  · unfold add
    rw [if_pos rfl, count]
  · exact add_nonneg mid.nonneg ip
  · intro k other
    unfold add
    rw [if_neg other, Int.add_zero]
    exact ⟨rfl, Iff.rfl⟩
  · dsimp only
    omega

theorem Mid.wp_idup (ref : 0 < refs ip) :
    wp (idup ip) (fun r t => r = ip ∧ Mid (add refs ip) locks t ∧ Quiet (add refs ip) s t) E s := by
  unfold idup
  rw [wp_bind, wp_modifyInode, wp_pure]
  exact ⟨rfl, mid.more ref, quiet_setInode fun _ => ⟨rfl, id⟩⟩

theorem Mid.canGet (some : freeSlots refs ≠ 0) : CanGet s i := by
  obtain ⟨k, mem⟩ := Finset.card_pos.mp (Nat.pos_of_ne_zero some)
  obtain ⟨inside, free⟩ := Finset.mem_filter.mp mem
  exact ⟨k, Finset.mem_range.mp inside, .inr ((mid.count k).trans free)⟩

/-- What is known of an entry that was taken. -/
theorem Mid.got (known : i < s.sb.ninodes) (got : Got s t ip i) :
    Mid (add refs ip) locks t ∧ Quiet refs s t := by
  have count := mid.count ip
  cases got with
  | shared _ ref _ after =>
    rw [after]
    exact ⟨mid.more (by omega), quiet_setInode fun _ => ⟨rfl, id⟩⟩
  | fresh inside free alone after =>
    have idle : ip ∉ locks := by
      intro held
      have := mid.ref_pos held
      omega
    rw [after]
    refine ⟨mid.set (fun _ => ⟨inside, known, fun l _ ref => ?_, nofun⟩) ?_ ?_ ?_ (mid.locked ip)
      fun held => absurd held idle, quiet_setInode fun ref => ?_⟩
    · exact alone l (mid.good.entries l ref).1 ref
    · unfold add
      rw [if_pos rfl, ← count, free]
      rfl
    · exact add_nonneg mid.nonneg ip
    · intro k other
      unfold add
      rw [if_neg other, Int.add_zero]
      exact ⟨rfl, Iff.rfl⟩
    · omega

theorem Mid.wp_iget (known : i < s.sb.ninodes) (full : freeSlots refs = 0 → E .igetNoInodes) :
    wp (iget i) (fun ip t => Mid (add refs ip) locks t ∧ (t.inode ip).inum = i ∧ Quiet refs s t) E s := by
  apply wp_mono (CacheOps.wp_iget i fun cannot => full (by
    by_contra some
    exact cannot (mid.canGet some)))
  intro ip t got
  obtain ⟨mid, quiet⟩ := mid.got known got
  exact ⟨mid, got.inum_eq, quiet⟩

end Mid

/-- A lock that the call already has is never given. -/
theorem wp_acquiresleep_held {α : Type} {rest : Unit → FsM α} {Q : α → Fs → Prop}
    (held : (s.inode ip).locked = true) (stop : E .deadlock) :
    wp (acquiresleep ip >>= rest) Q E s := by
  unfold acquiresleep
  rw [wp_bind, wp_read, if_pos held, wp_throw]
  exact stop

section Locks
variable (mid : Mid refs locks s)
include mid

theorem Mid.wp_ilock (ref : 0 < refs ip)
    (none : (node s (s.inode ip).inum).type = 0 → E .ilockNoType)
    (dead : ip ∈ locks → E .deadlock) :
    wp (ilock ip) (fun _ t => ip ∉ locks ∧ Mid refs (insert ip locks) t ∧ Quiet refs s t ∧
      (node s (s.inode ip).inum).type ≠ 0) E s := by
  have used : 0 < (s.inode ip).ref := by rwa [mid.count]
  by_cases held : ip ∈ locks
  · unfold ilock
    rw [wp_read, if_neg (by omega)]
    exact wp_acquiresleep_held ((mid.locked ip).mpr held) (dead held)
  · apply wp_mono (CacheOps.wp_ilock used (mid.good.entries ip used).2 (mid.good.coherent ip used)
      (mid.unlocked held) none)
    rintro _ t ⟨rfl, type⟩
    refine ⟨held, ?_, quiet_setInode fun _ => ⟨rfl, fun _ => rfl⟩, type⟩
    refine mid.set (fun _ => entry_in_use mid.good used rfl fun _ => ⟨rfl, type⟩) (mid.count ip)
      (mid.nonneg ip) (fun k other => ⟨rfl, ?_⟩) ?_ fun _ => ⟨used, rfl⟩
    · rw [Finset.mem_insert]
      exact or_iff_right other
    · exact ⟨fun _ => Finset.mem_insert_self ip locks, fun _ => rfl⟩

theorem Mid.wp_iunlock (held : ip ∈ locks) :
    wp (iunlock ip) (fun _ t => Mid refs (locks.erase ip) t ∧ Quiet refs s t) E s := by
  have loaded := mid.mine ip held
  apply wp_mono (CacheOps.wp_iunlock loaded.ref ((mid.locked ip).mpr held))
  rintro _ t rfl
  refine ⟨?_, quiet_setInode fun _ => ⟨rfl, id⟩⟩
  refine mid.set (fun _ => entry_in_use mid.good loaded.ref rfl (mid.good.coherent ip loaded.ref))
    (mid.count ip) (mid.nonneg ip) (fun k other => ⟨rfl, ?_⟩) ?_ fun still => ?_
  · rw [Finset.mem_erase]
    exact and_iff_right other
  · exact ⟨nofun, fun still => absurd still (Finset.notMem_erase ip locks)⟩
  · exact absurd still (Finset.notMem_erase ip locks)

/-- The entry after its last reference has gone. -/
theorem Mid.put (ref : 0 < refs ip) (free : ip ∉ locks) (put : Put s t ip) :
    Mid (drop refs ip) locks t ∧ Released (drop refs ip) s t ip (s.inode ip).inum := by
  have count := mid.count ip
  have used : 0 < (s.inode ip).ref := by omega
  have others : ∀ k, k ≠ ip → drop refs ip k = refs k := by
    intro k other
    unfold drop
    rw [if_neg other, Int.sub_zero]
  have here : drop refs ip ip = refs ip - 1 := by
    unfold drop
    rw [if_pos rfl]
  have nonneg : ∀ k, 0 ≤ drop refs ip k := by
    intro k
    by_cases same : k = ip
    · rw [same, here]
      omega
    · rw [others k same]
      exact mid.nonneg k
  have good := put.consistent mid.good used
  cases put with
  | kept still after =>
    rw [after]
    refine ⟨mid.set (fun _ => entry_in_use mid.good used rfl (mid.good.coherent ip used)) ?_ (nonneg ip)
      (fun k other => ⟨others k other, Iff.rfl⟩) (mid.locked ip) fun held => absurd held free,
      .kept (quiet_setInode fun _ => ⟨rfl, id⟩) fun valid nlink => ⟨ip, ?_, rfl⟩⟩
    · rw [here, count]
    · have din := mid.good.din_eq ⟨used, valid⟩
      have many : (s.inode ip).ref ≠ 1 := fun one => still ⟨valid, by rw [din]; exact nlink, one⟩
      omega
  | freed last gone =>
    have loaded : Loaded s ip := ⟨used, last.1⟩
    have din := mid.good.din_eq loaded
    have nodes := node_freed mid.good loaded gone rfl
    have locked : ∀ k, (t.inode k).locked = (s.inode k).locked := by
      intro k
      by_cases same : k = ip
      · rw [same, gone.self, mid.unlocked free]
        rfl
      · rw [gone.others k same]
    constructor
    · refine ⟨good, ?_, nonneg, ?_, ?_⟩
      · intro k
        by_cases same : k = ip
        · rw [same, gone.self, here, ← count, last.2.2]
          rfl
        · rw [gone.others k same, others k same, mid.count]
      · intro k
        rw [locked, mid.locked]
      · intro k held
        have same : k ≠ ip := fun same => free (same ▸ held)
        have loaded := mid.mine k held
        exact ⟨by rw [gone.others k same]; exact loaded.ref, by
          rw [gone.others k same]; exact loaded.valid⟩
    · refine .freed ⟨gone.toBeside, fun k refs => ?_, fun k ref valid => ?_⟩
        nodes ?_ ?_ ?_ ?_
      · by_cases same : k = ip
        · rw [same, gone.self]
          rfl
        · rw [gone.others k same]
      · have same : k ≠ ip := by
          rintro rfl
          omega
        rwa [gone.others k same]
      · have type := (mid.good.coherent ip used last.1).2
        rw [din] at type
        exact type
      · have nlink := last.2.1
        rw [din] at nlink
        exact nlink
      · rintro ⟨k, ref, same⟩
        by_cases self : k = ip
        · rw [self, here] at ref
          omega
        · rw [others k self] at ref
          exact self (mid.good.single k ip (by rwa [mid.count]) used same)
      · intro c mem
        rcases gone.logged c mem with before | bitmap | inode
        · exact .inl before
        · exact .inr (.inl bitmap)
        · exact .inr (.inr inode)

theorem Mid.wp_iput (ref : 0 < refs ip) (dead : ip ∈ locks → E .deadlock) :
    wp (iput ip) (fun _ t => Mid (drop refs ip) locks t ∧
      Released (drop refs ip) s t ip (s.inode ip).inum) E s := by
  by_cases held : ip ∈ locks
  · unfold iput
    exact wp_acquiresleep_held ((mid.locked ip).mpr held) (dead held)
  · apply wp_mono (Truncate.wp_iput mid.good (by rwa [mid.count]) (mid.unlocked held))
    intro _ t put
    exact mid.put ref held put

end Locks

/-- A release after a change of the cache only. -/
theorem Released.after {u : Fs} (quiet : Quiet refs s t)
    (valid : (s.inode ip).valid = true → (t.inode ip).valid = true) (released : Released refs t u ip i) :
    Released refs s u ip i := by
  cases released with
  | kept later still =>
    rw [quiet.node_eq, Used.congr quiet.toFrame] at still
    exact .kept (quiet.trans later) fun here => still (valid here)
  | freed frame nodes type nlink unused logs =>
    rw [quiet.node_eq] at nodes type nlink
    rw [Used.congr quiet.toFrame] at unused
    refine .freed (quiet.toFrame.trans frame) nodes type nlink unused fun c mem => ?_
    rw [← quiet.logged, ← quiet.sb]
    exact logs c mem

theorem Released.frame (released : Released refs s t ip i) : Frame refs s t := by
  cases released with
  | kept quiet _ => exact quiet.toFrame
  | freed frame _ _ _ _ _ => exact frame

theorem drop_pos {k : Nat} (ref : 0 < drop refs ip k) : 0 < refs k := by
  unfold drop at ref
  split at ref <;> omega

theorem Mid.wp_iunlockput (mid : Mid refs locks s) (held : ip ∈ locks) :
    wp (iunlockput ip) (fun _ t => Mid (drop refs ip) (locks.erase ip) t ∧
      Released (drop refs ip) s t ip (s.inode ip).inum) E s := by
  have ref := mid.ref_pos held
  apply wp_seq (mid.wp_iunlock held)
  rintro _ t ⟨mid, quiet⟩
  apply wp_mono (mid.wp_iput ref fun still => absurd still (Finset.notMem_erase ip locks))
  rintro _ u ⟨mid, released⟩
  rw [quiet.inum ip ref] at released
  exact ⟨mid, released.after (quiet.weaken fun _ => drop_pos) (quiet.valid ip ref)⟩

end Cache

/-! Directories and inodes. -/

section Contents
variable {refs : Nat → Int} {locks : Finset Nat} {s t : Fs} {ip dp d i : Nat} {E : Halt → Prop}

/-- The directory in an entry that the call has locked. -/
theorem Mid.opened (mid : Mid refs locks s) (held : dp ∈ locks) (inum : (s.inode dp).inum = d)
    (type : (node s d).type = tDir) (whole : (node s d).size % direntSize = 0) : Opened s dp d where
  good := mid.good
  loaded := mid.mine dp held
  inum := inum
  type := type
  mine := (mid.locked dp).mpr held
  locks := fun k locked => (mid.mine k ((mid.locked k).mp locked)).ref
  whole := whole

theorem DirOk.get_lt {count : Nat} {n : Node} {key : List UInt8} (ok : DirOk count n)
    (bound : (dir n).get key = some i) : i < count := by
  cases found : (dir n).find key with
  | none =>
    rw [get_eq_none.mpr found] at bound
    cases bound
  | some j =>
    have slot := get_of_find found
    rw [bound] at slot
    exact ok.known j (find_some found).1 key i slot

theorem Mid.wp_dirlookup (mid : Mid refs locks s) (held : dp ∈ locks) (inum : (s.inode dp).inum = d)
    (type : (node s d).type = tDir) (ok : DirOk s.sb.ninodes (node s d)) (name : Bytes)
    (full : freeSlots refs = 0 → E .igetNoInodes) :
    wp (dirlookup dp name) (fun r t =>
      r = none ∧ t = s ∧ (dir (node s d)).get (nameOf name) = none ∨
      ∃ ip j i, r = some (ip, direntSize * j) ∧ (dir (node s d)).find (nameOf name) = some j ∧
        (dir (node s d)).get (nameOf name) = some i ∧ Mid (add refs ip) locks t ∧
        (t.inode ip).inum = i ∧ Quiet refs s t) E s := by
  apply wp_mono (DirEntries.wp_dirlookup (mid.opened held inum type ok.whole) name fun i _ cannot => full (by
    by_contra some
    exact cannot (mid.canGet some)))
  rintro r t (none | ⟨ip, j, i, result, found, bound, got⟩)
  · exact .inl none
  · obtain ⟨mid, quiet⟩ := mid.got (ok.get_lt bound) got
    exact .inr ⟨ip, j, i, result, found, bound, mid, got.inum_eq, quiet⟩

/-- Counts and locks of the cache are as before. -/
structure Tallied (s t : Fs) (k : Nat) : Prop where
  ref : (t.inode k).ref = (s.inode k).ref
  locked : (t.inode k).locked = (s.inode k).locked
  valid : (t.inode k).valid = (s.inode k).valid
  inum : (t.inode k).inum = (s.inode k).inum

theorem Mid.tallied (mid : Mid refs locks s) (same : ∀ k, Tallied s t k) (good : Consistent t) :
    Mid refs locks t where
  good := good
  count := fun k => (same k).ref.trans (mid.count k)
  nonneg := mid.nonneg
  locked := by
    intro k
    rw [(same k).locked, mid.locked]
  mine := by
    intro k held
    have loaded := mid.mine k held
    exact ⟨by rw [(same k).ref]; exact loaded.ref, by rw [(same k).valid]; exact loaded.valid⟩

theorem frame_of_tallied (same : ∀ k, Tallied s t k) (beside : Beside s t) : Frame refs s t :=
  ⟨beside, fun k _ => (same k).inum, fun k _ valid => (same k).valid.trans valid⟩

/-- Only what the cache has of inode `ip` from the disk differs. -/
theorem tallied_of_din {x : Dinode} (self : t.inode ip = { s.inode ip with din := x })
    (others : ∀ k, k ≠ ip → t.inode k = s.inode k) (k : Nat) : Tallied s t k := by
  by_cases here : k = ip
  · rw [here]
    constructor <;> rw [self]
  · constructor <;> rw [others k here]

/-- An entry of a directory is cleared. -/
theorem Mid.wp_clear {j : Nat} (mid : Mid refs locks s) (opened : Opened s dp d)
    (inside : j < (dir (node s d)).len) :
    wp (writei dp zeroBlock (direntSize * j) direntSize) (fun r t => r = direntSize ∧
      Mid refs locks t ∧ Frame refs s t ∧
      node t = update (node s) d ((node s d).write (direntSize * j) direntSize zeroBlock)) E s := by
  have size := opened.size
  have within : direntSize * j + direntSize ≤ (s.inode dp).din.size := by
    rw [size, opened.len]
    exact Nat.mul_le_mul_left direntSize inside
  have limit := opened.size_le
  have mapped : ¬ room (cover (direntSize * j) direntSize) s dp < 0 := by
    have none : (cover (direntSize * j) direntSize).filter (fun pos => block s dp pos = 0) = ∅ := by
      rw [Finset.filter_eq_empty_iff]
      intro pos mem
      rw [mid.good.block_eq opened.loaded, opened.inum]
      exact mid.good.cover_mapped (by rw [← opened.din]; exact within) mem
    unfold room
    rw [none, Finset.card_empty]
    omega
  apply wp_mono (mid.good.wp_writei opened.loaded zeroBlock (by rw [opened.isDir]; decide)
    (by omega) (by omega) (covers_cover _ _) fun full => absurd full mapped)
  rintro r t ⟨rfl, wrote, good, nodes, -⟩
  obtain ⟨addrs, self⟩ := wrote.self
  have same := tallied_of_din self wrote.others
  rw [opened.inum] at nodes
  exact ⟨rfl, mid.tallied same good, frame_of_tallied same wrote.toBeside, nodes⟩

/-- The inode with one link less, as a `short` counts them. -/
def unlinked (n : Node) : Node := { n with nlink := toShort (n.nlink - 1) }

/-- The count of links is changed and written back. -/
theorem Mid.wp_unlink {α : Type} {rest : FsM α} {Q : α → Fs → Prop} (mid : Mid refs locks s)
    (held : ip ∈ locks) (inum : (s.inode ip).inum = i)
    (after : ∀ t, Mid refs locks t → Frame refs s t →
      node t = update (node s) i (unlinked (node s i)) → wp rest Q E t) :
    wp (modifyDin ip (fun d => { d with nlink := toShort (d.nlink - 1) }) >>= fun _ =>
      iupdate ip >>= fun _ => rest) Q E s := by
  subst inum
  have loaded := mid.mine ip held
  have good := mid.good
  have din := good.din_eq loaded
  have fits : (s.inode ip).din.Fits := by
    rw [din]
    exact dino_fits s _
  rw [wp_bind]
  apply wp_mono (wp_changeDin good.laid (good.entries ip loaded.ref).2
    { fits with nlink := short_range _ })
  intro _ t updates
  rw [wp_bind]
  apply wp_mono updates
  intro _ u changed
  have kept : Kept s u ip := by
    refine ⟨changed.filled (good.owns loaded) rfl, ⟨_, changed.self⟩, fun j other => ?_, ?_⟩
    · rw [changed.region]
      exact update_of_ne other _ _
    · rw [changed.region, changed.self]
      exact update_self _ _ _
  have nodes : node u = update (node s) (s.inode ip).inum (unlinked (node s (s.inode ip).inum)) := by
    funext j
    by_cases here : j = (s.inode ip).inum
    · rw [here, update_self, kept.node_self, changed.self]
      unfold unlinked node
      rw [← din]
      congr 1
      funext k
      dsimp only
      split
      · rename_i inside
        have same := good.content_eq loaded inside
        rw [changed.content rfl, same]
        unfold node
        dsimp only
        rw [← din, if_pos inside]
      · rfl
    · rw [update_of_ne here, kept.node_other good loaded here]
  have consistent : Consistent u := by
    refine kept.consistent good loaded ?_ fun bn inside => ?_
    · rw [changed.self]
      exact (good.coherent ip loaded.ref loaded.valid).2
    · rw [changed.self] at inside
      rw [changed.block rfl, good.block_eq loaded]
      exact good.mapped _ bn (by rwa [← din])
  have same := tallied_of_din changed.self changed.others
  exact after u (mid.tallied same consistent) (frame_of_tallied same changed.toBeside) nodes

end Contents

end ColorXv6.Fs.Calls
