import ColorXv6.Fs.Calls

/-!
A directory is a finite map from names to inode numbers, over its whole history of `dirlink` and
`sys_unlink`. Both take the inode under the name while they hold the directory, and wait for its
lock, which they never get if that inode is the directory itself.
-/
namespace ColorXv6.Fs.DirMap
open Function Lib.LittleEndian Lib.Slots Lib.Wp Lib.Runs Lib.SlotMap Lib.Holdings Param Layout BlockMap
open Inode Directory SysFile Regions Growth Writes Store CacheOps Truncate DirEntries Calls

/-- `sys_unlink` refuses these names. -/
def IsDots (key : List UInt8) : Prop := key = nameOf dot ∨ key = nameOf dotdot

instance (key : List UInt8) : Decidable (IsDots key) :=
  inferInstanceAs (Decidable (key = nameOf dot ∨ key = nameOf dotdot))

/-- The slots after the first two are empty. -/
def Empty (n : Node) : Prop := ∀ j, 2 ≤ j → j < (dir n).len → (dir n).slot j = none

/-- `sys_unlink` removes no directory that has names. -/
def Removable (n : Node) : Prop := n.type = tDir → Empty n

/-- What `sys_unlink` needs of the inode it unlinks. -/
structure Reached (s : Fs) (i : Nat) : Prop where
  room : CanGet s i
  idle : ¬ Busy s i
  type : (node s i).type ≠ 0
  nlink : 1 ≤ (node s i).nlink

/-- An inode that was `n`, after a reference to it was dropped. -/
def Dropped (n after : Node) (last : Prop) : Prop := after = n ∨ after = freed n ∧ n.nlink = 0 ∧ last

/-- The directory without its entry `j`, which named an inode of this type. -/
def without (n : Node) (j : Nat) (type : Int) : Node :=
  if type = tDir then unlinked (n.write (direntSize * j) direntSize zeroBlock)
  else n.write (direntSize * j) direntSize zeroBlock

/-- How `sys_unlink` came back from directory `d`. -/
inductive Outcome (s t : Fs) (d : Nat) (key : List UInt8) (last : Prop) (r : Int) : Prop where
  | refused (result : r = -1) (others : ∀ k, k ≠ d → node t k = node s k)
      (rest : Dropped (node s d) (node t d) last)
      (why : IsDots key ∨ (dir (node s d)).get key = none ∨
        ∃ i, (dir (node s d)).get key = some i ∧ Reached s i ∧ ¬ Removable (node s i))
  | removed (i j : Nat) (result : r = 0) (name : ¬ IsDots key)
      (find : (dir (node s d)).find key = some j) (get : (dir (node s d)).get key = some i)
      (reached : Reached s i) (removable : Removable (node s i))
      (others : ∀ k, k ≠ d → k ≠ i → node t k = node s k)
      (rest : Dropped (without (node s d) j (node s i).type) (node t d) last)

variable {key : List UInt8} {j i : Nat}

section Removal
variable {refs : Nat → Int} {locks : Finset Nat} {s t u : Fs} {ip dp d i : Nat} {E : Halt → Prop}

/-- What dropping a reference does to the inodes. -/
theorem Dropped.of_released (released : Released (drop refs ip) s t ip i)
    (inum : (s.inode ip).inum = i) (ref : 0 < refs ip) :
    (∀ k, k ≠ i → node t k = node s k) ∧ Dropped (node s i) (node t i) (refs ip = 1) := by
  cases released with
  | kept quiet _ =>
    rw [quiet.node_eq]
    exact ⟨fun _ _ => rfl, .inl rfl⟩
  | freed _ nodes _ nlink unused _ =>
    rw [nodes, update_self]
    refine ⟨fun k other => update_of_ne other _ _, .inr ⟨rfl, nlink, ?_⟩⟩
    have none : ¬ 0 < drop refs ip ip := fun more => unused ⟨ip, more, inum⟩
    rw [drop, if_pos rfl] at none
    omega

/-- Its links keep an inode. -/
theorem Released.quiet_of_linked (released : Released refs s t ip i) (linked : 1 ≤ (node s i).nlink) :
    Quiet refs s t := by
  cases released with
  | kept quiet _ => exact quiet
  | freed _ _ _ nlink _ _ => omega

/-- Where `sys_unlink` gives up. -/
theorem wp_putBad (mid : Mid refs locks t) (held : dp ∈ locks) (quiet : Quiet refs s t)
    (inum : (t.inode dp).inum = d)
    (why : IsDots key ∨ (dir (node s d)).get key = none ∨
      ∃ i, (dir (node s d)).get key = some i ∧ Reached s i ∧ ¬ Removable (node s i)) :
    wp (putBad dp) (fun r u => Consistent u ∧ Outcome s u d key (refs dp = 1) r) E t := by
  apply wp_seq (mid.wp_iunlockput held)
  rintro _ u ⟨after, released⟩
  rw [inum] at released
  obtain ⟨others, rest⟩ := Dropped.of_released released inum (mid.ref_pos held)
  rw [quiet.node_eq] at others rest
  exact wp_ret ⟨after.good, .refused rfl others rest why⟩

theorem wp_dropParent (mid : Mid refs locks s) (held : dp ∈ locks) (inum : (s.inode dp).inum = d)
    (type : Int) :
    wp (dropParent dp type) (fun _ t => Mid refs locks t ∧ Frame refs s t ∧
      node t = update (node s) d (if type = tDir then unlinked (node s d) else node s d)) E s := by
  unfold dropParent
  split
  · rw [← bind_pure (iupdate dp)]
    exact mid.wp_unlink held inum fun t mid frame nodes => wp_ret ⟨mid, frame, nodes⟩
  · exact wp_ret ⟨mid, .refl refs s, (update_eq_self d (node s)).symm⟩

theorem wp_mayRemove (mid : Mid refs locks s) (held : ip ∈ locks) (inum : (s.inode ip).inum = i)
    (whole : (node s i).type = tDir → (node s i).size % direntSize = 0) :
    wp (mayRemove ip (node s i).type) (fun r t => t = s ∧ (r = true ↔ Removable (node s i))) E s := by
  unfold mayRemove
  split
  · rename_i isDir
    have opened := mid.opened held inum isDir (whole isDir)
    apply wp_mono (wp_isdirempty opened)
    rintro r t ⟨same, empty⟩
    exact ⟨same, empty.trans ⟨fun empty _ => empty, fun all => all isDir⟩⟩
  · rename_i file
    exact wp_ret ⟨rfl, fun _ isDir => absurd isDir file, fun _ => rfl⟩

/-- The end of `sys_unlink`, with both inodes locked. -/
theorem wp_removeEntry (mid : Mid (add refs ip) locks t) (mine : ip ∈ locks) (held : dp ∈ locks)
    (distinct : ip ≠ dp) (nodes : node t = node s) (opened : Opened t dp d)
    (inum : (t.inode ip).inum = i) (name : ¬ IsDots key) (find : (dir (node s d)).find key = some j)
    (get : (dir (node s d)).get key = some i) (reached : Reached s i)
    (removable : Removable (node s i)) :
    wp (removeEntry dp ip (direntSize * j) (node s i).type)
      (fun r u => Consistent u ∧ Outcome s u d key (refs dp = 1) r) E t := by
  have refD := mid.ref_pos held
  have refI := mid.ref_pos mine
  have other : i ≠ d := by
    intro same
    refine distinct (mid.good.single ip dp ?_ ?_ (by rw [inum, opened.inum, same]))
    · rwa [mid.count]
    · rwa [mid.count]
  have count : add refs ip dp = refs dp := by
    unfold add
    rw [if_neg distinct.symm, Int.add_zero]
  apply wp_seq (mid.wp_clear opened (by rw [nodes]; exact (find_some find).1))
  rintro r t1 ⟨rfl, mid1, frame1, nodes1⟩
  rw [if_neg (fun no => no rfl)]
  have here1 := (frame1.inum dp refD).trans opened.inum
  apply wp_seq (wp_dropParent mid1 held here1 _)
  rintro _ t2 ⟨mid2, frame2, nodes2⟩
  have nodes2 : node t2 = update (node s) d (without (node s d) j (node s i).type) := by
    rw [nodes2, nodes1, update_self, update_idem, nodes]
    rfl
  have here2 := (frame2.inum dp refD).trans here1
  apply wp_seq (mid2.wp_iunlockput held)
  rintro _ t3 ⟨mid3, released3⟩
  rw [here2] at released3
  obtain ⟨others3, rest3⟩ := Dropped.of_released released3 here2 refD
  rw [nodes2, update_self, count] at rest3
  -- entry `ip` is still in use, so it is still for inode `i`
  have still : 0 < drop (add refs ip) dp ip := by
    rwa [drop, if_neg distinct, Int.sub_zero]
  have inum3 : (t3.inode ip).inum = i := by
    rw [released3.frame.inum ip still, frame2.inum ip refI, frame1.inum ip refI, inum]
  have mine3 : ip ∈ locks.erase dp := Finset.mem_erase.mpr ⟨distinct, mine⟩
  refine mid3.wp_unlink mine3 inum3 fun t4 mid4 frame4 nodes4 => ?_
  have inum4 := (frame4.inum ip still).trans inum3
  apply wp_seq (mid4.wp_iunlockput mine3)
  rintro _ t5 ⟨mid5, released5⟩
  rw [inum4] at released5
  obtain ⟨others5, -⟩ := Dropped.of_released released5 inum4 still
  refine wp_ret ⟨mid5.good, .removed i j rfl name find get reached removable (fun k away apart => ?_) ?_⟩
  · rw [others5 k apart, nodes4, update_of_ne apart, others3 k away, nodes2, update_of_ne away]
  · rw [others5 d other.symm, nodes4, update_of_ne other.symm]
    exact rest3

/-- `sys_unlink` with the inode under the name in hand. -/
theorem wp_unlinkFound (mid : Mid refs locks s) (held : dp ∈ locks) (opened : Opened s dp d)
    (got : Got s t ip i) (inside : i < s.sb.ninodes)
    (whole : (node s i).type = tDir → (node s i).size % direntSize = 0) (name : ¬ IsDots key)
    (find : (dir (node s d)).find key = some j) (get : (dir (node s d)).get key = some i)
    (stop : ∀ e, ¬ Reached s i → E e) :
    wp (unlinkFound dp ip (direntSize * j))
      (fun r u => Consistent u ∧ Outcome s u d key (refs dp = 1) r) E t := by
  obtain ⟨mid1, quiet1⟩ := mid.got inside got
  have ref := pos_add_self (i := ip) (mid.nonneg ip)
  have inum := got.inum_eq
  apply wp_seq (mid1.wp_ilock ref (fun none => ?_) fun locked => ?_)
  · rintro _ u ⟨free, mid2, quiet2, type⟩
    have distinct : ip ≠ dp := fun same => free (same ▸ held)
    have mine := Finset.mem_insert_self ip locks
    have held2 : dp ∈ insert ip locks := Finset.mem_insert_of_mem held
    have quiet : Quiet refs s u := quiet1.trans (quiet2.weaken fun _ => add_pos)
    have nodes := quiet.node_eq
    have here := (quiet.inum dp (mid.ref_pos held)).trans opened.inum
    have inum2 := (quiet2.inum ip ref).trans inum
    have din := mid2.good.din_eq (mid2.mine ip mine)
    have nlink_eq : (u.inode ip).din.nlink = (node s i).nlink := by
      rw [din, inum2, ← nodes]
      rfl
    have type_eq : (u.inode ip).din.type = (node s i).type := by
      rw [din, inum2, ← nodes]
      rfl
    have idle : ¬ Busy s i := by
      rw [← opened.locked_iff got]
      exact fun locked => free ((mid.locked ip).mp locked)
    rw [inum, quiet1.node_eq] at type
    rw [wp_read]
    dsimp only
    rw [nlink_eq, type_eq]
    split
    · rename_i few
      exact wp_fail (stop _ fun reached => by have := reached.nlink; omega)
    · rename_i links
      have reached : Reached s i := ⟨got.canGet, idle, type, by omega⟩
      have may := wp_mayRemove (E := E) mid2 mine inum2 (by rw [nodes]; exact whole)
      rw [nodes] at may
      apply wp_seq may
      rintro yes v ⟨rfl, removable⟩
      cases yes with
      | true =>
        exact wp_removeEntry mid2 mine held2 distinct nodes
          (mid2.opened held2 here (by rw [nodes]; exact opened.type) (by rw [nodes]; exact opened.whole))
          inum2 name find get reached (removable.mp rfl)
      | false =>
        have full : ¬ Removable (node s i) := fun all => Bool.noConfusion (removable.mpr all)
        rw [if_neg Bool.false_ne_true]
        apply wp_seq (mid2.wp_iunlockput mine)
        rintro _ w ⟨mid3, released⟩
        rw [drop_add] at mid3 released
        rw [Finset.erase_insert free] at mid3
        rw [inum2] at released
        have quiet3 := Released.quiet_of_linked released (by rw [nodes]; exact reached.nlink)
        exact wp_putBad mid3 held (quiet.trans quiet3)
          ((quiet3.inum dp (mid.ref_pos held)).trans here) (.inr (.inr ⟨i, get, reached, full⟩))
  · rw [inum, quiet1.node_eq] at none
    exact stop _ fun reached => reached.type none
  · have busy := (opened.locked_iff got).mp ((mid.locked ip).mpr locked)
    exact stop _ fun reached => reached.idle busy

/-- `sys_unlink` from the lock of the directory on. -/
theorem wp_unlinkFrom (mid : Mid refs locks s) (held : dp ∈ locks) (opened : Opened s dp d) (name : Bytes)
    (known : ∀ i, (dir (node s d)).get (nameOf name) = some i → i < s.sb.ninodes ∧
      ((node s i).type = tDir → (node s i).size % direntSize = 0))
    (stop : ∀ i e, ¬ IsDots (nameOf name) → (dir (node s d)).get (nameOf name) = some i →
      ¬ Reached s i → E e) :
    wp (unlinkFrom dp name) (fun r t => Consistent t ∧ Outcome s t d (nameOf name) (refs dp = 1) r)
      E s := by
  have names : (namecmp name dot = 0 ∨ namecmp name dotdot = 0) ↔ IsDots (nameOf name) := by
    rw [namecmp_eq_zero, namecmp_eq_zero]
    rfl
  unfold unlinkFrom
  split
  · rename_i dots
    exact wp_putBad mid held (.refl refs s) opened.inum (.inl (names.mp dots))
  · rename_i other
    rw [names] at other
    apply wp_seq (wp_dirlookup opened name fun i get cannot =>
      stop i _ other get fun reached => cannot reached.room)
    rintro r t (⟨rfl, rfl, absent⟩ | ⟨ip, j, i, rfl, find, get, got⟩)
    · exact wp_putBad mid held (.refl refs t) opened.inum (.inr (.inl absent))
    · obtain ⟨inside, whole⟩ := known i get
      exact wp_unlinkFound mid held opened got inside whole other find get fun e => stop i e other get

end Removal

/-! The history of a directory. -/

abbrev Names := List UInt8 → Option Nat

/-- A call that has returned, or anything else that leaves the directory alone. -/
inductive Op where
  | link (name : Bytes) (inum : Nat) (r : Int)
  | remove (name : Bytes) (r : Int)
  | other

/-- Some process has directory `d` locked, in entry `dp` of the cache. -/
structure Using (s : Fs) (dp d : Nat) : Prop where
  mid : ∃ locks, Mid (fun k => (s.inode k).ref) locks s ∧ dp ∈ locks
  inum : (s.inode dp).inum = d
  type : (node s d).type = tDir

/-- The inode under the name is one of the table, and a directory is a number of entries. -/
def Known (s : Fs) (d : Nat) (key : List UInt8) : Prop :=
  ∀ i, (dir (node s d)).get key = some i →
    i < s.sb.ninodes ∧ ((node s i).type = tDir → (node s i).size % direntSize = 0)

/-- Directory `d` is used by whoever has it locked, in any entry of the cache. -/
inductive Step (d : Nat) : Fs → Op → Fs → Prop where
  | link {s t : Fs} {dp inum : Nat} {name : Bytes} {r : Int} (use : Using s dp d)
      (nonzero : inum ≠ 0) (small : inum < 2 ^ 16) (below : (node s d).size < maxFile * bsize)
      (result : dirlink dp name inum s = .ok (r, t)) : Step d s (.link name inum r) t
  | remove {s t : Fs} {dp : Nat} {name : Bytes} {r : Int} (use : Using s dp d)
      (known : Known s d (nameOf name)) (result : unlinkFrom dp name s = .ok (r, t)) :
      Step d s (.remove name r) t
  | other {s t : Fs} (good : Consistent t) (same : node t d = node s d) : Step d s .other t

/-- What a call makes of the names. -/
def Op.apply (m : Names) : Op → Names
  | .link name inum r => if r < 0 then m else update m (nameOf name) (some inum)
  | .remove name r => if r < 0 then m else update m (nameOf name) none
  | .other => m

/-- The inode numbers most recently linked under each name and not removed since. -/
def names (d parent : Nat) (ops : List Op) : Names :=
  ops.foldl Op.apply fun key =>
    if key = nameOf dot then some d else if key = nameOf dotdot then some parent else none

/-- A directory with its first two entries. -/
structure Dotted (s : Fs) (d parent : Nat) : Prop where
  good : Consistent s
  type : (node s d).type = tDir
  whole : (node s d).size % direntSize = 0
  two : 2 ≤ (dir (node s d)).len
  here : (dir (node s d)).slot 0 = some (nameOf dot, d)
  above : (dir (node s d)).slot 1 = some (nameOf dotdot, parent)

/-- It has no others. -/
structure Fresh (s : Fs) (d parent : Nat) : Prop extends Dotted s d parent where
  rest : ∀ i, 2 ≤ i → i < (dir (node s d)).len → (dir (node s d)).slot i = none

/-- The state of a directory whose names are `m`. -/
structure Inv (s : Fs) (d parent : Nat) (m : Names) : Prop extends Dotted s d parent where
  distinct : Distinct (dir (node s d))
  get : (dir (node s d)).get = m

section History
variable {s t : Fs} {dp d parent : Nat} {m : Names}

theorem dot_ne_dotdot : nameOf dot ≠ nameOf dotdot := by decide

theorem Fresh.slot_eq (fresh : Fresh s d parent) {v : Nat} (inside : i < (dir (node s d)).len)
    (entry : (dir (node s d)).slot i = some (key, v)) :
    i = 0 ∧ key = nameOf dot ∧ v = d ∨ i = 1 ∧ key = nameOf dotdot ∧ v = parent := by
  match i with
  | 0 =>
    have same := Prod.mk.inj (Option.some.inj (entry.symm.trans fresh.here))
    exact .inl ⟨rfl, same⟩
  | 1 =>
    have same := Prod.mk.inj (Option.some.inj (entry.symm.trans fresh.above))
    exact .inr ⟨rfl, same⟩
  | i + 2 =>
    rw [fresh.rest _ (Nat.le_add_left 2 i) inside] at entry
    cases entry

theorem Fresh.inv (fresh : Fresh s d parent) : Inv s d parent (names d parent []) := by
  have distinct : Distinct (dir (node s d)) := by
    intro i j key v w first second left right
    rcases fresh.slot_eq first left with ⟨rfl, rfl, -⟩ | ⟨rfl, rfl, -⟩
    · rcases fresh.slot_eq second right with ⟨rfl, -⟩ | ⟨-, same, -⟩
      · rfl
      · exact absurd same dot_ne_dotdot
    · rcases fresh.slot_eq second right with ⟨-, same, -⟩ | ⟨rfl, -⟩
      · exact absurd same.symm dot_ne_dotdot
      · rfl
  refine ⟨fresh.toDotted, distinct, ?_⟩
  funext key
  apply Option.ext
  intro v
  have two := fresh.two
  rw [get_eq_some distinct]
  change _ ↔ (if key = nameOf dot then some d else if key = nameOf dotdot then some parent else none) =
    some v
  constructor
  · rintro ⟨i, inside, entry⟩
    rcases fresh.slot_eq inside entry with ⟨-, rfl, rfl⟩ | ⟨-, rfl, rfl⟩
    · rw [if_pos rfl]
    · rw [if_neg dot_ne_dotdot.symm, if_pos rfl]
  · intro bound
    split at bound
    · rename_i same
      cases bound
      exact ⟨0, by omega, by rw [fresh.here, same]⟩
    · obtain ⟨same, rfl⟩ := guarded bound
      exact ⟨1, by omega, by rw [fresh.above, same]⟩

variable (inv : Inv s d parent m)
include inv

theorem Inv.opened (use : Using s dp d) : Opened s dp d := by
  obtain ⟨locks, mid, held⟩ := use.mid
  exact mid.opened held use.inum use.type inv.whole

/-- An unchanged directory. -/
theorem Inv.congr (good : Consistent t) (same : node t d = node s d) :
    Inv t d parent m := by
  refine ⟨⟨good, ?_, ?_, ?_, ?_, ?_⟩, ?_, ?_⟩
  all_goals rw [same]
  · exact inv.type
  · exact inv.whole
  · exact inv.two
  · exact inv.here
  · exact inv.above
  · exact inv.distinct
  · exact inv.get

/-- A slot after the first two was set. -/
theorem Inv.set {e : Option (List UInt8 × Nat)} {m' : Names} (good : Consistent t) (late : 2 ≤ i)
    (type : (node t d).type = tDir) (whole : (node t d).size % direntSize = 0)
    (slots : dir (node t d) = (dir (node s d)).set i e)
    (distinct : Distinct ((dir (node s d)).set i e)) (get : ((dir (node s d)).set i e).get = m') :
    Inv t d parent m' := by
  refine ⟨⟨good, type, whole, ?_, ?_, ?_⟩, by rwa [slots], by rwa [slots]⟩
  · rw [slots]
    exact Nat.le_trans inv.two (Nat.le_max_left _ _)
  · rw [slots]
    exact (update_of_ne (by omega) _ _).trans inv.here
  · rw [slots]
    exact (update_of_ne (by omega) _ _).trans inv.above

theorem Inv.whole_write (i : Nat) (de : Bytes) :
    ((node s d).write (direntSize * i) direntSize de).size % direntSize = 0 := by
  have whole := inv.whole
  unfold Node.write
  dsimp only
  unfold direntSize at *
  omega

/-- The first two slots are in use. -/
theorem Inv.vacant_late : 2 ≤ (dir (node s d)).vacant := by
  by_contra early
  have empty := vacant_empty (dir (node s d)) (by have := inv.two; omega)
  obtain zero | one : (dir (node s d)).vacant = 0 ∨ (dir (node s d)).vacant = 1 := by omega
  · rw [zero, inv.here] at empty
    cases empty
  · rw [one, inv.above] at empty
    cases empty

/-- A name that is not one of the first two has a later slot. -/
theorem Inv.find_late (other : ¬ IsDots key)
    (found : (dir (node s d)).find key = some j) : 2 ≤ j := by
  obtain ⟨-, v, slot⟩ := find_some found
  by_contra early
  obtain rfl | rfl : j = 0 ∨ j = 1 := by omega
  · rw [inv.here] at slot
    exact other (.inl (Prod.mk.inj (Option.some.inj slot)).1.symm)
  · rw [inv.above] at slot
    exact other (.inr (Prod.mk.inj (Option.some.inj slot)).1.symm)

theorem Inv.linked {name : Bytes} {inum : Nat} (linked : Linked s t dp d name inum)
    (absent : (dir (node s d)).get (nameOf name) = none) (nonzero : inum ≠ 0)
    (small : inum < 2 ^ 16) :
    Inv t d parent (update m (nameOf name) (some inum)) := by
  have le := vacant_le (dir (node s d))
  have here : node t d = (node s d).write (direntSize * (dir (node s d)).vacant) direntSize
      (makeDirent name inum) := by rw [linked.nodes, update_self]
  refine inv.set (e := some (nameOf name, inum)) linked.good inv.vacant_late (by rw [here]; exact inv.type)
    (by rw [here]; exact inv.whole_write _ _) ?_ (distinct_set_some inv.distinct absent le) ?_
  · rw [here, dir_write _ _ _ inv.whole, entryOf_makeDirent name nonzero small]
  · rw [get_set_some inv.distinct absent le (vacant_empty _), inv.get]

/-- The entry of a name is cleared, and a link of the directory may go with it. -/
theorem Inv.without {type : Int} (good : Consistent t) (other : ¬ IsDots key)
    (found : (dir (node s d)).find key = some j)
    (here : node t d = without (node s d) j type) : Inv t d parent (update m key none) := by
  have slots : dir (node t d) = (dir (node s d)).set j none := by
    rw [here, ← entryOf_zeroBlock, ← dir_write _ _ _ inv.whole]
    unfold DirMap.without
    split <;> rfl
  have inside := (find_some found).1
  refine inv.set good (inv.find_late other found) ?_ ?_ slots
    (distinct_set_none inv.distinct (Nat.le_of_lt inside)) ?_
  · rw [here]
    unfold DirMap.without
    split <;> exact inv.type
  · rw [here]
    unfold DirMap.without
    split <;> exact inv.whole_write j zeroBlock
  · rw [get_set_none inv.distinct found, inv.get]

/-- The names are `m`, or the directory had no link left and this was its last user. -/
def Left (s t : Fs) (dp d : Nat) (m : Names) : Prop :=
  (node t d).type = tDir ∧ (dir (node t d)).get = m ∨
    (node t d).type = 0 ∧ (node t d).nlink = 0 ∧ (s.inode dp).ref = 1

omit inv in
theorem Inv.left (inv : Inv t d parent m) : Left s t dp d m := .inl ⟨inv.type, inv.get⟩

omit inv in
theorem Dropped.left {n : Node} (rest : Dropped n (node t d) ((s.inode dp).ref = 1))
    (kept : node t d = n → Inv t d parent m) :
    Left s t dp d m ∧ ((node t d).type = tDir → Inv t d parent m) := by
  rcases rest with same | ⟨gone, nlink, last⟩
  · exact ⟨(kept same).left, fun _ => kept same⟩
  · have type : (node t d).type = 0 := by rw [gone]; rfl
    refine ⟨.inr ⟨type, by rw [gone]; exact nlink, last⟩, fun isDir => ?_⟩
    rw [type] at isDir
    cases isDir

/-- What `sys_unlink` does to the names. -/
theorem Inv.outcome {name : Bytes} {r : Int} (good : Consistent t)
    (outcome : Outcome s t d (nameOf name) ((s.inode dp).ref = 1) r) :
    Left s t dp d ((Op.remove name r).apply m) ∧
      ((node t d).type = tDir → Inv t d parent ((Op.remove name r).apply m)) := by
  cases outcome with
  | refused result _ rest _ =>
    subst result
    exact Dropped.left rest fun same => inv.congr good same
  | removed i j result other find _ _ _ _ rest =>
    subst result
    exact Dropped.left rest fun same => inv.without good other find same

/-- One step of the history, as long as the directory is there. -/
theorem Inv.step {op : Op} (step : Step d s op t) (isDir : (node t d).type = tDir) :
    Inv t d parent (op.apply m) := by
  cases step with
  | link use nonzero small below result =>
    have spec := wp_ok (wp_dirlink (inv.opened use) _ _ (covers_cover _ _) (E := fun _ => True)
      (fun _ _ _ => True.intro) (fun _ _ _ => True.intro) (fun _ _ => True.intro)
      fun _ _ => True.intro) result
    rcases spec with ⟨i, -, -, -, rfl, idle⟩ | ⟨absent, rfl, linked, -⟩
    · exact inv.congr (idle.consistent inv.good) (by rw [idle.node_eq])
    · exact inv.linked linked absent nonzero small
  | remove use known result =>
    obtain ⟨locks, mid, held⟩ := use.mid
    obtain ⟨good, outcome⟩ := wp_ok (wp_unlinkFrom mid held (inv.opened use) _ known
      (E := fun _ => True) fun _ _ _ _ _ => True.intro) result
    exact (inv.outcome good outcome).2 isDir
  | other good same => exact inv.congr good same

omit inv in
/-- A directory that is there at the end was there all the time. -/
theorem Step.isDir {op : Op} (step : Step d s op t) (isDir : (node t d).type = tDir) :
    (node s d).type = tDir := by
  cases step with
  | link use => exact use.type
  | remove use => exact use.type
  | other good same => rwa [← same]

omit inv in
theorem Inv.run {ops : List Op} (inv : (node s d).type = tDir → Inv s d parent m)
    (run : Run (Step d) s ops t) (isDir : (node t d).type = tDir) :
    Inv t d parent (ops.foldl Op.apply m) := by
  induction run generalizing m with
  | nil s => exact inv isDir
  | cons first _ ih => exact ih (fun isDir => (inv (first.isDir isDir)).step first isDir) isDir

end History

/-! What a user of the directory asks for. -/

inductive Request where
  | lookup (name : Bytes)
  | link (name : Bytes) (inum : Nat)
  | remove (name : Bytes)
  | isEmpty

/-- The inode under the name is not locked by another process; a call that finds it locked
sleeps until it is not. -/
def Awake (m : Names) (s : Fs) (d : Nat) (key : List UInt8) : Prop :=
  ∀ i, m key = some i → i ≠ d → ¬ Busy s i

/-- The requests the code makes. -/
def Request.Valid (m : Names) (s : Fs) (d : Nat) : Request → Prop
  | .link name inum => inum ≠ 0 ∧ inum < 2 ^ 16 ∧ (node s d).size < maxFile * bsize ∧
      Awake m s d (nameOf name)
  | .remove name => Known s d (nameOf name) ∧ Awake m s d (nameOf name)
  | _ => True

/-- `sys_unlink` has nothing to remove, or may not. -/
def Refuses (m : Names) (s : Fs) (key : List UInt8) : Prop :=
  IsDots key ∨ ∀ i, m key = some i → ¬ Removable (node s i)

/-- The call that answers the request, on the directory in entry `dp`. -/
def Request.Answered (m : Names) (s : Fs) (dp d : Nat) : Request → Prop
  | .lookup name =>
    match m (nameOf name) with
    | none => dirlookup dp name s = .ok (none, s)
    | some i => ∃ ip off t, dirlookup dp name s = .ok (some (ip, off), t) ∧ (t.inode ip).inum = i ∧
        node t = node s
  | .link name inum =>
    match m (nameOf name) with
    | none => ∃ t, dirlink dp name inum s = .ok (0, t) ∧ Consistent t ∧
        (dir (node t d)).get = update m (nameOf name) (some inum) ∧ ∀ i ≠ d, node t i = node s i
    | some _ => ∃ t, dirlink dp name inum s = .ok (-1, t) ∧ Idle s t ∧ node t = node s
  | .remove name => ∃ r t, unlinkFrom dp name s = .ok (r, t) ∧ Consistent t ∧
      (∀ i ≠ d, m (nameOf name) ≠ some i → node t i = node s i) ∧
      (Refuses m s (nameOf name) → r = -1 ∧ Left s t dp d m ∧ ∀ i ≠ d, node t i = node s i) ∧
      (¬ Refuses m s (nameOf name) → r = 0 ∧ Left s t dp d (update m (nameOf name) none))
  | .isEmpty => ∃ r, isdirempty dp s = .ok (r, s) ∧ (r = true ↔ ∀ key, ¬ IsDots key → m key = none)

/-- The inode under the name fits in the cache and is not the directory itself, whose lock the
caller has, if it has to be put back or locked; a new entry has the blocks it needs; an inode
that loses a name is allocated and has a link. -/
def Request.Can (m : Names) (s : Fs) (dp d : Nat) : Request → Prop
  | .lookup name => ∀ i, m (nameOf name) = some i → CanGet s i
  | .link name _ =>
    match m (nameOf name) with
    | none => need s dp (direntSize * (dir (node s d)).vacant) direntSize ≤ (freeBlocks s).card
    | some i => CanGet s i ∧ i ≠ d
  | .remove name => ∀ i, m (nameOf name) = some i → ¬ IsDots (nameOf name) →
      CanGet s i ∧ i ≠ d ∧ (node s i).type ≠ 0 ∧ 1 ≤ (node s i).nlink
  | .isEmpty => True

section Requests
variable {s t : Fs} {dp d parent : Nat} {m : Names}

theorem Inv.lookup_iff (inv : Inv s d parent m) (use : Using s dp d) (name : Bytes) :
    (Request.lookup name).Answered m s dp d ↔ (Request.lookup name).Can m s dp d := by
  have spec := fun E => wp_dirlookup (inv.opened use) name (E := E)
  simp only [inv.get] at spec
  unfold Request.Answered Request.Can
  dsimp only
  cases bound : m (nameOf name) with
  | none =>
    refine ⟨fun _ _ some => (by cases some), fun _ => ?_⟩
    obtain ⟨r, t, result, ⟨rfl, rfl, -⟩ | ⟨_, _, i, -, -, some, -⟩⟩ :=
      wp_returns (spec (fun _ => False) fun i some => by rw [bound] at some; cases some)
    · exact result
    · rw [bound] at some
      cases some
  | some i =>
    constructor
    · rintro ⟨ip, off, t, result, -⟩ j same
      cases same
      rcases wp_ok (spec (fun _ => True) fun _ _ _ => True.intro) result with ⟨none, -⟩ | found
      · cases none
      · obtain ⟨_, _, _, -, -, some, got⟩ := found
        rw [bound] at some
        cases some
        exact got.canGet
    · intro can
      obtain ⟨r, t, result, ⟨-, -, none⟩ | ⟨ip, j, _, rfl, -, some, got⟩⟩ :=
        wp_returns (spec (fun _ => False) fun j some not => not (can j (bound.symm.trans some)))
      · rw [bound] at none
        cases none
      · rw [bound] at some
        cases some
        exact ⟨ip, direntSize * j, t, result, got.inum_eq, got.node_eq⟩

/-- A write that was made has taken the blocks it needed from the free ones. -/
theorem need_le {off n : Nat} {src : Bytes} (wrote : Wrote s t dp off n src (cover off n)) :
    need s dp off n ≤ (freeBlocks s).card := by
  have none : (cover off n).filter (fun pos => block t dp pos = 0) = ∅ := by
    rw [Finset.filter_eq_empty_iff]
    intro pos mem
    obtain ⟨k, lo, hi, rfl | ⟨rfl, past⟩⟩ := mem_cover mem
    · exact wrote.mapped k lo hi
    · intro zero
      apply wrote.mapped k lo hi
      rw [block, slot_ndirect] at zero
      have pos : dataPos (k / bsize) = k / bsize + 1 := if_neg (Nat.not_lt.mpr past)
      rw [pos]
      unfold block slot
      rw [if_neg (by omega), if_neg fun both => both.2 zero]
  have room := wrote.room
  unfold Growth.room at room
  rw [none, Finset.card_empty] at room
  unfold need
  omega

/-- The caller has the directory locked, and nobody else the inode under the name. -/
theorem busy_iff (use : Using s dp d) (awake : Awake m s d key)
    (bound : m key = some i) : Busy s i ↔ i = d := by
  constructor
  · intro busy
    by_contra other
    exact awake i bound other busy
  · rintro rfl
    obtain ⟨locks, mid, held⟩ := use.mid
    exact ⟨dp, (mid.mine dp held).ref, use.inum, (mid.locked dp).mpr held⟩

section Invariant
variable (inv : Inv s d parent m)
include inv

theorem Inv.link_iff (use : Using s dp d) (name : Bytes) {inum : Nat} (nonzero : inum ≠ 0)
    (small : inum < 2 ^ 16) (below : (node s d).size < maxFile * bsize)
    (awake : Awake m s d (nameOf name)) :
    (Request.link name inum).Answered m s dp d ↔ (Request.link name inum).Can m s dp d := by
  have opened := inv.opened use
  have spec := fun E => wp_dirlink opened name inum (E := E) (covers_cover _ _)
  simp only [inv.get] at spec
  unfold Request.Answered Request.Can
  dsimp only
  cases bound : m (nameOf name) with
  | none =>
    simp only [bound] at spec
    have fits : direntSize * (dir (node s d)).vacant + direntSize ≤ maxFile * bsize := by
      have len := opened.len
      have le := vacant_le (dir (node s d))
      have limit : maxFile * bsize = direntSize * 4480 := by decide
      rw [limit] at below ⊢
      unfold direntSize at *
      omega
    constructor
    · rintro ⟨t, result, -⟩
      rcases wp_ok (spec (fun _ => True) (fun _ _ _ => True.intro) (fun _ _ _ => True.intro)
        (fun _ _ => True.intro) fun _ _ => True.intro)
        result with ⟨_, none, -⟩ | ⟨-, -, linked, -⟩
      · cases none
      · exact need_le linked.wrote
    · intro enough
      obtain ⟨r, t, result, ⟨_, none, -⟩ | ⟨-, rfl, linked, -⟩⟩ := wp_returns (spec (fun _ => False)
        (fun _ same => by cases same) (fun _ same => by cases same)
        (fun _ past => absurd fits (Nat.not_le.mpr past)) fun _ short => by
          unfold Growth.room at short
          unfold need at enough
          omega)
      · cases none
      · refine ⟨t, result, linked.good, ?_, fun i other => ?_⟩
        · exact (inv.linked linked (by rw [inv.get, bound]) nonzero small).get
        · rw [linked.nodes, update_of_ne other]
  | some i =>
    have busy := busy_iff use awake bound
    simp only [bound] at spec
    constructor
    · rintro ⟨t, result, -⟩
      rcases wp_ok (spec (fun _ => True) (fun _ _ _ => True.intro) (fun _ _ _ => True.intro)
        (fun _ _ => True.intro) fun _ _ => True.intro) result with ⟨_, same, other, can, -⟩ | ⟨none, -⟩
      · cases same
        exact ⟨can, fun same => other (busy.mpr same)⟩
      · cases none
    · rintro ⟨can, other⟩
      obtain ⟨r, t, result, ⟨_, -, -, -, rfl, idle⟩ | ⟨none, -⟩⟩ := wp_returns (spec (fun _ => False)
        (fun j same not => by cases same; exact not can)
        (fun j same held => by cases same; exact other (busy.mp held))
        (fun same => by cases same) fun same => by cases same)
      · exact ⟨t, result, idle, idle.node_eq⟩
      · cases none

theorem Inv.reached_iff (use : Using s dp d) (awake : Awake m s d key)
    (get : (dir (node s d)).get key = some i) :
    Reached s i ↔ CanGet s i ∧ i ≠ d ∧ (node s i).type ≠ 0 ∧ 1 ≤ (node s i).nlink := by
  have busy := busy_iff use awake (by rw [← inv.get, get])
  constructor
  · exact fun reached => ⟨reached.room, fun same => reached.idle (busy.mpr same), reached.type, reached.nlink⟩
  · exact fun ⟨room, other, type, nlink⟩ => ⟨room, fun held => other (busy.mp held), type, nlink⟩

theorem Inv.remove_iff (use : Using s dp d) (name : Bytes) (known : Known s d (nameOf name))
    (awake : Awake m s d (nameOf name)) :
    (Request.remove name).Answered m s dp d ↔ (Request.remove name).Can m s dp d := by
  obtain ⟨locks, mid, held⟩ := use.mid
  have spec := fun E => wp_unlinkFrom mid held (inv.opened use) name known (E := E)
  constructor
  · rintro ⟨r, t, result, -⟩ i bound other
    rw [← inv.get] at bound
    refine (inv.reached_iff use awake bound).mp ?_
    have outcome := (wp_ok (spec (fun _ => True) fun _ _ _ _ _ => True.intro) result).2
    rcases outcome with ⟨-, -, -, dots | none | ⟨_, get, reached, -⟩⟩ | ⟨_, _, -, -, -, get, reached, -⟩
    · exact absurd dots other
    · rw [bound] at none
      cases none
    · rw [bound] at get
      cases get
      exact reached
    · rw [bound] at get
      cases get
      exact reached
  · intro can
    obtain ⟨r, t, result, good, outcome⟩ := wp_returns (spec (fun _ => False) fun i _ other get no =>
      no ((inv.reached_iff use awake get).mpr (can i (by rw [← inv.get, get]) other)))
    have names := (inv.outcome good outcome).1
    refine ⟨r, t, result, good, ?_⟩
    rcases outcome with ⟨rfl, others, -, why⟩ | ⟨i, j, rfl, other, -, get, -, removable, others, -⟩
    · refine ⟨fun k away _ => others k away, fun _ => ⟨rfl, names, others⟩, fun no => absurd ?_ no⟩
      rcases why with dots | none | ⟨i, get, -, full⟩
      · exact .inl dots
      · refine .inr fun i bound => ?_
        rw [← inv.get, none] at bound
        cases bound
      · refine .inr fun k bound => ?_
        rw [← inv.get, get] at bound
        cases bound
        exact full
    · rw [inv.get] at get
      refine ⟨fun k away apart => others k away fun same => apart (same ▸ get), fun refuses => ?_,
        fun _ => ⟨rfl, names⟩⟩
      rcases refuses with dots | full
      · exact absurd dots other
      · exact absurd removable (full i get)

/-- The slots after the first two hold the other names. -/
theorem Inv.rest_iff :
    (∀ j, 2 ≤ j → j < (dir (node s d)).len → (dir (node s d)).slot j = none) ↔
      ∀ key, ¬ IsDots key → m key = none := by
  constructor
  · intro empty key other
    rw [← inv.get]
    by_contra some
    obtain ⟨v, bound⟩ := Option.ne_none_iff_exists'.mp some
    cases found : (dir (node s d)).find key with
    | none => exact some (get_eq_none.mpr found)
    | some j =>
      obtain ⟨inside, w, slot⟩ := find_some found
      rw [empty j (inv.find_late other found) inside] at slot
      cases slot
  · intro none j late inside
    cases slot : (dir (node s d)).slot j with
    | none => rfl
    | some entry =>
      obtain ⟨key, v⟩ := entry
      have other : ¬ IsDots key := by
        rintro (rfl | rfl)
        · exact absurd (inv.distinct 0 j _ _ _ (by omega) inside inv.here slot) (by omega)
        · exact absurd (inv.distinct 1 j _ _ _ (by omega) inside inv.above slot) (by omega)
      have bound : m key = some v := by
        rw [← inv.get, get_eq_some inv.distinct]
        exact ⟨j, inside, slot⟩
      rw [none key other] at bound
      cases bound

theorem Inv.isEmpty_iff (use : Using s dp d) :
    Request.isEmpty.Answered m s dp d ↔ Request.isEmpty.Can m s dp d := by
  refine ⟨fun _ => True.intro, fun _ => ?_⟩
  obtain ⟨r, t, result, rfl, empty⟩ :=
    wp_returns (wp_isdirempty (E := fun _ => False) (inv.opened use))
  exact ⟨r, result, empty.trans inv.rest_iff⟩

theorem Inv.answered_iff (use : Using s dp d) (req : Request)
    (valid : req.Valid m s d) : req.Answered m s dp d ↔ req.Can m s dp d := by
  cases req with
  | lookup name => exact inv.lookup_iff use name
  | link name inum => exact inv.link_iff use name valid.1 valid.2.1 valid.2.2.1 valid.2.2.2
  | remove name => exact inv.remove_iff use name valid.1 valid.2
  | isEmpty => exact inv.isEmpty_iff use

end Invariant

end Requests

/-- After any history of a directory its entries have different names and its size is a number
of entries; each request is answered from the map of names exactly when the inode under the
name can be taken, locked and put back and a new entry has its blocks. -/
theorem directory_is_map_iff (s t : Fs) (d parent : Nat) (ops : List Op) (fresh : Fresh s d parent)
    (run : Run (Step d) s ops t) (isDir : (node t d).type = tDir) :
    (∀ i j, i < (node t d).size / direntSize → j < (node t d).size / direntSize →
      direntInum (raw (node t d) i) ≠ 0 → direntInum (raw (node t d) j) ≠ 0 →
      namecmp (direntName (raw (node t d) i)) (direntName (raw (node t d) j)) = 0 → i = j) ∧
    (node t d).size % direntSize = 0 ∧
    ∀ dp, Using t dp d → ∀ req : Request, req.Valid (names d parent ops) t d →
      (req.Answered (names d parent ops) t dp d ↔ req.Can (names d parent ops) t dp d) := by
  have inv : Inv t d parent (names d parent ops) := Inv.run (fun _ => fresh.inv) run isDir
  refine ⟨fun i j first second left right same => ?_, inv.whole, fun dp use => inv.answered_iff use⟩
  rw [namecmp_eq_zero] at same
  refine inv.distinct i j _ _ (direntInum (raw (node t d) j)) first second (if_neg left) ?_
  rw [same]
  exact if_neg right

/-! A file system with a root directory, a file that may be named there, and `more` files that are
open but have no name. -/

def rootDinode : Dinode :=
  { type := tDir, nlink := 1, size := 48, addrs := fun j => if j.val = 0 then 10 else 0 }

def rootInode (more i : Nat) : Dinode :=
  if i = 1 then rootDinode
  else if i = 2 then { type := tFile, nlink := 1 }
  else if 3 ≤ i ∧ i < more + 3 then { type := tFile }
  else {}

/-- The free map: the blocks up to that of the directory are in use. -/
def rootMap (k : Nat) : UInt8 := if k = 0 then 255 else if k = 1 then 7 else 0

def rootDisk (more : Nat) (named : Bool) (b k : Nat) : UInt8 :=
  if b = 1 then if k = 0 then 12 else if k = 8 then 52 else if k = 20 then 2 else if k = 24 then 9 else 0
  else if 2 ≤ b ∧ b < 9 then
    putDinode zeroBlock (k / 64 * 64) (rootInode more ((b - 2) * 8 + k / 64)) k
  else if b = 9 then rootMap k
  else if b = 10 then
    if k = 0 then 1 else if k = 2 then 46 else if k = 16 then 1 else if k = 18 then 46
    else if k = 19 then 46 else if named ∧ k = 32 then 2 else if named ∧ k = 34 then 102 else 0
  else 0

def rootSb : Superblock :=
  { size := 12, nblocks := 0, ninodes := 52, nlog := 0, logstart := 0, inodestart := 2, bmapstart := 9 }

def rooted (more : Nat) (named held : Bool) : Fs where
  disk := rootDisk more named
  sb := rootSb
  inode := fun k =>
    if k = 0 then { inum := 1, ref := 1, locked := held, valid := true, din := rootDinode }
    else if k ≤ more then { inum := k + 2, ref := 1 }
    else {}
  file := fun _ => {}
  proc := fun _ => { cwd := some 0 }
  console := fun _ => (-1, zeroBlock)
  logged := []

section Rooted
variable {more : Nat} {named held : Bool}

theorem rootSb_dataStart : dataStart rootSb = 10 := by decide

theorem rootInode_fits (more i : Nat) : (rootInode more i).Fits := by
  have root : rootDinode.Fits := ⟨by decide, by decide, by decide, by decide, by decide, by decide⟩
  unfold rootInode
  split
  · exact root
  · split
    · exact ⟨by decide, by decide, by decide, by decide, by decide, by decide⟩
    · split <;> exact ⟨by decide, by decide, by decide, by decide, by decide, by decide⟩

theorem rooted_dino (few : more ≤ 49) :
    (region (rooted more named held)).dino i = rootInode more i := by
  by_cases inside : i < 52
  · refine (if_pos inside).trans ?_
    rw [← getDinode_putDinode zeroBlock (inodeOff i) (rootInode_fits more i)]
    apply getDinode_congr
    intro k low high
    have place : i / ipb + 2 = i / 8 + 2 := rfl
    have start : inodeOff i = i % 8 * 64 := rfl
    have width : dinodeSize = 64 := rfl
    have block : (i / 8 + 2 - 2) * 8 + k / 64 = i := by omega
    have off : k / 64 * 64 = inodeOff i := by omega
    change rootDisk more named (i / ipb + 2) k = _
    rw [place, rootDisk, if_neg (by omega), if_pos (by omega), block, off]
  · refine (if_neg inside).trans ?_
    unfold rootInode
    rw [if_neg (by omega), if_neg (by omega), if_neg (by omega)]

theorem rooted_place (few : more ≤ 49) (x : Nat × Nat) :
    place (rooted more named held) x = if x = (1, 0) then 10 else 0 := by
  obtain ⟨i, pos⟩ := x
  unfold place
  rw [rooted_dino few]
  by_cases here : i = 1
  · have none : rootDinode.word ndirect = 0 := by decide
    rw [here, show rootInode more 1 = rootDinode from rfl]
    unfold slot
    by_cases direct : pos ≤ ndirect
    · rw [if_pos direct]
      revert pos
      decide
    · rw [if_neg direct, if_neg fun both => both.2 none, if_neg]
      intro same
      rw [(Prod.mk.inj same).2] at direct
      exact direct (Nat.zero_le _)
  · have words : ∀ n, (rootInode more i).word n = 0 := by
      intro n
      rw [rootInode, if_neg here, Dinode.word]
      split
      · split
        · rfl
        · split <;> rfl
      · rfl
    rw [if_neg fun same => here (Prod.mk.inj same).1]
    unfold slot
    simp only [words, ne_eq, not_true_eq_false, and_false, if_false, ite_self]

theorem rooted_bit (b : Nat) : (region (rooted more named held)).bit b = decide (b < 11) := by
  change (decide (b < 12) && testBit (rootDisk more named (b / bpb + 9)) (b % bpb)) = _
  by_cases inside : b < 12
  · have bits : ∀ b < 12, testBit rootMap (b % bpb) = decide (b < 11) := by decide
    have first : b / bpb + 9 = 9 := by
      rw [Nat.div_eq_of_lt (Nat.lt_trans inside (by decide))]
    rw [first, show rootDisk more named 9 = rootMap from rfl, decide_eq_true inside, Bool.true_and]
    exact bits b inside
  · rw [decide_eq_false inside, Bool.false_and, decide_eq_false (by omega)]

theorem rooted_entry {k : Nat} (ref : 0 < ((rooted more named held).inode k).ref) :
    k ≤ more ∧ ((rooted more named held).inode k).inum = if k = 0 then 1 else k + 2 := by
  unfold rooted at ref ⊢
  dsimp only at ref ⊢
  split at ref
  · rename_i zero
    rw [zero]
    exact ⟨Nat.zero_le more, rfl⟩
  · rename_i later
    split at ref
    · rename_i below
      rw [if_neg later, if_pos below, if_neg later]
      exact ⟨below, rfl⟩
    · exact absurd ref (Int.lt_irrefl 0)

theorem rooted_consistent (few : more ≤ 49) : Consistent (rooted more named held) where
  laid := by
    have ordered : Ordered rootSb := ⟨by decide, by decide, by decide⟩
    exact ⟨ordered, rfl⟩
  reserved := fun b below _ => by
    rw [rooted_bit]
    exact decide_eq_true (Nat.lt_succ_of_lt (rootSb_dataStart ▸ below))
  exact := by
    change Lib.Places.Exact _ fun b => dataStart rootSb ≤ b ∧ _
    rw [rootSb_dataStart]
    have only : ∀ x, place (rooted more named held) x ≠ 0 → x = (1, 0) := by
      intro x nonzero
      by_contra other
      rw [rooted_place few, if_neg other] at nonzero
      exact nonzero rfl
    constructor
    case zero => exact fun used => absurd used.1 (by decide)
    case inUse =>
      intro x nonzero
      rw [rooted_place few, if_pos (only x nonzero), rooted_bit]
      decide
    case once =>
      intro x y nonzero same
      rw [only x nonzero, only y (same ▸ nonzero)]
    case held =>
      rintro b ⟨past, used⟩
      rw [rooted_bit, decide_eq_true_eq] at used
      refine ⟨(1, 0), ?_⟩
      rw [rooted_place few, if_pos rfl]
      omega
  free := by
    intro i free pos
    rw [rooted_dino few] at free
    rw [rooted_place few, if_neg]
    rintro ⟨⟩
    exact absurd free (show tDir ≠ 0 by decide)
  mapped := by
    intro i bn inside
    rw [rooted_dino few] at inside
    by_cases root : i = 1
    · have size : rootDinode.size = 48 := rfl
      rw [root, show rootInode more 1 = rootDinode from rfl, size] at inside
      obtain rfl : bn = 0 := by
        unfold bsize at inside
        omega
      rw [rooted_place few, root]
      decide
    · have size : (rootInode more i).size = 0 := by
        rw [rootInode, if_neg root]
        split
        · rfl
        · split <;> rfl
      omega
  entries := by
    intro k ref
    obtain ⟨below, inum⟩ := rooted_entry ref
    have total : (rooted more named held).sb.ninodes = 52 := rfl
    rw [inum, total]
    unfold ninode
    split <;> omega
  single := by
    intro k l left right same
    rw [(rooted_entry left).2, (rooted_entry right).2] at same
    split at same <;> split at same <;> omega
  coherent := by
    intro k ref valid
    obtain rfl : k = 0 := by
      by_contra later
      unfold rooted at valid
      dsimp only at valid
      rw [if_neg later] at valid
      split at valid <;> cases valid
    rw [rooted_dino few]
    exact ⟨rfl, show tDir ≠ 0 by decide⟩

theorem rooted_mid (few : more ≤ 49) :
    Mid (fun k => ((rooted more named held).inode k).ref) (if held then {0} else ∅)
      (rooted more named held) where
  good := rooted_consistent few
  count := fun _ => rfl
  nonneg := by
    intro k
    unfold rooted
    dsimp only
    split
    · exact Int.zero_le_ofNat 1
    · split
      · exact Int.zero_le_ofNat 1
      · exact le_refl 0
  locked := by
    intro k
    have locked : ((rooted more named held).inode k).locked = (decide (k = 0) && held) := by
      unfold rooted
      dsimp only
      split
      · simp [*]
      · split <;> simp [*]
    rw [locked]
    cases held <;> simp
  mine := by
    intro k mem
    cases held with
    | false => exact absurd mem (Finset.notMem_empty k)
    | true =>
      rw [Finset.mem_singleton.mp mem]
      exact ⟨Int.zero_lt_one, rfl⟩

end Rooted

theorem rooted_fresh : Fresh (rooted 0 false true) 1 1 where
  good := rooted_consistent (by decide)
  type := by decide
  whole := by decide
  two := by decide
  here := by decide
  above := by decide
  rest := by decide

theorem rooted_using : Using (rooted 0 false true) 0 1 where
  mid := ⟨{0}, rooted_mid (by decide), Finset.mem_singleton_self 0⟩
  inum := rfl
  type := by decide

/-- The directory under its own name `.` is refused only by waiting for a lock that the caller
holds. -/
theorem dirlink_dot_deadlocks :
    Fresh (rooted 0 false true) 1 1 ∧ Run (Step 1) (rooted 0 false true) [] (rooted 0 false true) ∧
      Using (rooted 0 false true) 0 1 ∧
      (Request.link dot 1).Valid (names 1 1 []) (rooted 0 false true) 1 ∧
      names 1 1 [] (nameOf dot) = some 1 ∧ dirlink 0 dot 1 (rooted 0 false true) = .error .deadlock := by
  have self : names 1 1 [] (nameOf dot) = some 1 := by decide
  refine ⟨rooted_fresh, .nil _, rooted_using, ⟨by decide, by decide, by decide, ?_⟩, self, ?_⟩
  · intro i bound other
    rw [self] at bound
    exact absurd (Option.some.inj bound).symm other
  · have stopped : (match dirlink 0 dot 1 (rooted 0 false true) with
        | .ok _ => false
        | .error e => decide (e = .deadlock)) = true := by decide +kernel
    cases result : dirlink 0 dot 1 (rooted 0 false true) with
    | ok r =>
      rw [result] at stopped
      cases stopped
    | error e =>
      rw [result] at stopped
      rw [of_decide_eq_true stopped]

/-- The caller of `dirlink` goes on with the directory locked. -/
theorem Using.linked {s t : Fs} {dp d inum : Nat} {name : Bytes} (use : Using s dp d)
    (linked : Linked s t dp d name inum) : Using t dp d := by
  obtain ⟨locks, mid, held⟩ := use.mid
  obtain ⟨addrs, self⟩ := linked.wrote.self
  have same := tallied_of_din self linked.wrote.others
  refine ⟨⟨locks, ?_, held⟩, (same dp).inum.trans use.inum, ?_⟩
  · rw [show (fun k => (t.inode k).ref) = fun k => (s.inode k).ref from funext fun k => (same k).ref]
    exact mid.tallied same linked.good
  · rw [linked.nodes, update_self]
    exact use.type

/-- The file gets its name and loses it again. -/
theorem directory_is_map_iff_file : ∃ s t, dirlink 0 (nameBytes [102]) 2 (rooted 0 false true) = .ok (0, s) ∧
    unlinkFrom 0 (nameBytes [102]) s = .ok (0, t) ∧ Consistent t ∧
    Left s t 0 1 (update (names 1 1 [.link (nameBytes [102]) 2 0]) [102] none) := by
  have opened := rooted_fresh.inv.opened rooted_using
  have absent : (dir (node (rooted 0 false true) 1)).get (nameOf (nameBytes [102])) = none := by decide
  have place : (dir (node (rooted 0 false true) 1)).vacant = 2 := by decide
  obtain ⟨r, s, result, ⟨i, bound, -⟩ | ⟨-, rfl, linked, -⟩⟩ := wp_returns (wp_dirlink (E := fun _ => False)
    opened (nameBytes [102]) 2 (covers_cover _ _) (fun i bound => by rw [absent] at bound; cases bound)
    (fun i bound => by rw [absent] at bound; cases bound) (fun _ => by rw [place]; decide)
    fun _ short => by
      rw [place] at short
      revert short
      decide)
  · rw [absent] at bound
    cases bound
  · have run : Run (Step 1) (rooted 0 false true) [.link (nameBytes [102]) 2 0] s :=
      .cons (.link rooted_using (by decide) (by decide) (by decide) result) (.nil s)
    have use := rooted_using.linked linked
    have file : node s 2 = node (rooted 0 false true) 2 := by
      rw [linked.nodes, update_of_ne (by decide)]
    obtain ⟨addrs, self⟩ := linked.wrote.self
    have same := tallied_of_din self linked.wrote.others
    have only : ∀ k, (s.inode k).inum = 2 → ¬ 0 < (s.inode k).ref := by
      intro k here ref
      rw [(same k).inum] at here
      rw [(same k).ref] at ref
      obtain ⟨first, inum⟩ := rooted_entry ref
      rw [Nat.le_zero.mp first] at inum here
      rw [inum] at here
      cases here
    have room : CanGet s 2 := ⟨1, by decide, .inr (by rw [(same 1).ref]; rfl)⟩
    have names : names 1 1 [.link (nameBytes [102]) 2 0] (nameOf (nameBytes [102])) = some 2 := by decide
    have answer := ((directory_is_map_iff _ s 1 1 _ rooted_fresh run use.type).2.2 0 use
      (.remove (nameBytes [102])) ⟨fun i bound => ?_, fun i bound _ => ?_⟩).mpr fun i bound _ => ?_
    · obtain ⟨r, t, removed, good, -, -, done⟩ := answer
      have some : ¬ Refuses (DirMap.names 1 1 [.link (nameBytes [102]) 2 0]) s (nameOf (nameBytes [102])) := by
        rintro (dots | full)
        · exact absurd dots (by decide)
        · refine full 2 names fun isDir => ?_
          rw [file] at isDir
          exact absurd isDir (by decide)
      obtain ⟨rfl, left⟩ := done some
      exact ⟨s, t, result, removed, good, left⟩
    · have inv := rooted_fresh.inv.linked linked absent (by decide) (by decide)
      rw [inv.get, update_self] at bound
      obtain rfl := Option.some.inj bound
      rw [file, linked.wrote.sb]
      exact ⟨by decide, fun isDir => absurd isDir (by decide)⟩
    · rw [names] at bound
      obtain rfl := Option.some.inj bound
      rintro ⟨k, ref, here, -⟩
      exact only k here ref
    · rw [names] at bound
      obtain rfl := Option.some.inj bound
      rw [file]
      exact ⟨room, by decide, by decide, by decide⟩

end ColorXv6.Fs.DirMap
