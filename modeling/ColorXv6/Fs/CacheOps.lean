import ColorXv6.Fs.Store

/-!
The inode cache over a consistent disk: `iget`, `idup`, `ilock` and `iunlock` change one
entry of it.
-/
namespace ColorXv6.Fs.CacheOps
open Function Lib.LittleEndian Lib.Slots Lib.Wp Param Layout BlockMap Inode ReadBlocks Regions Store

/-- Entry `ip` of the cache set to `x`. -/
def setInode (s : Fs) (ip : Nat) (x : Inode) : Fs := { s with inode := update s.inode ip x }

section Entries
variable {s : Fs} {ip : Nat} {x : Inode} {E : Halt → Prop}

@[simp] theorem setInode_self : (setInode s ip x).inode ip = x := update_self _ _ _

theorem setInode_other {k : Nat} (other : k ≠ ip) : (setInode s ip x).inode k = s.inode k :=
  update_of_ne other _ _

@[simp] theorem setInode_setInode {y : Inode} : setInode (setInode s ip x) ip y = setInode s ip y := by
  unfold setInode
  rw [update_idem]

theorem only_setInode : Only ip s (setInode s ip x) :=
  ⟨⟨rfl, rfl, rfl, rfl⟩, fun _ => setInode_other⟩

@[simp] theorem region_setInode : region (setInode s ip x) = region s := rfl

@[simp] theorem node_setInode : node (setInode s ip x) = node s := rfl

theorem wp_modifyInode (f : Inode → Inode) (Q : PUnit → Fs → Prop) :
    wp (modifyInode ip f) Q E s ↔ Q ⟨⟩ (setInode s ip (f (s.inode ip))) := by
  unfold modifyInode setInode
  rw [wp_modify]
  have same : (fun k => if k = ip then f (s.inode k) else s.inode k) =
      update s.inode ip (f (s.inode ip)) := by
    funext k
    rw [update_apply]
    split
    · rename_i here
      rw [here]
    · rfl
  rw [same]

/-- What an entry must have to be put in the cache. -/
structure Entry (s : Fs) (ip : Nat) (x : Inode) : Prop where
  inside : ip < ninode
  known : x.inum < s.sb.ninodes
  alone : ∀ l, l ≠ ip → 0 < (s.inode l).ref → (s.inode l).inum ≠ x.inum
  coherent : x.valid = true → x.din = (region s).dino x.inum ∧ x.din.type ≠ 0

theorem consistent_setInode (good : Consistent s) (entry : 0 < x.ref → Entry s ip x) :
    Consistent (setInode s ip x) where
  __ := good
  laid := ⟨good.laid.ordered, good.laid.super⟩
  entries := by
    intro k
    by_cases here : k = ip
    · rw [here, setInode_self]
      exact fun ref => ⟨(entry ref).inside, (entry ref).known⟩
    · rw [setInode_other here]
      exact good.entries k
  single := by
    intro k l
    by_cases left : k = ip <;> by_cases right : l = ip
    · exact fun _ _ _ => left.trans right.symm
    · rw [left, setInode_self, setInode_other right]
      exact fun ref refs same => absurd same.symm ((entry ref).alone l right refs)
    · rw [right, setInode_self, setInode_other left]
      exact fun refs ref same => absurd same ((entry ref).alone k left refs)
    · rw [setInode_other left, setInode_other right]
      exact good.single k l
  coherent := by
    intro k
    by_cases here : k = ip
    · rw [here, setInode_self]
      exact fun ref => (entry ref).coherent
    · rw [setInode_other here]
      exact good.coherent k

/-- An entry in use is one, whatever its lock and its count. -/
theorem entry_in_use (good : Consistent s) (ref : 0 < (s.inode ip).ref)
    (inum : x.inum = (s.inode ip).inum)
    (coherent : x.valid = true → x.din = (region s).dino x.inum ∧ x.din.type ≠ 0) : Entry s ip x where
  inside := (good.entries ip ref).1
  known := inum ▸ (good.entries ip ref).2
  alone := fun l other refs same => other (good.single l ip refs ref (same.trans inum))
  coherent := coherent

/-- The entry after `ilock`. -/
def locked (s : Fs) (ip : Nat) : Inode :=
  { s.inode ip with locked := true, valid := true, din := (region s).dino (s.inode ip).inum }

theorem dino_eq (s : Fs) {i : Nat} (inside : i < s.sb.ninodes) :
    getDinode (s.disk (iblock s.sb i)) (inodeOff i) = (region s).dino i := by
  unfold region parts
  dsimp only
  rw [if_pos inside]
  rfl

theorem wp_ilock (ref : 0 < (s.inode ip).ref) (known : (s.inode ip).inum < s.sb.ninodes)
    (coherent : (s.inode ip).valid = true →
      (s.inode ip).din = (region s).dino (s.inode ip).inum ∧ (s.inode ip).din.type ≠ 0)
    (unlocked : (s.inode ip).locked = false)
    (none : (node s (s.inode ip).inum).type = 0 → E .ilockNoType) :
    wp (ilock ip) (fun _ t => t = setInode s ip (locked s ip) ∧
      (node s (s.inode ip).inum).type ≠ 0) E s := by
  unfold ilock acquiresleep
  simp only [wp_bind, wp_get]
  rw [if_neg (by omega), wp_bind, wp_read]
  rw [unlocked, if_neg Bool.false_ne_true, wp_modifyInode]
  split
  · rename_i valid
    obtain ⟨din, type⟩ := coherent valid
    rw [wp_pure]
    refine ⟨?_, ?_⟩
    · unfold locked
      rw [← din, ← valid]
    · rw [din] at type
      exact type
  · rw [wp_bind, wp_bread]
    rw [show (setInode s ip _).disk = s.disk from rfl, dino_eq s known, wp_bind,
      wp_modifyInode, setInode_self, setInode_setInode]
    split
    · rename_i zero
      rw [wp_throw]
      exact none zero
    · rename_i type
      rw [wp_pure]
      exact ⟨rfl, type⟩

theorem wp_iunlock (ref : 0 < (s.inode ip).ref) (held : (s.inode ip).locked = true) :
    wp (iunlock ip) (fun _ t => t = setInode s ip { s.inode ip with locked := false }) E s := by
  unfold iunlock releasesleep
  rw [wp_read, held, if_neg, wp_modifyInode]
  rintro (open_ | below)
  · exact Bool.noConfusion open_
  · omega

theorem consistent_ilock (good : Consistent s) (ref : 0 < (s.inode ip).ref)
    (type : (node s (s.inode ip).inum).type ≠ 0) :
    Consistent (setInode s ip (locked s ip)) ∧
      Loaded (setInode s ip (locked s ip)) ip := by
  refine ⟨consistent_setInode good fun _ => entry_in_use good ref rfl fun _ => ⟨rfl, type⟩, ?_, ?_⟩
  · rw [setInode_self]
    exact ref
  · rw [setInode_self]
    rfl

theorem consistent_iunlock (good : Consistent s) :
    Consistent (setInode s ip { s.inode ip with locked := false }) :=
  consistent_setInode good fun ref => entry_in_use good ref rfl (good.coherent ip ref)

/-- `iget` can find an entry for the inode, or a free one. -/
def CanGet (s : Fs) (inum : Nat) : Prop :=
  ∃ k < ninode, 0 < (s.inode k).ref ∧ (s.inode k).inum = inum ∨ (s.inode k).ref = 0

/-- The entry that `iget` returned, and what it did to it. -/
inductive Got (s t : Fs) (ip inum : Nat) : Prop where
  | shared (inside : ip < ninode) (ref : 0 < (s.inode ip).ref) (cached : (s.inode ip).inum = inum)
      (after : t = setInode s ip { s.inode ip with ref := (s.inode ip).ref + 1 })
  | fresh (inside : ip < ninode) (free : (s.inode ip).ref = 0)
      (alone : ∀ k < ninode, 0 < (s.inode k).ref → (s.inode k).inum ≠ inum)
      (after : t = setInode s ip { s.inode ip with inum, ref := 1, valid := false })

theorem wp_iget (inum : Nat) (full : ¬ CanGet s inum → E .igetNoInodes) :
    wp (iget inum) (fun ip t => Got s t ip inum) E s := by
  unfold iget
  rw [wp_read]
  cases found : firstSlot ninode fun k => 0 < (s.inode k).ref ∧ (s.inode k).inum = inum with
  | some ip =>
    obtain ⟨inside, here⟩ := firstSlot_some found
    obtain ⟨ref, cached⟩ := of_decide_eq_true here
    rw [wp_bind, wp_modifyInode, wp_pure]
    exact .shared inside ref cached rfl
  | none =>
    have alone : ∀ k < ninode, 0 < (s.inode k).ref → (s.inode k).inum ≠ inum := by
      intro k inside ref cached
      have other := firstSlot_none.mp found k inside
      simp [ref, cached] at other
    cases empty : firstSlot ninode fun k => (s.inode k).ref = 0 with
    | some ip =>
      obtain ⟨inside, here⟩ := firstSlot_some empty
      rw [wp_bind, wp_modifyInode, wp_pure]
      exact .fresh inside (of_decide_eq_true here) alone rfl
    | none =>
      rw [wp_throw]
      apply full
      rintro ⟨k, inside, ⟨ref, cached⟩ | free⟩
      · exact alone k inside ref cached
      · have other := firstSlot_none.mp empty k inside
        simp [free] at other

section Got
variable {t : Fs} {inum : Nat} (got : Got s t ip inum)
include got

theorem Got.canGet : CanGet s inum := by
  cases got with
  | shared inside ref cached _ => exact ⟨ip, inside, .inl ⟨ref, cached⟩⟩
  | fresh inside free _ _ => exact ⟨ip, inside, .inr free⟩

theorem Got.inum_eq : (t.inode ip).inum = inum := by
  cases got with
  | shared _ _ cached after => rw [after, setInode_self]; exact cached
  | fresh _ _ _ after => rw [after, setInode_self]

theorem Got.locked_eq : (t.inode ip).locked = (s.inode ip).locked := by
  cases got with
  | shared _ _ _ after => rw [after, setInode_self]
  | fresh _ _ _ after => rw [after, setInode_self]

theorem Got.node_eq : node t = node s := by
  cases got with
  | shared _ _ _ after => rw [after, node_setInode]
  | fresh _ _ _ after => rw [after, node_setInode]

end Got

/-- Nothing but an entry that is not in use has changed. -/
inductive Idle (s t : Fs) : Prop where
  | same (after : t = s)
  | entry (ip : Nat) (x : Inode) (before : (s.inode ip).ref = 0) (unused : x.ref = 0)
      (unlocked : x.locked = (s.inode ip).locked) (after : t = setInode s ip x)

/-- `iput` of an inode that is still needed, or was never read. -/
theorem wp_iput_kept (unlocked : (s.inode ip).locked = false)
    (still : ¬ ((s.inode ip).valid = true ∧ (s.inode ip).din.nlink = 0 ∧ (s.inode ip).ref = 1)) :
    wp (iput ip) (fun _ t => t = setInode s ip { s.inode ip with ref := (s.inode ip).ref - 1 }) E s := by
  unfold iput acquiresleep releasesleep
  simp only [wp_bind, wp_get]
  rw [unlocked, if_neg Bool.false_ne_true, wp_modifyInode, if_neg (by rw [setInode_self]; exact still),
    wp_bind, wp_modifyInode, wp_modifyInode]
  simp only [setInode_self, setInode_setInode, ← unlocked]

/-- An inode that was looked up needs no more than its count put back. -/
theorem Got.still {t : Fs} {inum : Nat} (got : Got s t ip inum) :
    ¬ ((t.inode ip).valid = true ∧ (t.inode ip).din.nlink = 0 ∧ (t.inode ip).ref = 1) := by
  cases got with
  | shared _ ref _ after =>
    rw [after, setInode_self]
    dsimp only
    omega
  | fresh _ _ _ after =>
    rw [after, setInode_self]
    exact fun last => Bool.noConfusion last.1

theorem setInode_same (s : Fs) (ip : Nat) : setInode s ip (s.inode ip) = s :=
  congrArg (fun inode => { s with inode }) (update_eq_self ip s.inode)

/-- The entry after the reference has gone again, in a state where it still was as `iget` left
it. -/
theorem Got.put_back {t u : Fs} {inum : Nat} (got : Got s t ip inum) (entry : u.inode ip = t.inode ip) :
    Idle (setInode u ip (s.inode ip))
      (setInode u ip { u.inode ip with ref := (u.inode ip).ref - 1 }) := by
  rw [entry]
  cases got with
  | shared _ _ _ after =>
    refine .same ?_
    rw [after, setInode_self]
    simp only [Int.add_sub_cancel]
  | fresh _ free _ after =>
    refine .entry ip { s.inode ip with inum, ref := 0, valid := false } ?_ rfl ?_ ?_
    · rw [setInode_self]
      exact free
    · rw [setInode_self]
    · rw [after, setInode_self, setInode_setInode]
      rfl

/-- An inode that was only looked up and put back. -/
theorem Got.put {t : Fs} {inum : Nat} (got : Got s t ip inum) (unlocked : (s.inode ip).locked = false) :
    wp (iput ip) (fun _ u => Idle s u) E t := by
  apply wp_mono (wp_iput_kept (got.locked_eq.trans unlocked) got.still)
  rintro _ u rfl
  have back := got.put_back (u := t) rfl
  have before : setInode t ip (s.inode ip) = s := by
    cases got with
    | shared _ _ _ after | fresh _ _ _ after => rw [after, setInode_setInode, setInode_same]
  rwa [before] at back

theorem Idle.consistent {t : Fs} (idle : Idle s t) (good : Consistent s) : Consistent t := by
  cases idle with
  | same after => rwa [after]
  | entry ip x _ unused _ after =>
    rw [after]
    refine consistent_setInode good fun used => ?_
    omega

theorem Idle.node_eq {t : Fs} (idle : Idle s t) : node t = node s := by
  cases idle with
  | same after => rw [after]
  | entry _ _ _ _ _ after => rw [after, node_setInode]

end Entries

end ColorXv6.Fs.CacheOps
