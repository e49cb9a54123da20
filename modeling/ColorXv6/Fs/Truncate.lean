import ColorXv6.Fs.CacheOps

/-!
`itrunc` gives back every block of an inode, once each, and `iput` of the last reference
to an inode without links leaves it free.
-/
namespace ColorXv6.Fs.Truncate
open Function Lib.LittleEndian Lib.Wp Param Layout BlockMap Inode ReadBlocks Regions Growth Writes
open Store CacheOps
open Lib.Places (Exact)
open Logging.Commit (Block Disk)

/-- From `s` to `t` the blocks that the inode had in `s` at the positions `D` were freed. -/
structure Cut (s t : Fs) (ip : Nat) (D : Nat → Prop) : Prop extends Only ip s t where
  self : ∃ addrs, t.inode ip = { s.inode ip with din := { (s.inode ip).din with addrs } }
  super : (region t).super = (region s).super
  dino : (region t).dino = (region s).dino
  data : (region t).data = (region s).data
  bits : ∀ b, (region t).bit b = true ↔
    (region s).bit b = true ∧ ∀ pos, D pos → block s ip pos = b → b = 0
  logged : ∀ c ∈ t.logged, c ∈ s.logged ∨ ∃ b < s.sb.size, c = bblock s.sb b

section Cut
variable {s t : Fs} {ip : Nat} {D D' : Nat → Prop} {E : Halt → Prop}

theorem cut_refl (s : Fs) (ip : Nat) : Cut s s ip fun _ => False where
  toOnly := .refl ip s
  self := ⟨_, rfl⟩
  super := rfl
  dino := rfl
  data := rfl
  bits := fun _ => ⟨fun used => ⟨used, fun _ none => none.elim⟩, And.left⟩
  logged := fun _ => .inl

/-- Positions without a block make no difference. -/
theorem Cut.congr (cut : Cut s t ip D) (same : ∀ pos, block s ip pos ≠ 0 → (D' pos ↔ D pos)) :
    Cut s t ip D' := by
  refine { cut with bits := fun b => ?_ }
  rw [cut.bits]
  refine and_congr_right fun _ => forall_congr' fun pos => ?_
  by_cases zero : block s ip pos = 0
  · rw [zero]
    exact ⟨fun _ _ here => here.symm, fun _ _ here => here.symm⟩
  · rw [same pos zero]

theorem Cut.laid (cut : Cut s t ip D) (laid : Laid s) : Laid t := laid.congr cut.sb cut.super

/-- One more block is freed. -/
theorem Cut.wp_bfree (cut : Cut s t ip D) (laid : Laid s) (owns : Owns s ip) {pos : Nat}
    (present : block s ip pos ≠ 0) (still : ¬ D pos) :
    wp (bfree (block s ip pos)) (fun _ u => u.inode = t.inode ∧
      Cut s u ip fun q => D q ∨ q = pos) E t := by
  have inside : block s ip pos < t.sb.size := by
    rw [cut.sb]
    exact owns.inside pos present
  have used : (region t).bit (block s ip pos) = true := by
    rw [cut.bits]
    refine ⟨owns.used pos present, fun q freed same => ?_⟩
    rw [owns.once pos q present same.symm] at still
    exact absurd freed still
  apply wp_mono (Regions.wp_bfree (cut.laid laid) inside used)
  rintro _ u ⟨disk, store⟩
  refine ⟨disk.inode, cut.toOnly.trans (disk.only ip), ?_, ?_, ?_, ?_, ?_, ?_⟩
  · rw [disk.inode]
    exact cut.self
  · rw [store, ← cut.super]
  · rw [store, ← cut.dino]
  · rw [store, ← cut.data]
  · intro b
    rw [store]
    dsimp only
    by_cases here : b = block s ip pos
    · rw [here, update_self]
      refine ⟨fun clear => Bool.noConfusion clear, fun both => ?_⟩
      exact absurd (both.2 pos (.inr rfl) rfl) present
    · rw [update_of_ne here, cut.bits]
      refine and_congr_right fun _ => ⟨fun none q freed same => ?_, fun none q freed => none q (.inl freed)⟩
      rcases freed with freed | rfl
      · exact none q freed same
      · exact absurd same.symm here
  · intro c mem
    rcases disk.logged c mem with before | rfl
    · exact cut.logged c before
    · exact .inr ⟨_, cut.sb ▸ inside, by rw [cut.sb]⟩

/-- A word of the address array is cleared. -/
theorem Cut.clear (cut : Cut s t ip D) (n : Nat) :
    Cut s (setInode t ip { t.inode ip with din := (t.inode ip).din.setAddr n 0 }) ip D := by
  obtain ⟨addrs, self⟩ := cut.self
  refine ⟨cut.toOnly.trans only_setInode, ⟨((t.inode ip).din.setAddr n 0).addrs, ?_⟩, cut.super,
    cut.dino, cut.data, cut.bits, cut.logged⟩
  rw [setInode_self, self]
  rfl

end Cut

section Loops
variable {s : Fs} {ip : Nat} {E : Halt → Prop} (laid : Laid s) (owns : Owns s ip)
include laid owns

theorem wp_truncDirect (n : Nat) (inside : n ≤ ndirect) :
    wp (truncDirect ip n) (fun _ t => Cut s t ip (· < n) ∧
      ∀ k, (t.inode ip).din.word k = if k < n then 0 else (s.inode ip).din.word k) E s := by
  induction n with
  | zero =>
    rw [truncDirect, wp_pure]
    refine ⟨(cut_refl s ip).congr fun pos _ => ⟨Nat.not_lt_zero pos, False.elim⟩, fun k => ?_⟩
    rw [if_neg (Nat.not_lt_zero k)]
  | succ n ih =>
    apply wp_seq (ih (by omega))
    rintro _ t ⟨cut, words⟩
    rw [wp_read]
    dsimp only
    have word : (t.inode ip).din.word n = block s ip n := by
      rw [words, if_neg (Nat.lt_irrefl n), block_word s ip (by omega)]
    have next : ∀ pos, block s ip pos ≠ 0 → (pos < n + 1 ↔ pos < n ∨ pos = n) := fun pos _ => by omega
    rw [word]
    split
    · rename_i none
      rw [wp_pure]
      refine ⟨cut.congr fun pos present => ?_, fun k => ?_⟩
      · rw [next pos present]
        refine ⟨fun either => either.resolve_right ?_, .inl⟩
        rintro rfl
        exact present none
      · rw [words]
        by_cases here : k = n
        · rw [here, if_neg (Nat.lt_irrefl n), if_pos (Nat.lt_succ_self n), ← block_word s ip (by omega), none]
        · by_cases below : k < n
          · rw [if_pos below, if_pos (by omega)]
          · rw [if_neg below, if_neg (by omega)]
    · rename_i present
      apply wp_seq (cut.wp_bfree laid owns present (Nat.lt_irrefl n))
      rintro _ u ⟨same, cut'⟩
      unfold modifyDin
      rw [wp_modifyInode]
      refine ⟨(cut'.clear n).congr next, fun k => ?_⟩
      rw [setInode_self, word_setAddr _ (by omega), same, words]
      by_cases here : k = n
      · rw [if_pos here, here, if_pos (Nat.lt_succ_self n)]
      · rw [if_neg here]
        by_cases below : k < n
        · rw [if_pos below, if_pos (by omega)]
        · rw [if_neg below, if_neg (by omega)]

omit laid owns in
theorem wp_truncIndirect {t : Fs} {D : Nat → Prop} (laid : Laid s) (owns : Owns s ip)
    (cut : Cut s t ip D) {a : Block}
    (n : Nat) (inside : n ≤ nindirect)
    (entries : ∀ j < nindirect, getAddr a j = block s ip (ndirect + 1 + j))
    (still : ∀ pos, ndirect < pos → ¬ D pos) :
    wp (truncIndirect a n) (fun _ u => u.inode = t.inode ∧
      Cut s u ip fun pos => D pos ∨ ndirect < pos ∧ pos < ndirect + 1 + n) E t := by
  induction n with
  | zero =>
    rw [truncIndirect, wp_pure]
    refine ⟨rfl, cut.congr fun pos _ => ?_⟩
    exact ⟨fun either => either.resolve_right (by omega), .inl⟩
  | succ n ih =>
    apply wp_seq (ih (by omega))
    rintro _ u ⟨same, cut'⟩
    rw [entries n (by omega)]
    split
    · rename_i none
      rw [wp_pure]
      refine ⟨same, cut'.congr fun pos present => ?_⟩
      have other : pos ≠ ndirect + 1 + n := by
        rintro rfl
        exact present none
      exact or_congr_right (by omega)
    · rename_i present
      apply wp_mono (cut'.wp_bfree laid owns present ?_)
      · rintro _ v ⟨same', cut''⟩
        refine ⟨same'.trans same, cut''.congr fun pos _ => ?_⟩
        rw [or_assoc]
        exact or_congr_right (by omega)
      · rintro (before | late)
        · exact still _ (by omega) before
        · omega

/-- The inode after `itrunc`. -/
def emptied (d : Dinode) : Dinode := { d with size := 0, addrs := fun _ => 0 }

/-- Entry `ip` has become `x`, which has no blocks, and it was written back. -/
structure Emptied (s t : Fs) (ip : Nat) (x : Inode) : Prop extends Only ip s t where
  self : t.inode ip = x
  super : (region t).super = (region s).super
  dino : (region t).dino = update (region s).dino (s.inode ip).inum x.din
  data : (region t).data = (region s).data
  bits : ∀ b, (region t).bit b = true ↔
    (region s).bit b = true ∧ ∀ pos, block s ip pos = b → b = 0
  logged : ∀ c ∈ t.logged, c ∈ s.logged ∨ (∃ b < s.sb.size, c = bblock s.sb b) ∨
    c = iblock s.sb (s.inode ip).inum

omit laid owns in
theorem addrs_eq_zero {d : Dinode} (words : ∀ k, d.word k = 0) : d.addrs = fun _ => 0 := by
  funext j
  have word := words j
  rwa [Dinode.word, dif_pos j.isLt] at word

omit owns in
/-- The end of `itrunc`. -/
theorem wp_emptied {t : Fs} (cut : Cut s t ip fun _ => True) (words : ∀ k, (t.inode ip).din.word k = 0)
    (inum : (s.inode ip).inum < s.sb.ninodes) (fits : (s.inode ip).din.Fits) :
    wp (do modifyDin ip fun d => { d with size := 0 }; iupdate ip)
      (fun _ u => Emptied s u ip { s.inode ip with din := emptied (s.inode ip).din }) E t := by
  obtain ⟨addrs, self⟩ := cut.self
  have zero : addrs = fun _ => 0 := by
    have zero := addrs_eq_zero words
    rwa [self] at zero
  rw [zero] at self
  have din : { (t.inode ip).din with size := 0 } = emptied (s.inode ip).din := by
    rw [self]
    rfl
  have fits' : (emptied (s.inode ip).din).Fits :=
    { fits with size := Nat.two_pow_pos _, addrs := fun _ => Nat.two_pow_pos _ }
  rw [wp_bind]
  apply wp_mono (wp_changeDin (cut.laid laid) (by rwa [self, cut.sb]) (by rwa [din]))
  intro _ u update
  apply wp_mono update
  intro _ v changed
  have number : (t.inode ip).inum = (s.inode ip).inum := by rw [self]
  refine ⟨cut.toOnly.trans changed.toOnly, ?_, ?_, ?_, ?_, ?_, ?_⟩
  · rw [changed.self, din, self]
  · rw [changed.region, ← cut.super]
  · rw [changed.region, number, din, ← cut.dino]
  · rw [changed.region, ← cut.data]
  · intro b
    rw [changed.region, cut.bits]
    exact and_congr_right fun _ => forall_congr' fun pos => ⟨fun here => here trivial, fun here _ => here⟩
  · intro c mem
    rcases changed.logged c mem with before | here
    · exact (cut.logged c before).imp_right .inl
    · rw [number, cut.sb] at here
      exact .inr (.inr here)

theorem wp_itrunc (inum : (s.inode ip).inum < s.sb.ninodes) (fits : (s.inode ip).din.Fits) :
    wp (itrunc ip) (fun _ t => Emptied s t ip { s.inode ip with din := emptied (s.inode ip).din }) E s := by
  apply wp_seq (wp_truncDirect laid owns ndirect (Nat.le_refl _))
  rintro _ t ⟨cut, words⟩
  rw [wp_read]
  have pointer : (t.inode ip).din.word ndirect = block s ip ndirect := by
    rw [words, if_neg (Nat.lt_irrefl _), block_word s ip (Nat.le_refl _)]
  rw [pointer]
  -- past the last entry of the indirect block there are no positions
  have last : ∀ pos, block s ip pos ≠ 0 → pos ≤ maxFile := by
    intro pos present
    by_contra past
    exact present (slot_past _ _ (Nat.lt_of_not_le past))
  by_cases present : block s ip ndirect = 0
  · rw [if_neg fun other => other present]
    refine wp_emptied laid (cut.congr fun pos mapped => ⟨fun _ => ?_, fun _ => trivial⟩) ?_ inum fits
    · by_contra past
      apply mapped
      by_cases here : pos = ndirect
      · rw [here, present]
      · rw [block_word s ip (Nat.le_refl _)] at present
        unfold block slot
        rw [if_neg (by omega), if_neg fun both => both.2 present]
    · intro k
      rw [words]
      split
      · rfl
      · rename_i past
        by_cases here : k = ndirect
        · rw [here, ← block_word s ip (Nat.le_refl _), present]
        · exact dif_neg (by omega)
  · rw [if_pos present, wp_bind, wp_bread]
    have entries : ∀ j < nindirect,
        getAddr (t.disk (block s ip ndirect)) j = block s ip (ndirect + 1 + j) := by
      intro j inside
      have past := owns.past _ present
      rw [block_entry owns inside present, ← region_data s past,
        ← region_data t (by rw [cut.sb]; exact past), cut.data]
    apply wp_seq (wp_truncIndirect laid owns cut nindirect (Nat.le_refl _) entries
      (fun pos after before => by omega))
    rintro _ u ⟨same, cut'⟩
    apply wp_seq (cut'.wp_bfree laid owns present (by omega))
    rintro _ v ⟨same', cut''⟩
    unfold modifyDin
    rw [wp_bind, wp_modifyInode]
    refine wp_emptied laid ((cut''.clear ndirect).congr fun pos mapped => ⟨fun _ => ?_, fun _ => trivial⟩)
      ?_ inum fits
    · have inside := last pos mapped
      unfold maxFile at inside
      omega
    · intro k
      rw [setInode_self, word_setAddr _ (Nat.le_refl _), same', same, words]
      split
      · rfl
      · rename_i other
        split
        · rfl
        · exact dif_neg (by omega)

end Loops

/-! ### iput -/

/-- A node after the last reference to it is gone. -/
def freed (d : Node) : Node := { d with type := 0, size := 0, bytes := fun _ => 0 }

section Freed
variable {s t : Fs} {ip : Nat} {x : Inode} {E : Halt → Prop}

section Emptied
variable (good : Consistent s) (loaded : Loaded s ip) (gone : Emptied s t ip x)
  (din : x.din = { emptied (s.inode ip).din with type := 0 })
include good loaded gone din

omit good loaded in
theorem place_freed (pos : Nat) : place t ((s.inode ip).inum, pos) = 0 := by
  have words : ∀ k, x.din.word k = 0 := by
    intro k
    rw [din, Dinode.word]
    split <;> rfl
  unfold place slot
  rw [gone.dino]
  simp only [update_self, words, ne_eq, not_true_eq_false, and_false, if_false, ite_self]

omit good loaded din in
theorem place_unfreed {i : Nat} (other : i ≠ (s.inode ip).inum) (pos : Nat) :
    place t (i, pos) = place s (i, pos) := by
  unfold place
  rw [gone.dino, gone.data]
  rw [update_of_ne other]

theorem exact_freed : Exact (place t) fun b => dataStart t.sb ≤ b ∧ (region t).bit b = true := by
  rw [gone.sb]
  constructor
  case zero => exact fun used => good.exact.zero ⟨used.1, ((gone.bits 0).mp used.2).1⟩
  case inUse =>
    rintro ⟨i, pos⟩ nonzero
    by_cases here : i = (s.inode ip).inum
    · rw [here] at nonzero
      exact absurd (place_freed gone din pos) nonzero
    · rw [place_unfreed gone here] at nonzero ⊢
      obtain ⟨past, used⟩ := good.exact.inUse _ nonzero
      refine ⟨past, (gone.bits _).mpr ⟨used, fun q same => ?_⟩⟩
      rw [good.block_eq loaded] at same
      exact absurd (congrArg Prod.fst (good.exact.once _ _ nonzero same.symm)) here
  case once =>
    rintro ⟨i, p⟩ ⟨j, q⟩ nonzero same
    have left : i ≠ (s.inode ip).inum := by
      rintro rfl
      exact nonzero (place_freed gone din p)
    have right : j ≠ (s.inode ip).inum := by
      rintro rfl
      exact nonzero (same.trans (place_freed gone din q))
    rw [place_unfreed gone left] at nonzero same
    rw [place_unfreed gone right] at same
    exact good.exact.once _ _ nonzero same
  case held =>
    rintro b ⟨past, used⟩
    obtain ⟨before, free⟩ := (gone.bits b).mp used
    obtain ⟨⟨i, pos⟩, rfl⟩ := good.exact.held b ⟨past, before⟩
    by_cases here : i = (s.inode ip).inum
    · have zero := free pos (by rw [good.block_eq loaded, here])
      have := dataStart_pos s.sb
      omega
    · exact ⟨(i, pos), place_unfreed gone here pos⟩

theorem consistent_freed (last : ¬ 0 < x.ref) : Consistent t := by
  have others : ∀ k, 0 < (t.inode k).ref → k ≠ ip := by
    rintro k ref rfl
    rw [gone.self] at ref
    exact last ref
  constructor
  case laid => exact good.laid.congr gone.sb gone.super
  case reserved =>
    intro b below inside
    rw [gone.sb] at below inside
    refine (gone.bits b).mpr ⟨good.reserved b below inside, ?_⟩
    rintro pos rfl
    by_contra nonzero
    have past := (good.owns loaded).past pos nonzero
    omega
  case exact => exact exact_freed good loaded gone din
  case free =>
    intro i zero pos
    by_cases here : i = (s.inode ip).inum
    · rw [here, place_freed gone din]
    · rw [gone.dino, update_of_ne here] at zero
      rw [place_unfreed gone here]
      exact good.free i zero pos
  case mapped =>
    intro i bn inside
    by_cases here : i = (s.inode ip).inum
    · rw [here, gone.dino, update_self, din] at inside
      exact absurd inside (Nat.not_lt_zero _)
    · rw [gone.dino, update_of_ne here] at inside
      rw [place_unfreed gone here]
      exact good.mapped i bn inside
  case entries =>
    intro k ref
    have same := gone.others k (others k ref)
    rw [same] at ref ⊢
    rw [gone.sb]
    exact good.entries k ref
  case single =>
    intro k l left right
    have first := gone.others k (others k left)
    have second := gone.others l (others l right)
    rw [first] at left ⊢
    rw [second] at right ⊢
    exact good.single k l left right
  case coherent =>
    intro k ref
    have other := others k ref
    rw [gone.others k other] at ref ⊢
    have apart : (s.inode k).inum ≠ (s.inode ip).inum := fun same =>
      other (good.single k ip ref loaded.ref same)
    rw [gone.dino, update_of_ne apart]
    exact good.coherent k ref

theorem node_freed : node t = update (node s) (s.inode ip).inum (freed (node s (s.inode ip).inum)) := by
  funext i
  by_cases here : i = (s.inode ip).inum
  · rw [here, update_self]
    unfold node freed
    rw [gone.dino]
    simp only [update_self, din, emptied, ← good.din_eq loaded, Nat.not_lt_zero, if_false]
  · rw [update_of_ne here]
    unfold node
    rw [gone.dino, gone.data]
    simp only [update_of_ne here, place_unfreed gone here]

end Emptied

/-- A field is set once more. -/
theorem Emptied.change {u : Fs} {d : Dinode} (gone : Emptied s t ip x)
    (inum : x.inum = (s.inode ip).inum) (changed : Changed t u ip d) :
    Emptied s u ip { x with din := d } := by
  have number : (t.inode ip).inum = (s.inode ip).inum := by rw [gone.self, inum]
  refine ⟨gone.toOnly.trans changed.toOnly, ?_, ?_, ?_, ?_, ?_, ?_⟩
  · rw [changed.self, gone.self]
  · rw [changed.region, ← gone.super]
  · rw [changed.region, number, gone.dino]
    exact update_idem _ _ _
  · rw [changed.region, ← gone.data]
  · rw [changed.region]
    exact gone.bits
  · intro c mem
    rcases changed.logged c mem with before | here
    · exact gone.logged c before
    · rw [number, gone.sb] at here
      exact .inr (.inr here)

/-- The rest of the entry does not matter, before or after. -/
theorem Emptied.setInode {y z : Inode} (gone : Emptied (setInode s ip y) t ip x)
    (inum : y.inum = (s.inode ip).inum) (before : y.din = (s.inode ip).din) (after : z.din = x.din) :
    Emptied s (setInode t ip z) ip z := by
  have blocks : ∀ pos, block (CacheOps.setInode s ip y) ip pos = block s ip pos := by
    intro pos
    unfold block
    rw [setInode_self, before]
    rfl
  refine ⟨only_setInode.trans (gone.toOnly.trans only_setInode), setInode_self, gone.super, ?_,
    gone.data, ?_, ?_⟩
  · rw [after, ← inum]
    have dino := gone.dino
    rwa [setInode_self] at dino
  · have bits := gone.bits
    simp only [blocks] at bits
    exact bits
  · have logged := gone.logged
    rwa [setInode_self, inum] at logged

/-- An entry after `iput` has freed its inode. -/
def released (x : Inode) : Inode where
  inum := x.inum
  din := { emptied x.din with type := 0 }

/-- What `iput` does: it drops the reference, and with the last one to an inode that has no
links, the inode. -/
inductive Put (s t : Fs) (ip : Nat) : Prop where
  | kept (still : ¬ ((s.inode ip).valid = true ∧ (s.inode ip).din.nlink = 0 ∧ (s.inode ip).ref = 1))
      (after : t = setInode s ip { s.inode ip with ref := (s.inode ip).ref - 1 })
  | freed (last : (s.inode ip).valid = true ∧ (s.inode ip).din.nlink = 0 ∧ (s.inode ip).ref = 1)
      (gone : Emptied s t ip (released (s.inode ip)))

theorem wp_iput (good : Consistent s) (ref : 0 < (s.inode ip).ref)
    (unlocked : (s.inode ip).locked = false) : wp (iput ip) (fun _ t => Put s t ip) E s := by
  by_cases last : (s.inode ip).valid = true ∧ (s.inode ip).din.nlink = 0 ∧ (s.inode ip).ref = 1
  · unfold iput acquiresleep
    simp only [wp_bind, wp_get]
    rw [unlocked, if_neg Bool.false_ne_true, wp_modifyInode]
    obtain ⟨t, here⟩ : ∃ t, setInode s ip { s.inode ip with locked := true } = t := ⟨_, rfl⟩
    have self : t.inode ip = { s.inode ip with locked := true } := by
      rw [← here, setInode_self]
    rw [here, if_pos (by rw [self]; exact last)]
    have loaded : Loaded t ip := ⟨by rw [self]; exact ref, by rw [self]; exact last.1⟩
    have good' : Consistent t := by
      rw [← here]
      exact consistent_setInode good fun _ => entry_in_use good ref rfl (good.coherent ip ref)
    have inum : (t.inode ip).inum < t.sb.ninodes := (good'.entries ip loaded.ref).2
    have fits : (t.inode ip).din.Fits := by
      rw [good'.din_eq loaded]
      exact dino_fits t _
    apply wp_seq (wp_itrunc good'.laid (good'.owns loaded) inum fits)
    intro _ u gone
    have din : { (u.inode ip).din with type := 0 } = (released (s.inode ip)).din := by
      rw [gone.self, self]
      rfl
    have fits' : (released (s.inode ip)).din.Fits := by
      rw [self] at fits
      exact ⟨(by decide : (-2 ^ 15 : Int) ≤ 0 ∧ (0 : Int) < 2 ^ 15), fits.major, fits.minor, fits.nlink,
        Nat.two_pow_pos _, fun _ => Nat.two_pow_pos _⟩
    rw [wp_bind]
    apply wp_mono (wp_changeDin (good'.laid.congr gone.sb gone.super)
      (by rw [gone.self, gone.sb]; exact inum) (by rwa [din]))
    intro _ v update
    rw [wp_bind]
    apply wp_mono update
    intro _ w changed
    rw [din] at changed
    have empty := gone.change rfl changed
    have final : { w.inode ip with valid := false, locked := false, ref := (w.inode ip).ref - 1 } =
        released (s.inode ip) := by
      rw [empty.self, self]
      rw [last.2.2]
      rfl
    unfold releasesleep
    rw [wp_bind, wp_modifyInode, wp_bind, wp_modifyInode, wp_modifyInode]
    simp only [setInode_self, setInode_setInode]
    rw [final]
    rw [← here] at empty
    exact .freed last (empty.setInode rfl rfl rfl)
  · exact wp_mono (wp_iput_kept unlocked last) fun _ _ after => .kept last after

theorem Put.consistent (put : Put s t ip) (good : Consistent s) (ref : 0 < (s.inode ip).ref) :
    Consistent t := by
  cases put with
  | kept _ after =>
    rw [after]
    exact consistent_setInode good fun _ => entry_in_use good ref rfl (good.coherent ip ref)
  | freed last gone => exact consistent_freed good ⟨ref, last.1⟩ gone rfl (Int.lt_irrefl 0)

end Freed

end ColorXv6.Fs.Truncate
