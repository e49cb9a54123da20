import ColorXv6.Fs.Growth

/-!
`writei` on a file: the bytes from the offset on are replaced, the file grows to the
end of them, and it gets the blocks it had not.
-/
namespace ColorXv6.Fs.Writes
open Function Lib.LittleEndian Lib.Wp Param Layout BlockMap Inode ReadBlocks Regions Growth
open Logging.Commit (Block Disk)

/-- `n` bytes of `src` put over the bytes `c` from `off` on. -/
def patch (c : Nat → UInt8) (off n : Nat) (src : Bytes) (k : Nat) : UInt8 :=
  if off ≤ k ∧ k < off + n then src (k - off) else c k

theorem patch_zero (c : Nat → UInt8) (off : Nat) (src : Bytes) : patch c off 0 src = c := by
  funext k
  unfold patch
  rw [if_neg (by omega)]

theorem patch_congr (c : Nat → UInt8) (off : Nat) {n : Nat} {src src' : Bytes}
    (same : ∀ k < n, src k = src' k) : patch c off n src = patch c off n src' := by
  funext k
  unfold patch
  split
  · exact same _ (by omega)
  · rfl

/-- What is put next goes on with the same source. -/
theorem patch_append (c : Nat → UInt8) (off m n : Nat) (src : Bytes) :
    patch (patch c off m src) (off + m) n (fun k => src (m + k)) = patch c off (m + n) src := by
  funext k
  unfold patch
  by_cases first : off ≤ k ∧ k < off + m
  · rw [if_neg (by omega), if_pos first, if_pos (by omega)]
  · rw [if_neg first]
    by_cases second : off + m ≤ k ∧ k < off + m + n
    · rw [if_pos second, if_pos (by omega)]
      exact congrArg src (by omega)
    · rw [if_neg second, if_neg (by omega)]

/-- The positions that bytes `off` to `off + n` of a file use. -/
def Covers (P : Finset Nat) (off n : Nat) : Prop :=
  ∀ k, off ≤ k → k < off + n → dataPos (k / bsize) ∈ P ∧ (ndirect ≤ k / bsize → ndirect ∈ P)

section Loop
variable {s t u : Fs} {ip : Nat} {E : Halt → Prop}

/-- A block of the file is stored. -/
theorem grew_store {bn : Nat} (owns : Owns t ip) (present : block t ip (dataPos bn) ≠ 0)
    {data : Block} {B : Nat → Prop} (same : OnDisk B t u)
    (store : region u = { region t with
      data := update (region t).data (block t ip (dataPos bn)) data }) :
    Grew t u ip ∧ (∀ pos, block u ip pos = block t ip pos) ∧ (∀ P, room P u ip = room P t ip) ∧
      ∀ k, content u ip k = if k / bsize = bn then data (k % bsize) else content t ip k := by
  have apart : block t ip ndirect ≠ block t ip (dataPos bn) := fun equal =>
    dataPos_ne_ndirect bn (owns.once _ _ present equal.symm)
  have blocks : ∀ pos, block u ip pos = block t ip pos := by
    intro pos
    rw [block_word t ip (Nat.le_refl _)] at apart
    unfold block
    rw [same.inode, store]
    exact slot_update _ (fun _ => apart) pos
  have filled : Filled t u ip := by
    refine owns.filled (same.only ip) (by rw [store]) blocks (by rw [store]) fun b other => ?_
    rw [store]
    exact update_of_ne (other _).symm _ _
  refine ⟨⟨filled, ⟨_, by rw [same.inode]⟩, by rw [store]⟩, blocks, ?_, ?_⟩
  · intro P
    unfold room freeBlocks
    simp only [blocks, store, same.sb]
  · intro k
    unfold content
    rw [blocks, store]
    dsimp only
    by_cases here : k / bsize = bn
    · rw [if_pos here, here, update_self]
    · rw [if_neg here]
      by_cases zero : block t ip (dataPos (k / bsize)) = 0
      · rw [zero, update_of_ne present.symm]
      · rw [update_of_ne]
        exact fun equal => here (dataPos_inj (owns.once _ _ zero equal))

/-- Part of one block of the file is stored. -/
theorem content_store {off m : Nat} {src : Bytes} (within : off % bsize + m ≤ bsize)
    (after : ∀ k, content u ip k = if k / bsize = off / bsize then
      buffer (putBytes ((region t).data (block t ip (dataPos (off / bsize)))) (off % bsize) m src)
        (k % bsize) else content t ip k) : content u ip = patch (content t ip) off m src := by
  funext k
  rw [after]
  have size : 0 < bsize := by decide
  have inside := Nat.mod_lt k size
  unfold patch
  by_cases here : k / bsize = off / bsize
  · rw [if_pos here, buffer_apply, if_pos inside]
    have same : off - off % bsize = k - k % bsize := by
      have left := Nat.div_add_mod' off bsize
      have right := Nat.div_add_mod' k bsize
      rw [here] at right
      omega
    have small := Nat.mod_le off bsize
    have small' := Nat.mod_le k bsize
    by_cases new : off ≤ k ∧ k < off + m
    · have place : k % bsize = off % bsize + (k - off) := by omega
      rw [if_pos new, place, putBytes_inside _ _ _ _ _ (by omega)]
    · rw [if_neg new, putBytes_outside _ _ _ _ _ (by omega), ← here]
      rfl
  · have apart : ¬ (off ≤ k ∧ k < off + m) := by
      rintro ⟨lo, hi⟩
      apply here
      unfold bsize at *
      omega
    rw [if_neg here, if_neg apart]

/-- The loop of `writei`. -/
theorem wp_writeBlocks (src : Bytes) (n off tot fuel : Nat) (laid : Laid s) (reserved : Reserved s)
    (owns : Owns s ip) (fits : off + (n - tot) ≤ maxFile * bsize)
    (enough : (n - tot = 0 ∨ off % bsize + (n - tot) ≤ (fuel - 1) * bsize) ∧ 0 < fuel)
    {P : Finset Nat} (covers : Covers P off (n - tot))
    (full : room P s ip < 0 → E .ballocOutOfBlocks) :
    wp (writeBlocks ip src n off tot fuel) (fun last t => last = off + (n - tot) ∧ Grew s t ip ∧
      room P t ip = room P s ip ∧
      (content t ip = patch (content s ip) off (n - tot) fun k => src (tot + k)) ∧
      (∀ k, off ≤ k → k < off + (n - tot) → block t ip (dataPos (k / bsize)) ≠ 0) ∧
      (∀ pos, pos ∉ P → block t ip pos = block s ip pos) ∧
      ∀ c ∈ t.logged, c ∈ s.logged ∨ Touched P t ip c) E s := by
  induction fuel generalizing s off tot with
  | zero => omega
  | succ fuel ih =>
    unfold writeBlocks
    split
    · rename_i more
      have size : 0 < bsize := by decide
      have below : off % bsize < bsize := Nat.mod_lt _ size
      have inside : off / bsize < maxFile := by
        rw [Nat.div_lt_iff_lt_mul size]
        omega
      obtain ⟨mem, pointer⟩ := covers off (Nat.le_refl _) (by omega)
      apply wp_seq (wp_bmap laid reserved owns inside mem pointer full)
      rintro b t ⟨grew, bytes, rooms, rfl, present, only, logged⟩
      have laid' := grew.laid laid
      have reserved' := grew.reserved reserved
      have owns' := grew.owns owns
      rw [wp_bind, wp_bread]
      obtain ⟨m, count⟩ : ∃ m, chunk off n tot = m := ⟨_, rfl⟩
      rw [count]
      unfold chunk at count
      apply wp_seq (wp_logWrite_data laid' (owns'.past _ present) _)
      rintro _ u ⟨same, store⟩
      obtain ⟨stored, blocks, rooms', contents⟩ := grew_store owns' present same store
      have rounds : (n - (tot + m) = 0 ∨ (off + m) % bsize + (n - (tot + m)) ≤ (fuel - 1) * bsize) ∧
          0 < fuel := by
        unfold bsize at *
        omega
      have room : room P u ip = room P s ip := (rooms' P).trans rooms
      apply wp_mono (ih (off + m) (tot + m) (stored.laid laid') (stored.reserved reserved')
        (stored.owns owns') (by omega) rounds
        (fun k lo hi => covers k (by omega) (by omega)) (fun neg => full (room ▸ neg)))
      rintro last v ⟨rfl, more, rooms'', after, mapped, only', logged'⟩
      have kept : block v ip (dataPos (off / bsize)) ≠ 0 := by
        rw [more.kept, blocks]
        · exact present
        · rwa [blocks]
      refine ⟨by omega, (grew.trans stored).trans more, rooms''.trans room, ?_, ?_, ?_, ?_⟩
      · rw [← region_data t (owns'.past _ present)] at contents
        rw [after, content_store (by omega) contents, bytes,
          show n - tot = m + (n - (tot + m)) by omega, ← patch_append]
        simp only [Nat.add_assoc]
      · intro k lo hi
        by_cases first : k < off + m
        · have here : k / bsize = off / bsize := by
            unfold bsize at *
            omega
          rwa [here]
        · exact mapped k (by omega) (by omega)
      · intro pos outside
        rw [only' pos outside, blocks, only pos outside]
      · intro c mem'
        rcases logged' c mem' with before | here
        · rcases same.logged c before with before | rfl
          · exact (logged c before).imp_right fun touched => more.touched (stored.touched touched)
          · exact .inr (more.touched (.inr ⟨present, _, mem, blocks _⟩))
        · exact .inr here
    · rename_i done
      rw [wp_pure]
      have zero : n - tot = 0 := by omega
      refine ⟨by omega, owns.refl_grew, rfl, ?_, ?_, fun _ _ => rfl, fun _ => .inl⟩
      · rw [zero, patch_zero]
      · intro k lo hi
        omega

/-- A field of the inode was set to make it `d`, and it was written back. -/
structure Changed (s t : Fs) (ip : Nat) (d : Dinode) : Prop extends Only ip s t where
  self : t.inode ip = { s.inode ip with din := d }
  region : region t = { Regions.region s with
    dino := update (Regions.region s).dino (s.inode ip).inum d }
  logged : ∀ c ∈ t.logged, c ∈ s.logged ∨ c = iblock s.sb (s.inode ip).inum

/-- `modifyDin` and `iupdate`. -/
theorem wp_changeDin (laid : Laid s) (inum : (s.inode ip).inum < s.sb.ninodes)
    {f : Dinode → Dinode} (fits : (f (s.inode ip).din).Fits) :
    wp (modifyDin ip f) (fun _ t => wp (iupdate ip)
      (fun _ u => Changed s u ip (f (s.inode ip).din)) E t) E s := by
  unfold modifyDin modifyInode
  rw [wp_modify]
  obtain ⟨t, final⟩ : ∃ t, { s with inode := fun k => if k = ip then
    { s.inode k with din := f (s.inode k).din } else s.inode k } = t := ⟨_, rfl⟩
  rw [final]
  have self : t.inode ip = { s.inode ip with din := f (s.inode ip).din } := by
    rw [← final]
    exact if_pos rfl
  have only : Only ip s t := final ▸ ⟨⟨rfl, rfl, rfl, rfl⟩, fun _ other => if_neg other⟩
  have sb := only.sb
  have same : region t = region s := by
    rw [← final]
    rfl
  have laid' : Laid t := laid.congr sb (by rw [same])
  apply wp_mono (wp_iupdate laid' (by rwa [self, sb]) (by rwa [self]))
  rintro _ u ⟨disk, store⟩
  refine ⟨only.trans (disk.only ip), ?_, ?_, ?_⟩
  · rw [disk.inode, self]
  · rw [store, same, self]
  · intro c mem
    rcases disk.logged c mem with before | here
    · rw [← final] at before
      exact .inl before
    · rw [self, sb] at here
      exact .inr here

theorem Changed.block {d : Dinode} (changed : Changed s t ip d)
    (addrs : d.addrs = (s.inode ip).din.addrs) (pos : Nat) : block t ip pos = block s ip pos := by
  have words : ∀ n, d.word n = (s.inode ip).din.word n := by
    intro n
    unfold Dinode.word
    rw [addrs]
  unfold Growth.block slot
  rw [changed.self, changed.region]
  simp only [words]

theorem Changed.content {d : Dinode} (changed : Changed s t ip d)
    (addrs : d.addrs = (s.inode ip).din.addrs) : content t ip = content s ip := by
  funext k
  unfold Growth.content
  rw [changed.block addrs, changed.region]

theorem Changed.filled {d : Dinode} (changed : Changed s t ip d) (owns : Owns s ip)
    (addrs : d.addrs = (s.inode ip).din.addrs) : Filled s t ip :=
  owns.filled changed.toOnly (by rw [changed.region]) (changed.block addrs) (by rw [changed.region])
    fun b _ => by rw [changed.region]

/-- The addresses of an inode with its blocks are 32-bit. -/
theorem addrs_lt (laid : Laid s) (owns : Owns s ip) (j : Fin (ndirect + 1)) :
    (s.inode ip).din.addrs j < 2 ^ 32 := by
  have word : block s ip j = (s.inode ip).din.addrs j := by
    rw [block_word s ip (Nat.le_of_lt_succ j.isLt), Dinode.word, dif_pos j.isLt]
  rw [← word]
  by_cases zero : block s ip j = 0
  · rw [zero]
    decide
  · exact Nat.lt_trans (owns.inside _ zero) laid.ordered.small

/-- The file after `n` bytes of `src` have been written at `off`, with blocks added at
positions of `P`; it has been written back if its size has changed. -/
structure Wrote (s t : Fs) (ip off n : Nat) (src : Bytes) (P : Finset Nat) : Prop
    extends Filled s t ip where
  self : ∃ addrs, t.inode ip = { s.inode ip with din :=
    { (s.inode ip).din with addrs, size := max (s.inode ip).din.size (off + n) } }
  dino : ∀ i, i ≠ (s.inode ip).inum → (region t).dino i = (region s).dino i
  saved : (region t).dino (s.inode ip).inum =
    if (s.inode ip).din.size < off + n then (t.inode ip).din
    else (region s).dino (s.inode ip).inum
  bytes : content t ip = patch (content s ip) off n src
  mapped : ∀ k, off ≤ k → k < off + n → block t ip (dataPos (k / bsize)) ≠ 0
  only : ∀ pos, pos ∉ P → block t ip pos = block s ip pos
  room : room P t ip = room P s ip
  logged : ∀ c ∈ t.logged, c ∈ s.logged ∨ Touched P t ip c ∨ c = iblock s.sb (s.inode ip).inum

/-- `writei` of a file or directory, when the range is one a file can have. -/
theorem wp_writei (src : Bytes) {off n : Nat} (laid : Laid s) (reserved : Reserved s)
    (owns : Owns s ip) (inum : (s.inode ip).inum < s.sb.ninodes) (fits : (s.inode ip).din.Fits)
    (file : (s.inode ip).din.type ≠ tDev) (start : off ≤ (s.inode ip).din.size)
    (limit : off + n ≤ maxFile * bsize) {P : Finset Nat} (covers : Covers P off n)
    (full : room P s ip < 0 → E .ballocOutOfBlocks) :
    wp (writei ip src off n) (fun r t => r = n ∧ Wrote s t ip off n src P) E s := by
  have small : maxFile * bsize < 2 ^ 32 := by decide
  unfold writei
  rw [wp_read]
  rw [if_neg file, Nat.mod_eq_of_lt (by omega), if_neg (by omega), if_neg (by omega)]
  have rounds : (n - 0 = 0 ∨ off % bsize + (n - 0) ≤ (blockFuel n - 1) * bsize) ∧
      0 < blockFuel n := by
    unfold blockFuel bsize
    omega
  apply wp_seq (wp_writeBlocks src n off 0 (blockFuel n) laid reserved owns (by omega) rounds covers full)
  rintro last t ⟨rfl, grew, rooms, bytes, mapped, only, logged⟩
  obtain ⟨addrs, self⟩ := grew.self
  simp only [Nat.sub_zero, Nat.zero_add] at bytes mapped ⊢
  by_cases grows : (s.inode ip).din.size < off + n
  · rw [if_pos ⟨by omega, grows⟩, wp_bind]
    have fits' : Dinode.Fits { (t.inode ip).din with size := off + n } := by
      have addresses := addrs_lt (grew.laid laid) (grew.owns owns)
      rw [self] at addresses ⊢
      exact { fits with size := by dsimp only; omega, addrs := addresses }
    apply wp_mono (wp_changeDin (grew.laid laid) (by rwa [self, grew.sb]) fits')
    intro _ u update
    rw [wp_bind]
    apply wp_mono update
    intro _ v changed
    have blocks := changed.block rfl
    have filled := changed.filled (grew.owns owns) rfl
    have inum' : (t.inode ip).inum = (s.inode ip).inum := by rw [self]
    rw [wp_pure]
    refine ⟨rfl, grew.toFilled.trans filled, ⟨addrs, ?_⟩, ?_, ?_, ?_, ?_, ?_, ?_, ?_⟩
    · rw [changed.self, self, Nat.max_eq_right (by omega)]
    · intro i other
      rw [changed.region, inum', ← grew.dino]
      exact update_of_ne other _ _
    · rw [if_pos grows, changed.self, changed.region, inum']
      exact update_self _ _ _
    · rw [changed.content rfl, bytes]
    · intro k lo hi
      rw [blocks]
      exact mapped k lo hi
    · intro pos outside
      rw [blocks, only pos outside]
    · unfold Growth.room freeBlocks at *
      simp only [blocks, changed.sb, changed.region]
      exact rooms
    · intro c mem
      rcases changed.logged c mem with before | here
      · exact (logged c before).imp_right fun touched => .inl (filled.touched touched)
      · rw [inum', grew.sb] at here
        exact .inr (.inr here)
  · rw [if_neg (fun both => grows both.2), wp_pure]
    refine ⟨rfl, grew.toFilled, ⟨addrs, ?_⟩, fun i _ => by rw [grew.dino], ?_, bytes, mapped, only, rooms,
      fun c mem => (logged c mem).imp_right .inl⟩
    · rw [self, Nat.max_eq_left (by omega)]
    · rw [if_neg grows, grew.dino]

end Loop

end ColorXv6.Fs.Writes
