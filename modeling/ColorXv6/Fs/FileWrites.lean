import ColorXv6.Fs.CacheOps
import ColorXv6.Fs.SysFile

/-!
`filewrite`, which writes in chunks with the inode unlocked between them. Alone it is one
write; among others that share the offset, the chunks of all of them follow each other.
-/
namespace ColorXv6.Fs.FileWrites
open Function Lib.LittleEndian Lib.Wp Lib.Runs Param Layout BlockMap Inode SysFile
open Regions Growth Writes Store CacheOps

/-- `writei` of `n` bytes at the offset of file `i`, which moves by what was written: the
part of `filewrite` that runs with the inode locked. -/
def writeAt (i : Nat) (src : Bytes) (n : Nat) : FsM Int := do
  beginOp
  let s ← get
  let f := s.file i
  ilock f.ip
  let r ← writei f.ip src f.off n
  if r > 0 then
    modifyFile i fun f => { f with off := (f.off + r.toNat) % 2 ^ 32 }
  iunlock f.ip
  return r

/-- The loop of `filewrite` locks the inode once for each chunk. -/
theorem writeChunks_succ (i : Nat) (addr : Bytes) (n done fuel : Nat) :
    writeChunks i addr n done (fuel + 1) = if done < n then do
      let r ← writeAt i (fun k => addr (done + k)) (min (n - done) maxChunk)
      if r < 0 then return -1
      else if r ≠ (min (n - done) maxChunk : Nat) then throw .shortFilewrite
      else writeChunks i addr n (done + min (n - done) maxChunk) fuel
    else return n := by
  conv => lhs; unfold writeChunks
  unfold writeAt
  split
  · simp only [bind_assoc]
    congr 1
    funext _
    congr 1
    funext s
    congr 1
    funext _
    congr 1
    funext r
    -- the rest of the round stands in both branches
    split
    · simp only [bind_assoc, pure_bind]
    · simp only [bind_assoc, pure_bind]
  · rfl

/-- The free blocks less the positions of `P` at which inode `i` has no block. -/
def spare (P : Finset Nat) (s : Fs) (i : Nat) : Int :=
  (freeBlocks s).card - (P.filter fun pos => place s (i, pos) = 0).card

theorem room_eq {s : Fs} {ip : Nat} (good : Consistent s) (loaded : Loaded s ip) (P : Finset Nat) :
    room P s ip = spare P s (s.inode ip).inum := by
  unfold room spare
  simp only [good.block_eq loaded]

theorem spare_congr {s t : Fs} (disk : t.disk = s.disk) (sb : t.sb = s.sb) (P : Finset Nat) (i : Nat) :
    spare P t i = spare P s i := by
  unfold spare freeBlocks place
  rw [region_congr disk sb, sb]

/-- File `i` is on inode `inum`, a regular file, which nobody has locked. -/
structure Regular (s : Fs) (i inum : Nat) : Prop where
  ref : 0 < (s.inode (s.file i).ip).ref
  unlocked : (s.inode (s.file i).ip).locked = false
  number : (s.inode (s.file i).ip).inum = inum
  type : (node s inum).type = tFile
  start : (s.file i).off ≤ (node s inum).size

/-- What is left when `n` bytes of `src` have been written at the offset of file `i`. -/
structure Advanced (s t : Fs) (i inum n : Nat) (src : Bytes) : Prop where
  good : Consistent t
  regular : Regular t i inum
  node : node t = update (node s) inum ((node s inum).write (s.file i).off n src)
  file : t.file = update s.file i { s.file i with off := (s.file i).off + n }

section Chunk
variable {s : Fs} {i inum : Nat} {E : Halt → Prop}

theorem wp_modifyFile (f : File → File) (Q : PUnit → Fs → Prop) :
    wp (modifyFile i f) Q E s ↔ Q ⟨⟩ { s with file := update s.file i (f (s.file i)) } := by
  unfold modifyFile
  rw [wp_modify]
  have same : (fun k => if k = i then f (s.file k) else s.file k) =
      update s.file i (f (s.file i)) := by
    funext k
    rw [update_apply]
    split
    · rename_i here
      rw [here]
    · rfl
  rw [same]

theorem wp_writeAt (src : Bytes) {n : Nat} (good : Consistent s) (regular : Regular s i inum)
    (limit : (s.file i).off + n ≤ maxFile * bsize) {P : Finset Nat}
    (covers : Covers P (s.file i).off n) (full : spare P s inum < 0 → E .ballocOutOfBlocks) :
    wp (writeAt i src n) (fun r t => r = n ∧ Advanced s t i inum n src ∧
      spare P t inum = spare P s inum) E s := by
  obtain ⟨ref, unlocked, number, type, start⟩ := regular
  obtain ⟨ip, file⟩ : ∃ ip, (s.file i).ip = ip := ⟨_, rfl⟩
  rw [file] at ref unlocked number
  unfold writeAt beginOp
  rw [wp_bind, wp_modify, wp_read]
  dsimp only
  rw [file]
  have good : Consistent { s with logged := [] } := good.congr rfl rfl rfl
  apply wp_seq (wp_ilock (s := { s with logged := [] }) ref (good.entries ip ref).2
    (good.coherent ip ref) unlocked fun zero => ?_)
  · rintro _ t ⟨rfl, allocated⟩
    obtain ⟨good, loaded⟩ := consistent_ilock good ref allocated
    obtain ⟨t, here⟩ : ∃ t, setInode { s with logged := [] } ip (locked { s with logged := [] } ip) = t :=
      ⟨_, rfl⟩
    rw [here] at good loaded ⊢
    have self : t.inode ip = locked { s with logged := [] } ip := by
      rw [← here, setInode_self]
    have number : (t.inode ip).inum = inum := by rw [self, ← number]; rfl
    have before : node t = node s := by rw [← here]; rfl
    have files : t.file = s.file := by rw [← here]; rfl
    have rooms : room P t ip = spare P s inum := by
      rw [room_eq good loaded, number, ← here]
      rfl
    have din : (t.inode ip).din = (region t).dino inum := number ▸ good.din_eq loaded
    have kind : (t.inode ip).din.type = tFile := by
      rw [din, ← type, ← before]
      rfl
    have size : (t.inode ip).din.size = (node s inum).size := by
      rw [din, ← before]
      rfl
    apply wp_seq (good.wp_writei loaded _ (by rw [kind]; decide) (by rw [size]; exact start) limit covers
      (fun neg => full (rooms ▸ neg)))
    rintro r u ⟨rfl, wrote, good', after, room⟩
    obtain ⟨addrs, entry⟩ := wrote.self
    rw [number, before] at after
    have loaded' : Loaded u ip := ⟨by rw [entry]; exact loaded.ref, by rw [entry]; exact loaded.valid⟩
    have number' : (u.inode ip).inum = inum := by rw [entry, ← number]
    have moved : ∀ v : Fs, v.disk = u.disk → v.sb = u.sb → v.inode = u.inode →
        v.file = update s.file i { s.file i with off := (s.file i).off + n } →
        wp (iunlock ip >>= fun _ => pure (n : Int)) (fun r t => r = n ∧
          Advanced s t i inum n src ∧ spare P t inum = spare P s inum) E v := by
      intro v disk sb inode moved
      have entry : v.inode ip = { t.inode ip with din := { (t.inode ip).din with
          addrs, size := max (t.inode ip).din.size ((s.file i).off + n) } } := by
        rw [inode, entry]
      have after : node v = update (node s) inum ((node s inum).write (s.file i).off n src) := by
        rw [← after]
        unfold node place
        rw [region_congr disk sb]
      have file' : (v.file i).ip = ip := by rw [moved, update_self, ← file]
      apply wp_seq (wp_iunlock (by rw [entry]; exact loaded.ref) (by rw [entry, self]; rfl))
      rintro _ w rfl
      rw [wp_pure]
      refine ⟨rfl, ⟨consistent_iunlock (good'.congr disk sb inode), ⟨?_, ?_, ?_, ?_, ?_⟩, after, moved⟩, ?_⟩
      · rw [show (setInode v ip _).file = v.file from rfl, file', setInode_self, entry]
        exact loaded.ref
      · rw [show (setInode v ip _).file = v.file from rfl, file', setInode_self]
      · rw [show (setInode v ip _).file = v.file from rfl, file', setInode_self, entry]
        exact number
      · rw [node_setInode, after, update_self]
        exact type
      · rw [node_setInode, after, update_self, show (setInode v ip _).file = v.file from rfl, moved,
          update_self]
        exact Nat.le_max_right _ _
      · refine (spare_congr (s := u) disk sb P inum).trans ?_
        rw [← rooms, ← room, room_eq good' loaded', number']
    have same : u.file = s.file := wrote.file.trans files
    have small : maxFile * bsize < 2 ^ 32 := by decide
    by_cases some : 0 < n
    · rw [if_pos (by omega), wp_bind, wp_modifyFile]
      refine moved _ rfl rfl rfl ?_
      rw [same]
      rw [Int.toNat_natCast, Nat.mod_eq_of_lt (by omega)]
    · rw [if_neg (by omega)]
      refine moved _ rfl rfl rfl ?_
      rw [same, Nat.le_zero.mp (Nat.le_of_not_lt some), Nat.add_zero, update_eq_self]
  · rw [show (node { s with logged := [] } _).type = tFile from number ▸ type] at zero
    exact absurd zero (by decide)

theorem Node.write_write (d : Node) (off m n : Nat) (src : Bytes) :
    (d.write off m src).write (off + m) n (fun k => src (m + k)) = d.write off (m + n) src := by
  unfold Node.write
  dsimp only
  rw [patch_append]
  congr 1
  omega

/-- One write after the other is one write. -/
theorem Advanced.trans {t u : Fs} {m n : Nat} {src : Bytes} (first : Advanced s t i inum m src)
    (second : Advanced t u i inum n fun k => src (m + k)) : Advanced s u i inum (m + n) src where
  good := second.good
  regular := second.regular
  node := by
    rw [second.node, first.node, first.file, update_self, update_idem, update_self, Node.write_write]
  file := by
    rw [second.file, first.file, update_self, update_idem, Nat.add_assoc]

theorem advanced_zero (good : Consistent s) (regular : Regular s i inum) (src : Bytes) :
    Advanced s s i inum 0 src where
  good := good
  regular := regular
  node := by
    have same : (node s inum).write (s.file i).off 0 src = node s inum := by
      unfold Node.write
      rw [patch_zero, Nat.add_zero, Nat.max_eq_left regular.start]
    rw [same, update_eq_self]
  file := by
    rw [Nat.add_zero, update_eq_self]

theorem wp_writeChunks (addr : Bytes) (n done fuel : Nat) (good : Consistent s)
    (regular : Regular s i inum) (limit : (s.file i).off + (n - done) ≤ maxFile * bsize)
    (enough : n - done ≤ (fuel - 1) * maxChunk ∧ 0 < fuel) {P : Finset Nat}
    (covers : Covers P (s.file i).off (n - done))
    (full : spare P s inum < 0 → E .ballocOutOfBlocks) :
    wp (writeChunks i addr n done fuel) (fun r t => r = n ∧
      Advanced s t i inum (n - done) (fun k => addr (done + k))) E s := by
  induction fuel generalizing s done with
  | zero => omega
  | succ fuel ih =>
    rw [writeChunks_succ]
    split
    · obtain ⟨m, count⟩ : ∃ m, min (n - done) maxChunk = m := ⟨_, rfl⟩
      rw [count]
      apply wp_seq (wp_writeAt (fun k => addr (done + k)) good regular (by omega)
        (fun k lo hi => covers k lo (by omega)) full)
      rintro r t ⟨rfl, advanced, spare⟩
      rw [if_neg (by omega), if_neg (fun other => other rfl)]
      have off : (t.file i).off = (s.file i).off + m := by rw [advanced.file, update_self]
      have rounds : n - (done + m) ≤ (fuel - 1) * maxChunk ∧ 0 < fuel := by
        simp only [show maxChunk = 1536 from rfl] at *
        omega
      apply wp_mono (ih (done + m) advanced.good advanced.regular (by rw [off]; omega) rounds
        (fun k lo hi => covers k (by omega) (by omega)) (fun neg => full (spare ▸ neg)))
      rintro r u ⟨rfl, more⟩
      refine ⟨rfl, ?_⟩
      simp only [Nat.add_assoc] at more
      rw [show n - done = m + (n - (done + m)) by omega]
      exact advanced.trans more
    · rw [wp_pure, show n - done = 0 by omega]
      exact ⟨rfl, advanced_zero good regular _⟩

/-- `filewrite` of a regular file, with blocks enough for the whole of it, leaves what one
`writei` at the offset would leave. -/
theorem filewrite_is_one_writei (addr : Bytes) (n : Nat) (good : Consistent s)
    (regular : Regular s i inum) (writable : (s.file i).writable = true)
    (inode : (s.file i).type = .inode) (limit : (s.file i).off + n ≤ maxFile * bsize)
    (enough : ((cover (s.file i).off n).filter fun pos => place s (inum, pos) = 0).card ≤
      (freeBlocks s).card) :
    ∃ t u, filewrite i addr n s = .ok ((n : Int), t) ∧ writeAt i addr n s = .ok ((n : Int), u) ∧
      node t = node u ∧ t.file = u.file ∧ (t.file i).off = (s.file i).off + n := by
  have covers := covers_cover (s.file i).off n
  have full : spare (cover (s.file i).off n) s inum < 0 → False := by
    unfold spare
    omega
  have turns : n - 0 ≤ (n / maxChunk + 2 - 1) * maxChunk ∧ 0 < n / maxChunk + 2 := by
    simp only [show maxChunk = 1536 from rfl]
    omega
  have loop : wp (filewrite i addr n) (fun r t => r = n ∧ Advanced s t i inum n addr)
      (fun _ => False) s := by
    unfold filewrite
    rw [wp_read, writable, inode, if_neg (by decide), if_pos rfl]
    apply wp_mono (wp_writeChunks addr n 0 _ good regular limit turns covers full)
    rintro r t ⟨rfl, advanced⟩
    simp only [Nat.zero_add, Nat.sub_zero] at advanced
    exact ⟨rfl, advanced⟩
  obtain ⟨_, t, looped, rfl, left⟩ := wp_returns loop
  obtain ⟨_, u, single, rfl, right, -⟩ := wp_returns (wp_writeAt addr good regular limit covers full)
  refine ⟨t, u, looped, single, left.node.trans right.node.symm, left.file.trans right.file.symm, ?_⟩
  rw [left.file, update_self]

/-- Two chunks, which take the four free blocks. -/
theorem filewrite_is_one_writei_tiny : ∃ t, filewrite 0 (fun _ => 7) 1600 tiny = .ok (1600, t) ∧
    (t.file 0).off = 1600 := by
  have regular : Regular tiny 0 1 := ⟨by decide, by decide, by decide, by decide, by decide⟩
  have first : cover 0 1600 ⊆ Finset.range 4 := by
    intro pos inside
    obtain ⟨k, -, below, rfl | ⟨-, past⟩⟩ := mem_cover inside
    · rw [Finset.mem_range]
      unfold dataPos ndirect bsize
      split <;> omega
    · unfold ndirect bsize at past
      omega
  have enough : ((cover 0 1600).filter fun pos => place tiny (1, pos) = 0).card ≤ (freeBlocks tiny).card :=
    calc _ ≤ (cover 0 1600).card := Finset.card_filter_le _ _
      _ ≤ (Finset.range 4).card := Finset.card_le_card first
      _ ≤ (freeBlocks tiny).card := by decide
  obtain ⟨t, -, result, -, -, -, off⟩ := filewrite_is_one_writei (fun _ => 7) 1600 tiny_consistent regular
    (by decide) (by decide) (by decide) enough
  exact ⟨t, result, off⟩

end Chunk

end ColorXv6.Fs.FileWrites
