import ColorXv6.Bio.Cache
import ColorXv6.Lib.Holdings

/-!
References and contents of the buffers, and what each step on a buffer does to them.
The blocks that commit has still to install are a parameter here.
-/
namespace ColorXv6.Bio.Buffers
open Lib.Holdings Param Cache Finset
open Logging.Commit (Block Disk diskWrite)
open Logging.GroupCommit (absorb)

/-- The reference of a call in progress: a waiter in bget, or a process in brelse. -/
def callRef : Call → Nat → Bool
  | .lock j _, i => j = i
  | .unref j, i => j = i
  | _, _ => false

/-- In bread, before the test of B_VALID. -/
def filling : Call → Nat → Bool
  | .fill j _, i => j = i
  | _, _ => false

/-- The references of a process to buffer `i`. -/
def refs (proc : Proc) (i : Nat) : Nat :=
  (if proc.held i then 1 else 0) + if callRef proc.call i then 1 else 0

/-- References and sleep-locks. -/
structure Refs (d : Device) (s : State) : Prop where
  order : ∀ i, i ∈ s.mru ↔ i < nbuf
  counted : ∀ i, (s.buf i).refcnt = (∑ p ∈ range nproc, refs (s.proc p) i : Nat)
  outside : ∀ p i, nproc ≤ p → refs (s.proc p) i = 0
  named : ∀ p i, 0 < refs (s.proc p) i → i < nbuf ∧ (s.buf i).dev = d.dev
  owner : ∀ p i, (s.proc p).held i = true → (s.buf i).locked = true
  alone : ∀ p q i, (s.proc p).held i = true → (s.proc q).held i = true → p = q
  asked : ∀ p i b, (s.proc p).call = .lock i b ∨ (s.proc p).call = .fill i b →
    (s.buf i).blockno = b
  filling : ∀ p i b, (s.proc p).call = .fill i b → (s.proc p).held i = true
  logging : ∀ p i, (s.proc p).call = .logWrite i → (s.proc p).held i = true
  unique : ∀ i j, i < nbuf → j < nbuf → (s.buf i).dev = d.dev → (s.buf j).dev = d.dev →
    (s.buf i).blockno = (s.buf j).blockno → i = j

variable {d : Device} {s t : State} {p : Nat}

/-- A change of the references of one process. -/
theorem sum_refs (inside : p < nproc) (others : ∀ q, q ≠ p → t.proc q = s.proc q) (i : Nat) :
    ∑ q ∈ range nproc, refs (t.proc q) i + refs (s.proc p) i =
      ∑ q ∈ range nproc, refs (s.proc q) i + refs (t.proc p) i :=
  sum_range_update inside (fun q => refs (s.proc q) i) (fun q => refs (t.proc q) i)
    fun q other => by rw [others q other]

theorem refs_le_sum (inside : p < nproc) (i : Nat) :
    refs (s.proc p) i ≤ ∑ q ∈ range nproc, refs (s.proc q) i :=
  single_le_sum (f := fun q => refs (s.proc q) i) (fun _ _ => Nat.zero_le _) (mem_range.mpr inside)

theorem Refs.refs_le (good : Refs d s) (p i : Nat) : (refs (s.proc p) i : Int) ≤ (s.buf i).refcnt := by
  rw [good.counted i]
  by_cases inside : p < nproc
  · exact_mod_cast refs_le_sum inside i
  · rw [good.outside p i (by omega)]
    exact_mod_cast Nat.zero_le _

/-- A step of process `p` on buffer `i`: what it leaves alone. -/
structure Touches (p i : Nat) (s t : State) : Prop where
  others : ∀ q, q ≠ p → t.proc q = s.proc q
  bufs : ∀ j, j ≠ i → t.buf j = s.buf j
  held : ∀ j, j ≠ i → (t.proc p).held j = (s.proc p).held j
  touched : ∀ j, j ≠ i → (t.proc p).touched j = (s.proc p).touched j
  inOp : (t.proc p).inOp = (s.proc p).inOp
  order : ∀ j, j ∈ t.mru ↔ j ∈ s.mru
  disk : ∀ b, b ≠ (t.buf i).blockno → t.disk b = s.disk b
  flat : ∀ b, b ≠ (t.buf i).blockno → t.flat b = s.flat b
  outstanding : t.outstanding = s.outstanding
  committing : t.committing = s.committing
  commit : t.commit = s.commit

variable {i : Nat} {live : List Nat}

theorem Touches.untouched (change : Touches p i s t)
    (mine : (s.proc p).touched i = true → (t.proc p).touched i = true)
    (after : ∀ q, (t.proc q).touched i = false) (q : Nat) : (s.proc q).touched i = false := by
  grind [change.others q, after q]

/-- References in use keep the buffer for its block. -/
def Pins (i : Nat) (s t : State) : Prop := 0 < (s.buf i).refcnt ∨ (s.buf i).dirty = true →
  (t.buf i).dev = (s.buf i).dev ∧ (t.buf i).blockno = (s.buf i).blockno

/-- No buffer that is referred to or dirty changes its block. -/
def Kept (s t : State) : Prop := ∀ i, 0 < (s.buf i).refcnt ∨ (s.buf i).dirty = true →
  (t.buf i).dev = (s.buf i).dev ∧ (t.buf i).blockno = (s.buf i).blockno

theorem Touches.kept (change : Touches p i s t) (pins : Pins i s t) : Kept s t := by
  intro j used
  by_cases here : j = i
  · subst here
    exact pins used
  · rw [change.bufs j here]
    exact ⟨rfl, rfl⟩

/-- What a step of process `p` on buffer `i` has to see to: the rest stays as it is. -/
structure Leaves (d : Device) (live live' : List Nat) (p i : Nat) (s t : State) : Prop where
  calls : ∀ j, j ≠ i → callRef (t.proc p).call j = callRef (s.proc p).call j
  count : (t.buf i).refcnt + refs (s.proc p) i = (s.buf i).refcnt + refs (t.proc p) i
  dev : (t.buf i).dev = d.dev
  owner : ∀ q, (t.proc q).held i = true → (t.buf i).locked = true ∧
    ∀ r, (t.proc r).held i = true → q = r
  asked : ∀ j b, (t.proc p).call = .lock j b ∨ (t.proc p).call = .fill j b → (t.buf j).blockno = b
  filling : ∀ j b, (t.proc p).call = .fill j b → (t.proc p).held j = true
  logging : ∀ j, (t.proc p).call = .logWrite j → (t.proc p).held j = true
  alone : ∀ j, j ≠ i → j < nbuf → (s.buf j).dev = d.dev → (s.buf j).blockno ≠ (t.buf i).blockno
  fills : ∀ j, j ≠ i → Buffers.filling (s.proc p).call j = true → Buffers.filling (t.proc p).call j = true
  members : ∀ b, b ≠ (t.buf i).blockno → (b ∈ live' ↔ b ∈ live)
  left : (s.buf i).dev = d.dev → (s.buf i).blockno ≠ (t.buf i).blockno →
    (s.buf i).dirty = false ∧ ∀ q, (s.proc q).touched i = false
  valid : ∀ q, (t.proc q).held i = true →
    (t.buf i).valid = true ∨ Buffers.filling (t.proc q).call i = true
  touched : ∀ q, (t.proc q).touched i = true → (t.proc q).held i = true ∧ (t.buf i).valid = true
  data : (t.buf i).valid = true → (t.buf i).data = t.flat (t.buf i).blockno
  stored : (t.buf i).dirty = false → (∀ q, (t.proc q).touched i = false) →
    t.disk (t.buf i).blockno = t.flat (t.buf i).blockno
  dirty : (t.buf i).dirty = true → (t.buf i).valid = true
  logged : (t.buf i).dirty = true ↔ (t.buf i).blockno ∈ live'

theorem Refs.update {live' : List Nat} (good : Refs d s) (change : Touches p i s t) (pins : Pins i s t)
    (inside : p < nproc) (slot : i < nbuf) (leaves : Leaves d live live' p i s t) : Refs d t := by
  obtain ⟨calls, count, dev, owner, asked, filling, logging, lone, -, -, -, -, -, -, -, -, -⟩ := leaves
  have same : ∀ j, j ≠ i → refs (t.proc p) j = refs (s.proc p) j := by
    intro j other
    unfold refs
    rw [calls j other, change.held j other]
  have le := good.refs_le
  constructor
  · intro j
    rw [change.order, good.order]
  · intro j
    have total := sum_refs inside change.others j
    have before := good.counted j
    by_cases here : j = i
    · subst here
      omega
    · rw [change.bufs j here, before]
      have unchanged := same j here
      omega
  · intro q j past
    rw [change.others q (by omega)]
    exact good.outside q j past
  · intro q j used
    by_cases mine : q = p
    · subst mine
      by_cases here : j = i
      · subst here
        exact ⟨slot, dev⟩
      · rw [same j here] at used
        rw [change.bufs j here]
        exact good.named q j used
    · rw [change.others q mine] at used
      have before := good.named q j used
      grind [Pins, change.bufs]
  · grind [change.bufs, change.others, change.held, good.owner]
  · grind [change.bufs, change.others, change.held, good.alone]
  · intro q j b call
    by_cases mine : q = p
    · subst mine
      exact asked j b call
    · rw [change.others q mine] at call
      have before := good.asked q j b call
      by_cases here : j = i
      · subst here
        have used : 0 < refs (s.proc q) j := by
          rcases call with call | call
          · simp [refs, callRef, call]
          · simp [refs, good.filling q j b call]
        grind [Pins]
      · rw [change.bufs j here]
        exact before
  · grind [change.others, good.filling]
  · grind [change.others, good.logging]
  · grind [change.bufs, good.unique]

/-- A buffer that nobody refers to. -/
theorem Refs.unreferenced (good : Refs d s) (unused : (s.buf i).refcnt = 0) (q : Nat) :
    refs (s.proc q) i = 0 := by
  have le := good.refs_le q i
  omega

theorem Refs.lt_nproc (good : Refs d s) (used : 0 < refs (s.proc p) i) : p < nproc := by
  by_contra past
  have none := good.outside p i (by omega)
  omega

/-- What the buffers hold. `live` are the blocks whose buffers wait for commit to install them. -/
structure Contents (d : Device) (live : List Nat) (s : State) : Prop where
  valid : ∀ p i, (s.proc p).held i = true →
    (s.buf i).valid = true ∨ filling (s.proc p).call i = true
  touched : ∀ p i, (s.proc p).touched i = true → (s.proc p).held i = true ∧ (s.buf i).valid = true
  data : ∀ i, i < nbuf → (s.buf i).dev = d.dev → (s.buf i).valid = true →
    (s.buf i).data = s.flat (s.buf i).blockno
  stored : ∀ b, (∀ i, i < nbuf → (s.buf i).dev = d.dev → (s.buf i).blockno = b →
    (s.buf i).dirty = false) → (∀ i p, i < nbuf → (s.buf i).dev = d.dev → (s.buf i).blockno = b →
    (s.proc p).touched i = false) → s.disk b = s.flat b
  dirty : ∀ i, (s.buf i).dirty = true → (s.buf i).valid = true
  logged : ∀ i, i < nbuf → (s.buf i).dev = d.dev →
    ((s.buf i).dirty = true ↔ (s.buf i).blockno ∈ live)
  pinned : ∀ b ∈ live, ∃ i < nbuf, (s.buf i).dev = d.dev ∧ (s.buf i).blockno = b

theorem Contents.update {live' : List Nat} (con : Contents d live s) (change : Touches p i s t)
    (inside : i < nbuf) (leaves : Leaves d live live' p i s t) : Contents d live' t := by
  obtain ⟨-, -, dev, -, -, -, -, alone, elsewhere, members, left, valid, touched, data, stored, dirty,
    logged⟩ := leaves
  constructor
  · grind [change.others, change.bufs, change.held, con.valid]
  · grind [change.others, change.bufs, change.held, change.touched, con.touched]
  · grind [change.bufs, change.flat, con.data]
  · intro b clean untouched
    by_cases mine : b = (t.buf i).blockno
    · subst mine
      exact stored (clean i inside dev rfl) fun q => untouched i q inside dev rfl
    · rw [change.disk b mine, change.flat b mine]
      apply con.stored b
      · intro j slot device block
        have := clean j
        grind [change.bufs]
      · intro j q slot device block
        have := untouched j q
        grind [change.bufs, change.others, change.touched]
  · grind [change.bufs, con.dirty]
  · grind [change.bufs, con.logged]
  · intro b member
    by_cases mine : b = (t.buf i).blockno
    · exact ⟨i, inside, dev, mine.symm⟩
    · obtain ⟨j, slot, device, block⟩ := con.pinned b ((members b mine).mp member)
      refine ⟨j, slot, ?_⟩
      grind [change.bufs, con.logged]

structure Core (d : Device) (live : List Nat) (s : State) : Prop where
  refs : Refs d s
  con : Contents d live s

theorem Core.update {live' : List Nat} (core : Core d live s) (change : Touches p i s t)
    (pins : Pins i s t) (inside : p < nproc) (slot : i < nbuf) (leaves : Leaves d live live' p i s t) :
    Core d live' t :=
  ⟨core.refs.update change pins inside slot leaves, core.con.update change slot leaves⟩

/-- A block whose buffer is clean and untouched is on the disk. -/
theorem Core.stored (core : Core d live s) (inside : i < nbuf) (dev : (s.buf i).dev = d.dev)
    (clean : (s.buf i).dirty = false) (untouched : ∀ q, (s.proc q).touched i = false) :
    s.disk (s.buf i).blockno = s.flat (s.buf i).blockno := by
  apply core.con.stored
  · intro j slot device block
    rwa [core.refs.unique j i slot inside device dev block]
  · intro j q slot device block
    rw [core.refs.unique j i slot inside device dev block]
    exact untouched q

/-- A block without a buffer is on the disk. -/
theorem Core.stored_uncached {b : Nat} (core : Core d live s)
    (missing : ∀ j, j < nbuf → (s.buf j).dev = d.dev → (s.buf j).blockno ≠ b) :
    s.disk b = s.flat b := by
  apply core.con.stored
  · intro j slot device block
    exact absurd block (missing j slot device)
  · intro j q slot device block
    exact absurd block (missing j slot device)

/-- A change of operations and commit, which the buffers do not know about. -/
structure Apart (s t : State) : Prop where
  buf : t.buf = s.buf
  mru : t.mru = s.mru
  disk : t.disk = s.disk
  flat : t.flat = s.flat
  call : ∀ q, (t.proc q).call = (s.proc q).call
  held : ∀ q, (t.proc q).held = (s.proc q).held
  touched : ∀ q, (t.proc q).touched = (s.proc q).touched

theorem Apart.kept (change : Apart s t) : Kept s t := by
  intro i _
  rw [change.buf]
  exact ⟨rfl, rfl⟩

theorem Core.apart (core : Core d live s) (change : Apart s t) :
    Core d live t := by
  have same : ∀ q i, Buffers.refs (t.proc q) i = Buffers.refs (s.proc q) i := by
    intro q i
    unfold Buffers.refs
    rw [change.call, change.held]
  obtain ⟨⟨order, counted, outside, named, owner, alone, asked, holds, logging, unique⟩,
    ⟨valid, touching, data, stored, dirty, logged, pinned⟩⟩ := core
  constructor
  · constructor <;> simpa only [change.buf, change.mru, same, change.call, change.held]
  · constructor <;>
      simpa only [change.buf, change.disk, change.flat, change.call, change.held, change.touched]

/-! The steps on buffers. -/

/-- A step that changes process `p` and buffer `i` and nothing else. -/
theorem touches_modify {f : Buf → Buf} {g : Proc → Proc}
    (held : ∀ proc j, j ≠ i → (g proc).held j = proc.held j)
    (touched : ∀ proc j, j ≠ i → (g proc).touched j = proc.touched j)
    (inOp : ∀ proc, (g proc).inOp = proc.inOp) :
    Touches p i s (modifyProc (modifyBuf s i f) p g) := by
  constructor <;> simp +contextual [held, touched, inOp]

attribute [local grind] refs callRef filling Pins
attribute [local grind cases] Core Refs Contents

section Bget
variable {b i : Nat} {live : List Nat}

/-- The buffer found is that of the block, or an unused one becomes it. -/
theorem bget_cases (good : Refs d s) (result : bget d s p b = some (i, t)) :
    i < nbuf ∧ Touches p i s t ∧ t.block = s.block ∧ t.flat = s.flat ∧
    (t.proc p).call = .lock i b ∧ (t.proc p).held i = (s.proc p).held i ∧
    (t.proc p).touched i = (s.proc p).touched i ∧ t.disk = s.disk ∧
    (((s.buf i).dev = d.dev ∧ (s.buf i).blockno = b ∧
        t.buf i = { s.buf i with refcnt := (s.buf i).refcnt + 1 }) ∨
      ((∀ j, j < nbuf → (s.buf j).dev = d.dev → (s.buf j).blockno ≠ b) ∧
        (s.buf i).refcnt = 0 ∧ (s.buf i).dirty = false ∧
        t.buf i = { s.buf i with
          dev := d.dev, blockno := b, valid := false, dirty := false, refcnt := 1 })) := by
  have order := good.order
  unfold bget setCall at result
  split at result
  · rename_i j found
    have test := List.find?_some found
    simp only [decide_eq_true_eq] at test
    cases result
    refine ⟨(order i).mp (List.mem_of_find?_eq_some found), touches_modify ?_ ?_ ?_, rfl, rfl,
      by simp, by simp, by simp, rfl, .inl ⟨test.1, test.2, by simp⟩⟩
    all_goals exact fun _ => by simp
  · rename_i missing
    split at result
    · rename_i j found
      have test := List.find?_some found
      simp only [decide_eq_true_eq] at test
      cases result
      refine ⟨(order i).mp (List.mem_reverse.mp (List.mem_of_find?_eq_some found)),
        touches_modify ?_ ?_ ?_, rfl, rfl, by simp, by simp, by simp, rfl,
        .inr ⟨?_, test.1, test.2, by simp⟩⟩
      · exact fun _ => by simp
      · exact fun _ => by simp
      · exact fun _ => by simp
      · intro k inside dev block
        have unequal := List.find?_eq_none.mp missing k ((order k).mpr inside)
        simp only [decide_eq_true_eq] at unequal
        exact unequal ⟨dev, block⟩
    · cases result

theorem core_bget (core : Core d live s) (result : bget d s p b = some (i, t))
    (idle : (s.proc p).call = .none) (inside : p < nproc) : Core d live t ∧ Pins i s t := by
  obtain ⟨slot, change, -, flat, call, held, touched, disk, kept | fresh⟩ :=
    bget_cases core.refs result
  · have pins : Pins i s t := by grind
    refine ⟨core.update change pins inside slot ?_, pins⟩
    constructor
    case stored =>
      intro clean untouched
      have before := core.stored slot kept.1 (by grind) (change.untouched (by grind) untouched)
      grind
    all_goals grind [change.others, change.bufs]
  · obtain ⟨missing, unused, clean, new⟩ := fresh
    have free := core.refs.unreferenced unused
    have stored := core.stored_uncached missing
    have pins : Pins i s t := by grind
    refine ⟨core.update change pins inside slot ?_, pins⟩
    constructor
    all_goals grind [change.others, change.bufs, core.con.pinned]

theorem acquiresleep_effect (result : acquiresleep s p i b = some t) :
    (s.buf i).locked = false ∧ Touches p i s t ∧ t.block = s.block ∧ t.flat = s.flat ∧
    (t.proc p).call = .fill i b ∧ (t.proc p).held i = true ∧
    (t.proc p).touched i = (s.proc p).touched i ∧ t.disk = s.disk ∧
    t.buf i = { s.buf i with locked := true } := by
  unfold acquiresleep at result
  split at result
  · cases result
  · rename_i unlocked
    cases result
    refine ⟨by simpa using unlocked, touches_modify ?_ ?_ ?_, rfl, rfl, by simp, by simp [assign],
      by simp, rfl, by simp⟩
    · exact fun _ j other => by simp [assign, other]
    · exact fun _ _ _ => rfl
    · exact fun _ => rfl

theorem core_acquiresleep (core : Core d live s) (result : acquiresleep s p i b = some t)
    (waits : (s.proc p).call = .lock i b) (inside : p < nproc) : Core d live t := by
  obtain ⟨unlocked, change, -, effect⟩ := acquiresleep_effect result
  have slot := core.refs.named p i (by grind)
  have stored := core.stored slot.1 slot.2
  have pins : Pins i s t := by grind
  refine core.update change pins inside slot.1 ?_
  constructor <;> grind [change.others, change.bufs]

theorem fill_effect (clean : (s.buf i).dirty = true → (s.buf i).valid = true)
    (result : fill s p i = some t) :
    Touches p i s t ∧ t.block = s.block ∧ t.flat = s.flat ∧ (t.proc p).call = .none ∧
    (t.proc p).held i = (s.proc p).held i ∧ (t.proc p).touched i = (s.proc p).touched i ∧
    t.disk = s.disk ∧
    ((t.buf i = s.buf i ∧ (s.buf i).valid = true) ∨
      ((s.buf i).valid = false ∧
        t.buf i = { s.buf i with valid := true, data := s.disk (s.buf i).blockno })) := by
  unfold fill setCall at result
  split at result
  · rename_i valid
    cases result
    refine ⟨?_, rfl, rfl, by simp, by simp, by simp, rfl, .inl ⟨rfl, valid⟩⟩
    constructor <;> simp +contextual
  · rename_i invalid
    simp only [Bool.not_eq_true] at invalid
    have notDirty : (s.buf i).dirty = false := by grind
    simp only [iderw, invalid, notDirty, Bool.false_eq_true, false_and, or_false, if_false] at result
    split at result
    · cases result
    · cases result
      refine ⟨touches_modify ?_ ?_ ?_, rfl, rfl, by simp, by simp, by simp, rfl,
        .inr ⟨invalid, by simp⟩⟩
      · exact fun _ _ _ => rfl
      · exact fun _ _ _ => rfl
      · exact fun _ => rfl

theorem core_fill (core : Core d live s) (result : fill s p i = some t)
    (fills : (s.proc p).call = .fill i b) (inside : p < nproc) : Core d live t := by
  obtain ⟨change, -, flat, call, held, touched, disk, buf⟩ := fill_effect (core.con.dirty i) result
  have slot := core.refs.named p i (by grind)
  have pins : Pins i s t := by grind
  have stored := core.stored slot.1 slot.2
  refine core.update change pins inside slot.1 ?_
  constructor
  case data =>
    rcases buf with same | read
    · grind
    · have before := stored (by grind) (by grind)
      grind
  all_goals grind [change.others, change.bufs]

theorem store_effect {data : Block} (result : store s p i data = t) :
    Touches p i s t ∧ t.block = s.block ∧ t.flat (s.buf i).blockno = data ∧
    (t.proc p).call = (s.proc p).call ∧ (t.proc p).held i = (s.proc p).held i ∧
    (t.proc p).touched i = true ∧ t.disk = s.disk ∧ t.buf i = { s.buf i with data } := by
  subst result
  unfold store
  refine ⟨?_, rfl, by simp [diskWrite], by simp, by simp, by simp [assign], rfl, by simp⟩
  constructor <;> simp +contextual [assign, diskWrite]

theorem core_store {data : Block} (core : Core d live s) (result : store s p i data = t)
    (idle : (s.proc p).call = .none) (holds : (s.proc p).held i = true) (inside : p < nproc) :
    Core d live t := by
  obtain ⟨change, -, effect⟩ := store_effect result
  have slot := core.refs.named p i (by grind)
  have pins : Pins i s t := by grind
  refine core.update change pins inside slot.1 ?_
  constructor <;> grind [change.others, change.bufs]

theorem releasesleep_effect (result : releasesleep s p i = some t) :
    (s.proc p).held i = true ∧ Touches p i s t ∧ t.block = s.block ∧ t.flat = s.flat ∧
    (t.proc p).call = .unref i ∧ (t.proc p).held i = false ∧
    (t.proc p).touched i = (s.proc p).touched i ∧ t.disk = s.disk ∧
    t.buf i = { s.buf i with locked := false } := by
  unfold releasesleep at result
  split at result
  · rename_i held
    cases result
    refine ⟨held, touches_modify ?_ ?_ ?_, rfl, rfl, by simp, by simp [assign], by simp, rfl, by simp⟩
    · exact fun _ j other => by simp [assign, other]
    · exact fun _ _ _ => rfl
    · exact fun _ => rfl
  · cases result

theorem core_releasesleep (core : Core d live s) (result : releasesleep s p i = some t)
    (idle : (s.proc p).call = .none) (written : (s.proc p).touched i = false) (inside : p < nproc) :
    Core d live t := by
  obtain ⟨holds, change, -, effect⟩ := releasesleep_effect result
  have slot := core.refs.named p i (by grind)
  have stored := core.stored slot.1 slot.2
  have pins : Pins i s t := by grind
  refine core.update change pins inside slot.1 ?_
  constructor <;> grind [change.others, change.bufs]

theorem unref_effect (member : i ∈ s.mru) (result : unref s p i = t) :
    Touches p i s t ∧ t.block = s.block ∧ t.flat = s.flat ∧ (t.proc p).call = .none ∧
    (t.proc p).held i = (s.proc p).held i ∧ (t.proc p).touched i = (s.proc p).touched i ∧
    t.disk = s.disk ∧ t.buf i = { s.buf i with refcnt := (s.buf i).refcnt - 1 } := by
  have moved : ∀ j, j = i ∨ j ∈ s.mru.erase i ↔ j ∈ s.mru := by
    intro j
    by_cases here : j = i
    · simp [here, member]
    · simp [here, List.mem_erase_of_ne here]
  subst result
  unfold unref setCall
  dsimp only
  split
  · refine ⟨?_, rfl, rfl, by simp, by simp, by simp, rfl, by simp⟩
    constructor <;> simp +contextual [moved]
  · refine ⟨?_, rfl, rfl, by simp, by simp, by simp, rfl, by simp⟩
    constructor <;> simp +contextual

theorem core_unref (core : Core d live s) (leaves : (s.proc p).call = .unref i)
    (inside : p < nproc) (result : unref s p i = t) : Core d live t := by
  have slot := core.refs.named p i (by grind)
  obtain ⟨change, -, effect⟩ := unref_effect ((core.refs.order i).mpr slot.1) result
  have pins : Pins i s t := by grind
  refine core.update change pins inside slot.1 ?_
  constructor
  case stored =>
    intro clean untouched
    have before := core.stored slot.1 slot.2 (by grind) (change.untouched (by grind) untouched)
    grind
  all_goals grind [change.others, change.bufs]

theorem bwrite_effect (result : bwrite s p i = some t) :
    (s.proc p).held i = true ∧ Touches p i s t ∧ t.block = s.block ∧ t.flat = s.flat ∧
    (t.proc p).call = (s.proc p).call ∧ (t.proc p).held i = (s.proc p).held i ∧
    (t.proc p).touched i = false ∧ t.disk (s.buf i).blockno = (s.buf i).data ∧
    t.buf i = { s.buf i with valid := true, dirty := false } := by
  unfold bwrite iderw at result
  split at result
  · rename_i held
    simp only [modifyBuf, if_true, Bool.not_true, Bool.false_eq_true, and_false, or_false] at result
    split at result
    · cases result
    · cases result
      refine ⟨held, ?_, rfl, rfl, by simp, by simp, by simp [assign], by simp [diskWrite], by simp⟩
      constructor <;> simp +contextual [assign, diskWrite]
  · cases result

/-- A written block is no longer waiting for commit. -/
theorem core_bwrite (live' : List Nat) (core : Core d live s) (result : bwrite s p i = some t)
    (idle : (s.proc p).call = .none) (inside : p < nproc)
    (members : ∀ b, b ≠ (s.buf i).blockno → (b ∈ live' ↔ b ∈ live))
    (gone : (s.buf i).blockno ∉ live') : Core d live' t := by
  obtain ⟨holds, change, -, effect⟩ := bwrite_effect result
  have slot := core.refs.named p i (by grind)
  have pins : Pins i s t := by grind
  refine core.update change pins inside slot.1 ?_
  constructor <;> grind [change.others, change.bufs]

theorem logWrite_effect (result : logWrite s p i = some t) :
    Touches p i s t ∧ t.block = absorb s.block (s.buf i).blockno ∧ t.flat = s.flat ∧
    (t.proc p).call = .none ∧ (t.proc p).held i = (s.proc p).held i ∧
    (t.proc p).touched i = false ∧ t.disk = s.disk ∧ t.buf i = { s.buf i with dirty := true } := by
  unfold logWrite at result
  split at result
  · cases result
  · cases result
    refine ⟨?_, rfl, rfl, by simp, by simp, by simp [assign], rfl, by simp⟩
    constructor <;> simp +contextual [assign]

theorem core_logWrite (live' : List Nat) (core : Core d live s) (result : logWrite s p i = some t)
    (logs : (s.proc p).call = .logWrite i) (inside : p < nproc)
    (members : ∀ b, b ∈ live' ↔ b ∈ live ∨ b = (s.buf i).blockno) : Core d live' t := by
  obtain ⟨change, -, effect⟩ := logWrite_effect result
  have slot := core.refs.named p i (by grind)
  have pins : Pins i s t := by grind
  refine core.update change pins inside slot.1 ?_
  constructor <;> grind [change.others, change.bufs]

theorem logWriteTests_effect (result : logWriteTests d s p i = some t) :
    Touches p i s t ∧ t.block = s.block ∧ t.flat = s.flat ∧ (t.proc p).call = .logWrite i ∧
    (t.proc p).held i = (s.proc p).held i ∧ (t.proc p).touched i = (s.proc p).touched i ∧
    t.disk = s.disk ∧ t.buf i = s.buf i := by
  unfold logWriteTests setCall at result
  split at result
  · cases result
  · cases result
    refine ⟨?_, rfl, rfl, by simp, by simp, by simp, rfl, rfl⟩
    constructor <;> simp +contextual

theorem core_logWriteTests (core : Core d live s) (result : logWriteTests d s p i = some t)
    (idle : (s.proc p).call = .none) (holds : (s.proc p).held i = true) (inside : p < nproc) :
    Core d live t := by
  obtain ⟨change, -, effect⟩ := logWriteTests_effect result
  have slot := core.refs.named p i (by grind)
  have stored := core.stored slot.1 slot.2
  have pins : Pins i s t := by grind
  refine core.update change pins inside slot.1 ?_
  constructor <;> grind [change.others, change.bufs]

end Bget

end ColorXv6.Bio.Buffers
