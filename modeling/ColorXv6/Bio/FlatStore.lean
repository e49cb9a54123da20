import ColorXv6.Bio.Buffers
import ColorXv6.Logging.Grouping
import Mathlib.Data.List.GetD

/-!
The buffer cache refines a store of blocks: whoever holds a buffer sees what the last
writer left in its block, whatever was recycled in between.
-/
namespace ColorXv6.Bio.FlatStore
open Lib.Runs Lib.Holdings Param Cache Buffers Finset
open Logging.Commit (Block Disk diskWrite)
open Logging.GroupCommit (absorb)

variable {d : Device} {s t : State} {p : Nat}

attribute [local grind] refs callRef filling Pins

/-! The log and its commit. -/

def InLog (d : Device) (b : Nat) : Prop := d.start ≤ b ∧ b < d.start + d.size

instance (d : Device) (b : Nat) : Decidable (InLog d b) := inferInstanceAs (Decidable (_ ∧ _))

/-- Entries of the log header that install_trans has written. -/
def installed (c : Committer) : Nat :=
  match c.phase, c.line with
  | .installTrans tail, .brelse => tail + 1
  | .installTrans tail, .brelseLast => tail + 1
  | .installTrans tail, _ => tail
  | _, _ => 0

/-- The logged blocks that are not installed yet. -/
def live (s : State) : List Nat :=
  match s.commit with
  | some c => s.block.drop (installed c)
  | none => s.block

structure LogState (d : Device) (s : State) : Prop where
  ops : s.outstanding = (∑ p ∈ range nproc, if (s.proc p).inOp = true then 1 else 0 : Nat)
  outside : ∀ p, nproc ≤ p → (s.proc p).inOp = false
  committing : s.committing = s.commit.isSome
  still : s.committing = true → s.outstanding = 0
  distinct : s.block.Nodup
  home : ∀ b ∈ s.block, ¬InLog d b
  room : s.block.length = 0 ∨ s.block.length + 1 ≤ d.size
  logging : ∀ p i, (s.proc p).call = .logWrite i →
    (s.proc p).inOp = true ∧ ¬InLog d (s.buf i).blockno

/-- Process `p` has called bread for block `b` and got buffer `i`, which it has not modified. -/
def Got (d : Device) (s : State) (p i b : Nat) : Prop :=
  i < nbuf ∧ (s.buf i).dev = d.dev ∧ (s.buf i).blockno = b ∧
    ((s.proc p).call = .lock i b ∨ ((s.proc p).held i = true ∧ (s.proc p).touched i = false))

/-- The same when it may have modified the buffer. -/
def Has (d : Device) (s : State) (p i b : Nat) : Prop :=
  i < nbuf ∧ (s.buf i).dev = d.dev ∧ (s.buf i).blockno = b ∧ (s.proc p).held i = true

/-- The first `k` logged blocks are in the log. -/
def Copied (d : Device) (s : State) (k : Nat) : Prop :=
  ∀ j, j < k → s.flat (d.start + j + 1) = s.flat (s.block.getD j 0)

/-- What holds where commit is. -/
def CommitAt (d : Device) (s : State) (c : Committer) : Prop :=
  match c.phase, c.line with
  | .writeLog tail, .breadLog => tail < s.block.length ∧ Copied d s tail
  | .writeLog tail, .breadHome => tail < s.block.length ∧ Copied d s tail ∧
    Got d s c.proc c.log (d.start + tail + 1)
  | .writeLog tail, .copy => tail < s.block.length ∧ Copied d s tail ∧
    Got d s c.proc c.log (d.start + tail + 1) ∧ Got d s c.proc c.home (s.block.getD tail 0)
  | .writeLog tail, .bwrite => tail < s.block.length ∧ Copied d s (tail + 1) ∧
    Has d s c.proc c.log (d.start + tail + 1) ∧ Got d s c.proc c.home (s.block.getD tail 0)
  | .writeLog tail, .brelse => tail < s.block.length ∧ Copied d s (tail + 1) ∧
    Got d s c.proc c.log (d.start + tail + 1) ∧ Got d s c.proc c.home (s.block.getD tail 0)
  | .writeLog tail, .brelseLast => tail < s.block.length ∧ Copied d s (tail + 1) ∧
    Got d s c.proc c.log (d.start + tail + 1)
  | .writeHead erase, .breadLog => 0 < d.size ∧ Copied d s s.block.length ∧
    (erase = true ↔ s.block.length = 0)
  | .writeHead erase, .bwrite => 0 < d.size ∧ Copied d s s.block.length ∧
    (erase = true ↔ s.block.length = 0) ∧ Has d s c.proc c.log d.start
  | .writeHead erase, _ => 0 < d.size ∧ Copied d s s.block.length ∧
    (erase = true ↔ s.block.length = 0) ∧ Got d s c.proc c.log d.start
  | .installTrans tail, .breadLog => tail < s.block.length ∧ Copied d s s.block.length
  | .installTrans tail, .breadHome => tail < s.block.length ∧ Copied d s s.block.length ∧
    Got d s c.proc c.log (d.start + tail + 1)
  | .installTrans tail, .brelseLast => tail < s.block.length ∧ Copied d s s.block.length ∧
    Got d s c.proc c.home (s.block.getD tail 0)
  | .installTrans tail, _ => tail < s.block.length ∧ Copied d s s.block.length ∧
    Got d s c.proc c.log (d.start + tail + 1) ∧ Got d s c.proc c.home (s.block.getD tail 0)
  | .finish, _ => s.block.length = 0

structure Inv (d : Device) (s : State) : Prop where
  core : Core d (live s) s
  log : LogState d s
  commit : ∀ c, s.commit = some c → c.proc < nproc ∧ CommitAt d s c

/-- What a step leads to. -/
structure Good (d : Device) (s t : State) : Prop where
  inv : Inv d t
  kept : Kept s t

variable {c : Committer} {j k tail : Nat}

/-- Commit goes on across a change that keeps what it has and the blocks it works on. -/
theorem CommitAt.keep (com : CommitAt d s c) (block : t.block = s.block)
    (room : s.block.length = 0 ∨ s.block.length + 1 ≤ d.size)
    (flat : ∀ b, InLog d b ∨ b ∈ s.block → t.flat b = s.flat b)
    (got : ∀ i b, Got d s c.proc i b → Got d t c.proc i b)
    (has : ∀ i b, Has d s c.proc i b → Has d t c.proc i b) : CommitAt d t c := by
  have copied : ∀ k, k ≤ s.block.length → Copied d s k → Copied d t k := by
    intro k bound copied j below
    have member : s.block.getD j 0 ∈ s.block := by
      rw [List.getD_eq_getElem _ _ (by omega)]
      exact List.getElem_mem _
    have log : InLog d (d.start + j + 1) := by
      unfold InLog
      omega
    rw [block, flat _ (.inl log), flat _ (.inr member)]
    exact copied j below
  unfold CommitAt at com ⊢
  rw [block]
  split at com <;> grind

theorem live_same (block : t.block = s.block) (commit : t.commit = s.commit) : live t = live s := by
  unfold live
  rw [block, commit]

theorem sum_inOp (same : ∀ q, (t.proc q).inOp = (s.proc q).inOp) :
    ∑ q ∈ range nproc, (if (t.proc q).inOp = true then 1 else 0) =
      ∑ q ∈ range nproc, if (s.proc q).inOp = true then 1 else 0 :=
  sum_congr rfl fun q _ => by rw [same q]

section Frame
variable {i : Nat} (good : Refs d s) (change : Touches p i s t) (pins : Pins i s t)
include good change pins

theorem LogState.touches (log : LogState d s) (distinct : t.block.Nodup)
    (home : ∀ b ∈ t.block, ¬InLog d b) (room : t.block.length = 0 ∨ t.block.length + 1 ≤ d.size)
    (logging : ∀ j, (t.proc p).call = .logWrite j →
      (t.proc p).inOp = true ∧ ¬InLog d (t.buf j).blockno) : LogState d t := by
  have inOp : ∀ q, (t.proc q).inOp = (s.proc q).inOp := by grind [change.others, change.inOp]
  have le := good.refs_le
  refine ⟨?_, ?_, ?_, ?_, distinct, home, room, ?_⟩
  · rw [change.outstanding, log.ops, sum_inOp inOp]
  · intro q past
    rw [inOp]
    exact log.outside q past
  · rw [change.committing, change.commit]
    exact log.committing
  · rw [change.committing, change.outstanding]
    exact log.still
  · intro q j logs
    by_cases mine : q = p
    · subst mine
      exact logging j logs
    · rw [change.others q mine] at logs ⊢
      have held := good.logging q j logs
      have used := le q j
      grind [change.bufs, log.logging q j logs]

theorem Got.other {q b : Nat} (other : q ≠ p) (got : Got d s q j b) : Got d t q j b := by
  have used := good.refs_le q j
  grind [Got, change.bufs, change.others q other]

theorem Has.other {q b : Nat} (other : q ≠ p) (has : Has d s q j b) : Has d t q j b := by
  have used := good.refs_le q j
  grind [Has, change.bufs, change.others q other]

/-- A step of process `p` on a buffer, when it is not in commit, or what it has in commit stays. -/
theorem Inv.touches (inv : Inv d s) (core : Core d (live s) t) (block : t.block = s.block)
    (logging : ∀ j, (t.proc p).call = .logWrite j →
      (t.proc p).inOp = true ∧ ¬InLog d (t.buf j).blockno)
    (flat : s.committing = true → ∀ b, InLog d b ∨ b ∈ s.block → t.flat b = s.flat b)
    (mine : ∀ c, s.commit = some c → c.proc = p →
      (∀ j b, Got d s p j b → Got d t p j b) ∧ ∀ j b, Has d s p j b → Has d t p j b) :
    Good d s t := by
  have log := inv.log
  refine ⟨⟨?_, log.touches good change pins (block ▸ log.distinct) (block ▸ log.home)
    (block ▸ log.room) logging, ?_⟩, change.kept pins⟩
  · rw [live_same block change.commit]
    exact core
  · intro c running
    rw [change.commit] at running
    obtain ⟨inside, com⟩ := inv.commit c running
    have committing : s.committing = true := by
      rw [inv.log.committing, running]
      rfl
    refine ⟨inside, com.keep block inv.log.room (flat committing) ?_ ?_⟩
    · intro j b got
      by_cases own : c.proc = p
      · rw [own] at got ⊢
        exact (mine c running own).1 j b got
      · exact got.other good change pins own
    · intro j b has
      by_cases own : c.proc = p
      · rw [own] at has ⊢
        exact (mine c running own).2 j b has
      · exact has.other good change pins own

end Frame

/-- In commit nobody is in an operation. -/
theorem LogState.no_ops (log : LogState d s) (committing : s.committing = true) (q : Nat) :
    (s.proc q).inOp = false := by
  by_cases inside : q < nproc
  · have none := log.ops
    rw [log.still committing] at none
    have zero : ∑ p ∈ range nproc, (if (s.proc p).inOp = true then 1 else 0) = 0 := by
      exact_mod_cast none.symm
    have each := Finset.sum_eq_zero_iff.mp zero q (mem_range.mpr inside)
    simpa using each
  · exact log.outside q (by omega)

theorem free_iff : free s p = true ↔ p < nproc ∧ (s.proc p).call = .none ∧
    ∀ c, s.commit = some c → c.proc ≠ p := by
  unfold free
  rw [decide_eq_true_eq]

/-- A log_write in progress that finds its block or room for it. -/
def Room (d : Device) (s : State) : Call → Prop
  | .logWrite i => (s.buf i).blockno ∈ s.block ∨ s.block.length + 1 < d.size
  | _ => True

instance (d : Device) (s : State) : (call : Call) → Decidable (Room d s call)
  | .logWrite _ => inferInstanceAs (Decidable (_ ∨ _))
  | .none | .lock _ _ | .fill _ _ | .unref _ => inferInstanceAs (Decidable True)

/-- What a process must respect: the log area belongs to commit, log_write is for processes in an
operation and finds room when it has log.lock, and bwrite is not for logged blocks. -/
def Proper (d : Device) (s : State) : Action → Prop
  | .modify p i _ => ¬InLog d (s.buf i).blockno ∧
    ((s.proc p).inOp = true ∨ (s.buf i).blockno ∉ s.block)
  | .logWriteTests p i => (s.proc p).inOp = true ∧ ¬InLog d (s.buf i).blockno
  | .logWrite p => Room d s (s.proc p).call
  | .bwrite _ i => (s.buf i).blockno ∉ s.block
  | _ => True

instance (d : Device) (s : State) : (a : Action) → Decidable (Proper d s a)
  | .modify _ _ _ | .logWriteTests _ _ => inferInstanceAs (Decidable (_ ∧ _))
  | .logWrite p => inferInstanceAs (Decidable (Room d s (s.proc p).call))
  | .bwrite _ _ => inferInstanceAs (Decidable (_ ∉ s.block))
  | .beginOp _ | .endOp _ | .bread _ _ | .acquiresleep _ | .fill _ | .brelse _ _ | .unref _
  | .commit _ => inferInstanceAs (Decidable True)

theorem absorb_length (blocks : List Nat) (b : Nat) :
    (absorb blocks b).length = if b ∈ blocks then blocks.length else blocks.length + 1 := by
  induction blocks with
  | nil => rfl
  | cons c rest ih =>
    rw [absorb]
    split
    · rename_i same
      simp [same]
    · rename_i differs
      rw [List.length_cons, ih]
      grind

theorem mem_block_of_mem_live {b : Nat} (member : b ∈ live s) : b ∈ s.block := by
  unfold live at member
  split at member
  · exact List.mem_of_mem_drop member
  · exact member

theorem beginOp_effect (result : beginOp s p = some t) :
    s.committing = false ∧ Apart s t ∧ (∀ q, q ≠ p → (t.proc q).inOp = (s.proc q).inOp) ∧
    (t.proc p).inOp = true ∧ t.outstanding = s.outstanding + 1 ∧ t.committing = s.committing ∧
    t.block = s.block ∧ t.commit = s.commit := by
  unfold beginOp at result
  split at result
  · cases result
  · rename_i room
    simp only [Bool.not_eq_true, not_or] at room
    cases result
    refine ⟨room.1, ⟨rfl, rfl, rfl, rfl, ?_, ?_, ?_⟩, ?_, by simp, rfl, rfl, rfl, rfl⟩
    all_goals grind

theorem endOp_effect (result : endOp s p = some t) :
    s.committing = false ∧ Apart s t ∧ (∀ q, q ≠ p → (t.proc q).inOp = (s.proc q).inOp) ∧
    (t.proc p).inOp = false ∧ t.outstanding = s.outstanding - 1 ∧ t.block = s.block ∧
    ((t.committing = false ∧ t.commit = s.commit) ∨
      (t.outstanding = 0 ∧ t.committing = true ∧
        t.commit = some ⟨p, if s.block.length > 0 then .writeLog 0 else .finish, .breadLog, 0, 0⟩)) := by
  unfold endOp at result
  dsimp only at result
  split at result
  · cases result
  · rename_i quiet
    simp only [modifyProc, Bool.not_eq_true] at quiet
    split at result
    · rename_i last
      cases result
      refine ⟨quiet, ⟨rfl, rfl, rfl, rfl, ?_, ?_, ?_⟩, ?_, by simp, rfl, rfl, .inr ⟨last, rfl, rfl⟩⟩
      all_goals grind
    · cases result
      refine ⟨quiet, ⟨rfl, rfl, rfl, rfl, ?_, ?_, ?_⟩, ?_, by simp, rfl, rfl, .inl ⟨quiet, rfl⟩⟩
      all_goals grind

/-- A step in commit, on buffer `i`. -/
structure Moved (d : Device) (p i : Nat) (s t : State) : Prop where
  core : Core d (live s) t
  change : Touches p i s t
  pins : Pins i s t
  block : t.block = s.block
  call : ∀ j, (t.proc p).call ≠ .logWrite j

section Steps
variable {i b : Nat} (inv : Inv d s)
include inv

/-- A step on a buffer by a process that is not in commit. -/
theorem inv_free (free : free s p = true) (change : Touches p i s t) (pins : Pins i s t)
    (core : Core d (live s) t) (flat : t.flat = s.flat) (block : t.block = s.block)
    (logging : ∀ j, (t.proc p).call = .logWrite j →
      (t.proc p).inOp = true ∧ ¬InLog d (t.buf j).blockno) : Good d s t :=
  inv.touches inv.core.refs change pins core block logging (fun _ b _ => congrFun flat b)
    fun c running own => absurd own ((free_iff.mp free).2.2 c running)

theorem inv_bget (free : free s p = true) (result : bget d s p b = some (i, t)) : Good d s t := by
  obtain ⟨inside, idle, -⟩ := free_iff.mp free
  obtain ⟨core, pins⟩ := core_bget inv.core result idle inside
  obtain ⟨slot, change, block, flat, effect⟩ := bget_cases inv.core.refs result
  exact inv_free inv free change pins core flat block (by grind)

/-- A step on a buffer by a process that may be in commit and has it as before. -/
theorem inv_call (moved : Moved d p i s t) (flat : t.flat = s.flat)
    (call : ∀ j b, j ≠ i → (s.proc p).call ≠ .lock j b)
    (got : ∀ b, Got d s p i b → Got d t p i b) (has : ∀ b, Has d s p i b → Has d t p i b) :
    Good d s t := by
  have change := moved.change
  refine inv.touches inv.core.refs change moved.pins moved.core moved.block
    (fun j logs => absurd logs (moved.call j)) (fun _ b _ => congrFun flat b) fun _ _ _ => ⟨?_, ?_⟩
  all_goals
    intro j b had
    by_cases here : j = i
  · exact here ▸ got b (here ▸ had)
  · grind [Got, change.bufs, change.held, change.touched]
  · exact here ▸ has b (here ▸ had)
  · grind [Has, change.bufs, change.held]

theorem inv_acquiresleep (waits : (s.proc p).call = .lock i b)
    (result : acquiresleep s p i b = some t) : Good d s t := by
  have inside : p < nproc := inv.core.refs.lt_nproc (i := i) (by grind)
  have core := core_acquiresleep inv.core result waits inside
  obtain ⟨unlocked, change, block, flat, effect⟩ := acquiresleep_effect result
  have owner := inv.core.refs.owner p
  have touching := inv.core.con.touched p
  apply inv_call inv ⟨core, change, by grind, block, by grind⟩ flat <;> grind [Got, Has]

theorem inv_fill (fills : (s.proc p).call = .fill i b) (result : fill s p i = some t) : Good d s t := by
  have holds := inv.core.refs.filling p i b fills
  have inside : p < nproc := inv.core.refs.lt_nproc (i := i) (by grind)
  have core := core_fill inv.core result fills inside
  obtain ⟨change, block, flat, effect⟩ := fill_effect (inv.core.con.dirty i) result
  apply inv_call inv ⟨core, change, by grind, block, by grind⟩ flat <;> grind [Got, Has]

theorem inv_unref (leaves : (s.proc p).call = .unref i) : Good d s (unref s p i) := by
  have used : 0 < refs (s.proc p) i := by grind
  have inside : p < nproc := inv.core.refs.lt_nproc used
  have slot := (inv.core.refs.named p i used).1
  generalize result : unref s p i = t
  have core := core_unref inv.core leaves inside result
  obtain ⟨change, block, flat, effect⟩ := unref_effect ((inv.core.refs.order i).mpr slot) result
  apply inv_call inv ⟨core, change, by grind, block, by grind⟩ flat <;> grind [Got, Has]

section Free
variable (free : free s p = true)
include free

theorem inv_modify (holds : (s.proc p).held i = true) (data : Block)
    (proper : Proper d s (.modify p i data)) : Good d s (store s p i data) := by
  obtain ⟨inside, idle, apart⟩ := free_iff.mp free
  generalize result : store s p i data = t
  have core := core_store inv.core result idle holds inside
  obtain ⟨change, block, effect⟩ := store_effect result
  refine inv.touches inv.core.refs change (by grind) core block ?_ ?_ ?_
  · grind
  · intro committing b log
    have noOp := inv.log.no_ops committing p
    apply change.flat
    grind [Proper]
  · exact fun c running own => absurd own (apart c running)

theorem inv_bwrite (result : bwrite s p i = some t)
    (proper : Proper d s (.bwrite p i)) : Good d s t := by
  obtain ⟨inside, idle, -⟩ := free_iff.mp free
  have core := core_bwrite (live s) inv.core result idle inside (fun _ _ => Iff.rfl)
    fun member => proper (mem_block_of_mem_live member)
  obtain ⟨holds, change, block, flat, effect⟩ := bwrite_effect result
  exact inv_free inv free change (by grind) core flat block (by grind)

theorem inv_brelse (written : (s.proc p).touched i = false)
    (result : releasesleep s p i = some t) : Good d s t := by
  obtain ⟨inside, idle, -⟩ := free_iff.mp free
  have core := core_releasesleep inv.core result idle written inside
  obtain ⟨holds, change, block, flat, effect⟩ := releasesleep_effect result
  exact inv_free inv free change (by grind) core flat block (by grind)

theorem inv_logWriteTests (holds : (s.proc p).held i = true)
    (result : logWriteTests d s p i = some t) (proper : Proper d s (.logWriteTests p i)) :
    Good d s t := by
  obtain ⟨inside, idle, -⟩ := free_iff.mp free
  have core := core_logWriteTests inv.core result idle holds inside
  obtain ⟨change, block, flat, effect⟩ := logWriteTests_effect result
  exact inv_free inv free change (by grind) core flat block (by grind [Proper, change.inOp])

end Free

theorem not_committing (inOp : (s.proc p).inOp = true) : s.committing = false ∧ s.commit = none := by
  have quiet : s.committing = false := by
    by_contra committing
    simp only [Bool.not_eq_false] at committing
    rw [inv.log.no_ops committing p] at inOp
    cases inOp
  have none := inv.log.committing
  rw [quiet] at none
  exact ⟨quiet, by simpa using none.symm⟩

theorem inv_logWrite (logs : (s.proc p).call = .logWrite i) (result : logWrite s p i = some t)
    (proper : Proper d s (.logWrite p)) : Good d s t := by
  have holds := inv.core.refs.logging p i logs
  have inside : p < nproc := inv.core.refs.lt_nproc (i := i) (by grind)
  obtain ⟨inOp, home⟩ := inv.log.logging p i logs
  obtain ⟨quiet, none⟩ := not_committing inv inOp
  obtain ⟨change, block, flat, effect⟩ := logWrite_effect result
  have same : live s = s.block := by
    unfold live
    rw [none]
  have after : live t = t.block := by
    unfold live
    rw [change.commit, none]
  have member : ∀ b, b ∈ t.block ↔ b ∈ s.block ∨ b = (s.buf i).blockno := by
    intro b
    rw [block]
    exact Logging.Grouping.mem_absorb _ _ _
  refine ⟨⟨?_, ?_, ?_⟩, change.kept (by grind)⟩
  · rw [after]
    apply core_logWrite t.block inv.core result logs inside
    rw [same]
    exact member
  · refine inv.log.touches inv.core.refs change (by grind) ?_ ?_ ?_ ?_
    · rw [block]
      exact Logging.Grouping.absorb_nodup _ _ inv.log.distinct
    · grind [inv.log.home]
    · have length := absorb_length s.block (s.buf i).blockno
      rw [← block] at length
      have room := inv.log.room
      simp only [Proper, Room, logs] at proper
      grind
    · grind
  · intro c running
    rw [change.commit, none] at running
    cases running

theorem inv_beginOp (free : free s p = true) (outside : (s.proc p).inOp = false)
    (result : beginOp s p = some t) : Good d s t := by
  obtain ⟨inside, idle, apart⟩ := free_iff.mp free
  obtain ⟨quiet, change, others, inOp, outstanding, committing, block, commit⟩ :=
    beginOp_effect result
  have none : s.commit = none := by
    have running := inv.log.committing
    rw [quiet] at running
    simpa using running.symm
  refine ⟨⟨?_, ?_, ?_⟩, change.kept⟩
  · rw [live_same block commit]
    exact inv.core.apart change
  · have total := count_range_update inside (fun q => (s.proc q).inOp = true)
      (fun q => (t.proc q).inOp = true) (fun q other => by rw [others q other])
    have ops := inv.log.ops
    have log := inv.log
    refine ⟨?_, ?_, ?_, ?_, block ▸ log.distinct, block ▸ log.home, block ▸ log.room, ?_⟩
    · simp only [outside, inOp, Bool.false_eq_true, if_false, if_true] at total
      omega
    · grind [log.outside]
    · rw [committing, commit]
      exact log.committing
    · rw [committing, quiet]
      exact fun never => by cases never
    · intro q i logs
      rw [change.call] at logs
      rw [change.buf]
      grind [log.logging q i logs]
  · intro c running
    rw [commit, none] at running
    cases running

theorem inv_endOp (free : free s p = true) (inside' : (s.proc p).inOp = true)
    (result : endOp s p = some t) : Good d s t := by
  obtain ⟨inside, idle, apart⟩ := free_iff.mp free
  obtain ⟨quiet, change, others, inOp, outstanding, block, after⟩ := endOp_effect result
  have log := inv.log
  obtain ⟨-, none⟩ := not_committing inv inside'
  have before : live s = s.block := by
    unfold live
    rw [none]
  have core := inv.core.apart change
  rw [before] at core
  have total := count_range_update inside (fun q => (s.proc q).inOp = true)
    (fun q => (t.proc q).inOp = true) (fun q other => by rw [others q other])
  simp only [inside', inOp, Bool.false_eq_true, if_false, if_true] at total
  have ops := log.ops
  have logging : ∀ q i, (t.proc q).call = .logWrite i →
      (t.proc q).inOp = true ∧ ¬InLog d (t.buf i).blockno := by
    intro q i logs
    rw [change.call] at logs
    rw [change.buf]
    grind [log.logging q i logs]
  have state : t.committing = t.commit.isSome → (t.committing = true → t.outstanding = 0) →
      LogState d t := fun running still =>
    ⟨by omega, by grind [log.outside], running, still, block ▸ log.distinct, block ▸ log.home,
      block ▸ log.room, logging⟩
  rcases after with ⟨open', same⟩ | ⟨zero, committing, start⟩
  · rw [none] at same
    refine ⟨⟨?_, state (by rw [open', same]; rfl) (by rw [open']; exact fun never => by cases never),
      ?_⟩, change.kept⟩
    · unfold live
      rw [same, block]
      exact core
    · intro c running
      rw [same] at running
      cases running
  · refine ⟨⟨?_, state (by rw [committing, start]; rfl) (fun _ => zero), ?_⟩, change.kept⟩
    · have nothing : live t = t.block := by
        unfold live
        rw [start]
        by_cases some : s.block.length > 0
        · rw [if_pos some]
          rfl
        · rw [if_neg some]
          rfl
      rw [nothing, block]
      exact core
    · intro c running
      rw [start] at running
      cases running
      refine ⟨inside, ?_⟩
      by_cases some : s.block.length > 0
      · rw [if_pos some]
        exact ⟨block ▸ some, fun j never => by omega⟩
      · rw [if_neg some]
        change t.block.length = 0
        rw [block]
        omega

/-- One line of commit: a step on a buffer, then the next line. -/
theorem inv_goto {next : Committer} (running : s.commit = some c) (own : next.proc = c.proc)
    (change : Touches c.proc i s t) (pins : Pins i s t) (distinct : t.block.Nodup)
    (home : ∀ b ∈ t.block, ¬InLog d b) (room : t.block.length = 0 ∨ t.block.length + 1 ≤ d.size)
    (call : ∀ j, (t.proc c.proc).call ≠ .logWrite j)
    (core : Core d (t.block.drop (installed next)) t) (com : CommitAt d t next) :
    Good d s (goto t next) := by
  have state := inv.log.touches inv.core.refs change pins distinct home room
    fun j logs => absurd logs (call j)
  have committing : t.committing = true := by
    rw [change.committing, inv.log.committing, running]
    rfl
  refine ⟨⟨core.apart ⟨rfl, rfl, rfl, rfl, fun _ => rfl, fun _ => rfl, fun _ => rfl⟩, ?_, ?_⟩,
    change.kept pins⟩
  · exact { state with committing }
  · intro c' here
    cases here
    exact ⟨own ▸ (inv.commit c running).1, com⟩

omit inv in
theorem live_running (running : s.commit = some c) :
    live s = s.block.drop (installed c) := by
  unfold live
  rw [running]

theorem inv_line {next : Committer} (running : s.commit = some c) (own : next.proc = c.proc)
    (moved : Moved d c.proc i s t) (same : installed next = installed c)
    (com : CommitAt d t next) : Good d s (goto t next) := by
  have log := inv.log
  have block := moved.block
  refine inv_goto inv running own moved.change moved.pins (block ▸ log.distinct) (block ▸ log.home)
    (block ▸ log.room) moved.call ?_ com
  rw [block, same, ← live_running running]
  exact moved.core

omit inv in
theorem Copied.same (copied : Copied d s k) (flat : t.flat = s.flat)
    (block : t.block = s.block) : Copied d t k := by
  unfold Copied
  rw [flat, block]
  exact copied

omit inv in
/-- What a process has of another buffer than that of its step. -/
theorem Got.elsewhere (got : Got d s p j b) (change : Touches p i s t) (other : j ≠ i)
    (idle : (s.proc p).call = .none) : Got d t p j b := by
  grind [Got, change.bufs j other, change.held j other, change.touched j other]

/-- bread in commit. -/
theorem inv_bread {next : Nat × State → Committer} (running : s.commit = some c)
    (idle : (s.proc c.proc).call = .none)
    (result : (bget d s c.proc b).map (fun r => goto r.2 (next r)) = some t)
    (own : ∀ r, (next r).proc = c.proc ∧ installed (next r) = installed c)
    (com : ∀ i u, u.block = s.block → (∀ k, Copied d s k → Copied d u k) → Got d u c.proc i b →
      (∀ j b', Got d s c.proc j b' → Got d u c.proc j b') → CommitAt d u (next (i, u))) :
    Good d s t := by
  obtain ⟨⟨i, u⟩, found, rfl⟩ := Option.map_eq_some_iff.mp result
  obtain ⟨core, pins⟩ := core_bget inv.core found idle (inv.commit c running).1
  obtain ⟨slot, change, block, flat, effect⟩ := bget_cases inv.core.refs found
  refine inv_line inv running (own _).1 ⟨core, change, pins, block, by grind⟩ (own _).2
    (com i u block (fun k copied => copied.same flat block) (by grind [Got]) ?_)
  intro j b' got
  by_cases here : j = i
  · subst here
    have le := inv.core.refs.refs_le c.proc j
    grind [Got]
  · exact got.elsewhere change here idle

theorem got_releasesleep (idle : (s.proc p).call = .none) (inside : p < nproc) (got : Got d s p i b)
    (result : releasesleep s p i = some t) :
    Moved d p i s t ∧ t.flat = s.flat ∧ ∀ b', j ≠ i → Got d s p j b' → Got d t p j b' := by
  have core := core_releasesleep inv.core result idle (by grind [Got]) inside
  obtain ⟨holds, change, block, flat, effect⟩ := releasesleep_effect result
  exact ⟨⟨core, change, by grind, block, by grind⟩, flat,
    fun b' other got => got.elsewhere change other idle⟩

/-- What commit holds when it is between two calls. -/
theorem got_held (idle : (s.proc p).call = .none) (got : Got d s p i b) :
    Has d s p i b ∧ (s.proc p).touched i = false ∧ (s.buf i).data = s.flat b := by
  have valid := inv.core.con.valid p i
  have data := inv.core.con.data i
  grind [Got, Has]

theorem moved_store {data : Block} (result : store s p i data = t) (idle : (s.proc p).call = .none)
    (holds : (s.proc p).held i = true) (inside : p < nproc) : Moved d p i s t := by
  have core := core_store inv.core result idle holds inside
  obtain ⟨change, block, effect⟩ := store_effect result
  exact ⟨core, change, by grind, block, by grind⟩

theorem has_bwrite (idle : (s.proc p).call = .none) (inside : p < nproc) (has : Has d s p i b)
    (unlogged : b ∉ s.block) (result : bwrite s p i = some t) :
    Moved d p i s t ∧ t.flat = s.flat ∧ Got d t p i b ∧
    ∀ b', j ≠ i → Got d s p j b' → Got d t p j b' := by
  have core := core_bwrite (live s) inv.core result idle inside (fun _ _ => Iff.rfl)
    fun member => unlogged (has.2.2.1 ▸ mem_block_of_mem_live member)
  obtain ⟨holds, change, block, flat, effect⟩ := bwrite_effect result
  exact ⟨⟨core, change, by grind, block, by grind⟩, flat, by grind [Got, Has],
    fun b' other got => got.elsewhere change other idle⟩

omit inv in
theorem getD_mem (below : k < s.block.length) : s.block.getD k 0 ∈ s.block := by
  rw [List.getD_eq_getElem _ _ below]
  exact List.getElem_mem _

theorem inLog_entry (below : k < s.block.length) : InLog d (d.start + k + 1) := by
  have room := inv.log.room
  unfold InLog
  omega

/-- A store to the log area keeps the copies of other entries. -/
theorem copied_store {data : Block} (result : store s p i data = t) (copied : Copied d s k)
    (bound : k ≤ s.block.length) (log : InLog d (s.buf i).blockno)
    (other : ∀ j, j < k → d.start + j + 1 ≠ (s.buf i).blockno) : Copied d t k := by
  obtain ⟨change, block, -, -, -, -, -, buf⟩ := store_effect result
  intro j below
  have home := inv.log.home _ (getD_mem (show j < s.block.length by omega))
  rw [block, change.flat, change.flat]
  · exact copied j below
  · rw [buf]
    exact fun same => home (same ▸ log)
  · rw [buf]
    exact other j below

theorem inv_writeLog (running : s.commit = some c) (phase : c.phase = .writeLog tail)
    (idle : (s.proc c.proc).call = .none) (result : commitLine d s c = some t) : Good d s t := by
  obtain ⟨inside, com⟩ := inv.commit c running
  obtain ⟨proc, phase', line, log, home⟩ := c
  subst phase
  have below : tail < s.block.length := by cases line <;> exact com.1
  have inLog := inLog_entry inv below
  have outside := inv.log.home _ (getD_mem below)
  have apart : Has d s proc log (d.start + tail + 1) → Got d s proc home (s.block.getD tail 0) →
      home ≠ log := by
    grind [Has, Got]
  have unlogged : d.start + tail + 1 ∉ s.block := fun member => inv.log.home _ member inLog
  cases line with
  | breadLog =>
    exact inv_bread inv running idle result (fun _ => ⟨rfl, rfl⟩) fun i u block copies got _ =>
      ⟨block ▸ below, copies _ com.2, got⟩
  | breadHome =>
    obtain ⟨-, copied, gotLog⟩ := com
    exact inv_bread inv running idle result (fun _ => ⟨rfl, rfl⟩) fun i u block copies got keep =>
      ⟨block ▸ below, copies _ copied, keep _ _ gotLog, block ▸ got⟩
  | copy =>
    obtain ⟨-, copied, gotLog, gotHome⟩ := com
    cases result
    obtain ⟨has, -, -⟩ := got_held inv idle gotLog
    obtain ⟨-, -, data⟩ := got_held inv idle gotHome
    have other := apart has gotHome
    generalize result : store s proc log (s.buf home).data = u
    have moved := moved_store inv result idle has.2.2.2 inside
    have copied' := copied_store inv result copied (by omega) (has.2.2.1 ▸ inLog)
      (by rw [has.2.2.1]; omega)
    obtain ⟨change, block, flat, call, held, touched, disk, buf⟩ := store_effect result
    refine inv_line inv running rfl moved rfl
      ⟨block ▸ below, ?_, by grind [Has], block ▸ gotHome.elsewhere change other idle⟩
    intro j bound
    by_cases last : j = tail
    · subst last
      rw [block, change.flat (s.block.getD j 0), ← data, ← has.2.2.1]
      · exact flat
      · rw [buf]
        exact fun same => outside (same ▸ has.2.2.1 ▸ inLog)
    · exact copied' j (by omega)
  | bwrite =>
    obtain ⟨-, copied, has, gotHome⟩ := com
    obtain ⟨u, written, rfl⟩ := Option.map_eq_some_iff.mp result
    obtain ⟨moved, flat, got, keep⟩ :=
      has_bwrite (j := home) inv idle inside has unlogged written
    have block := moved.block
    exact inv_line inv running rfl moved rfl
      ⟨block ▸ below, copied.same flat block, got, block ▸ keep _ (apart has gotHome) gotHome⟩
  | brelse =>
    obtain ⟨-, copied, gotLog, gotHome⟩ := com
    obtain ⟨u, released, rfl⟩ := Option.map_eq_some_iff.mp result
    obtain ⟨moved, flat, keep⟩ := got_releasesleep (j := log) inv idle inside gotHome released
    have other := apart (got_held inv idle gotLog).1 gotHome
    have block := moved.block
    exact inv_line inv running rfl moved rfl
      ⟨block ▸ below, copied.same flat block, keep _ other.symm gotLog⟩
  | brelseLast =>
    obtain ⟨-, copied, gotLog⟩ := com
    obtain ⟨u, released, rfl⟩ := Option.map_eq_some_iff.mp result
    obtain ⟨moved, flat, -⟩ := got_releasesleep (j := log) inv idle inside gotLog released
    have block := moved.block
    have copied' := copied.same flat block
    unfold afterWriteLog
    split
    · rename_i more
      exact inv_line inv running rfl moved rfl ⟨more, copied'⟩
    · rename_i ended
      refine inv_line inv running rfl moved rfl ⟨?_, ?_, ?_⟩
      · have room := inv.log.room
        omega
      · intro j bound
        exact copied' j (by omega)
      · simp only [Bool.false_eq_true, false_iff]
        rw [block]
        omega

theorem inv_writeHead {erase : Bool} (running : s.commit = some c)
    (phase : c.phase = .writeHead erase) (idle : (s.proc c.proc).call = .none)
    (result : commitLine d s c = some t) : Good d s t := by
  obtain ⟨inside, com⟩ := inv.commit c running
  obtain ⟨proc, phase', line, log, home⟩ := c
  subst phase
  have size : 0 < d.size := by cases line <;> exact com.1
  have inLog : InLog d d.start := ⟨le_refl _, by omega⟩
  have unlogged : d.start ∉ s.block := fun member => inv.log.home _ member inLog
  cases line with
  | breadLog =>
    obtain ⟨-, copied, empty⟩ := com
    exact inv_bread inv running idle result (fun _ => ⟨rfl, rfl⟩) fun i u block copies got _ =>
      ⟨size, block ▸ copies _ copied, block ▸ empty, got⟩
  | copy =>
    obtain ⟨-, copied, empty, gotLog⟩ := com
    cases result
    obtain ⟨has, -, -⟩ := got_held inv idle gotLog
    generalize result : store s proc log (headerData (s.buf log).data s.block) = u
    have moved := moved_store inv result idle has.2.2.2 inside
    have copied' := copied_store inv result copied (le_refl _) (has.2.2.1 ▸ inLog)
      (by rw [has.2.2.1]; omega)
    obtain ⟨change, block, effect⟩ := store_effect result
    exact inv_line inv running rfl moved rfl
      ⟨size, block ▸ copied', block ▸ empty, by grind [Has]⟩
  | bwrite =>
    obtain ⟨-, copied, empty, has⟩ := com
    obtain ⟨u, written, rfl⟩ := Option.map_eq_some_iff.mp result
    obtain ⟨moved, flat, got, -⟩ :=
      has_bwrite (j := log) inv idle inside has unlogged written
    have block := moved.block
    exact inv_line inv running rfl moved rfl
      ⟨size, block ▸ copied.same flat block, block ▸ empty, got⟩
  | brelseLast =>
    obtain ⟨-, copied, empty, gotLog⟩ := com
    obtain ⟨u, released, rfl⟩ := Option.map_eq_some_iff.mp result
    obtain ⟨moved, flat, -⟩ := got_releasesleep (j := log) inv idle inside gotLog released
    have block := moved.block
    have copied' : Copied d u u.block.length := block ▸ copied.same flat block
    rw [← block] at empty
    cases erase with
    | true => exact inv_line inv running rfl moved rfl (empty.mp rfl)
    | false =>
      have more : 0 < u.block.length := by grind
      exact inv_line inv running rfl moved rfl ⟨more, copied'⟩
  | breadHome => cases result
  | brelse => cases result

omit inv in
/-- A logged block is installed once. -/
theorem drop_next (below : tail < s.block.length) (b : Nat) :
    b ∈ s.block.drop tail ↔ b = s.block.getD tail 0 ∨ b ∈ s.block.drop (tail + 1) := by
  rw [List.drop_eq_getElem_cons below, List.mem_cons, List.getD_eq_getElem _ _ below]

theorem not_mem_drop_next (below : tail < s.block.length) :
    s.block.getD tail 0 ∉ s.block.drop (tail + 1) := by
  have distinct := inv.log.distinct.sublist (List.drop_sublist tail s.block)
  rw [List.drop_eq_getElem_cons below] at distinct
  rw [List.getD_eq_getElem _ _ below]
  exact (List.nodup_cons.mp distinct).1

omit inv in
/-- The copy of install_trans: the buffer has these data already. -/
theorem modifyBuf_same {data : Block} (same : data = (s.buf i).data) :
    (modifyBuf s i fun buf => { buf with data }) = s := by
  have bufs : (fun j => if j = i then { s.buf j with data } else s.buf j) = s.buf := by
    funext j
    split
    · rename_i here
      rw [here, same]
    · rfl
  unfold modifyBuf
  rw [bufs]

section Commit
variable (running : s.commit = some c)
include running

/-- install_trans writes a home block: one logged block less is to be installed. -/
theorem core_install (idle : (s.proc c.proc).call = .none) (here : installed c = tail)
    (below : tail < s.block.length) (block : (s.buf i).blockno = s.block.getD tail 0)
    (result : bwrite s c.proc i = some t) :
    Core d (s.block.drop (tail + 1)) t := by
  apply core_bwrite _ inv.core result idle (inv.commit c running).1
  · rw [live_running running, here, block]
    intro b other
    rw [drop_next below]
    grind
  · rw [block]
    exact not_mem_drop_next inv below

/-- The last home block is released, and `log.lh.n = 0`. -/
theorem inv_erase (all : s.block.drop (installed c) = []) (some_ : 0 < s.block.length)
    (moved : Moved d c.proc i s t) :
    Good d s (goto { t with block := [] } { proc := c.proc, phase := .writeHead true }) := by
  have change := moved.change
  have cleared : Touches c.proc i s { t with block := [] } := { change with }
  have core : Core d [] t := all ▸ live_running running ▸ moved.core
  have room := inv.log.room
  refine inv_goto inv running rfl cleared moved.pins List.nodup_nil (by simp) (.inl rfl) moved.call
    (core.apart ⟨rfl, rfl, rfl, rfl, fun _ => rfl, fun _ => rfl, fun _ => rfl⟩)
    ⟨by omega, fun j never => ?_, by simp⟩
  cases never

theorem inv_installTrans (phase : c.phase = .installTrans tail)
    (idle : (s.proc c.proc).call = .none) (result : commitLine d s c = some t) : Good d s t := by
  obtain ⟨inside, com⟩ := inv.commit c running
  obtain ⟨proc, phase', line, log, home⟩ := c
  subst phase
  have below : tail < s.block.length := by cases line <;> exact com.1
  have copied : Copied d s s.block.length := by cases line <;> grind [CommitAt]
  have inLog := inLog_entry inv below
  have outside := inv.log.home _ (getD_mem below)
  have apart : Got d s proc log (d.start + tail + 1) → Got d s proc home (s.block.getD tail 0) →
      home ≠ log := by
    grind [Got]
  cases line with
  | breadLog =>
    exact inv_bread inv running idle result (fun _ => ⟨rfl, rfl⟩) fun i u block copies got _ =>
      ⟨block ▸ below, block ▸ copies _ copied, got⟩
  | breadHome =>
    exact inv_bread inv running idle result (fun _ => ⟨rfl, rfl⟩) fun i u block copies got keep =>
      ⟨block ▸ below, block ▸ copies _ copied, keep _ _ com.2.2, block ▸ got⟩
  | copy =>
    obtain ⟨-, -, gotLog, gotHome⟩ := com
    cases result
    -- The log block has what the last writer left in the home block.
    have same : (s.buf log).data = (s.buf home).data := by
      rw [(got_held inv idle gotLog).2.2, (got_held inv idle gotHome).2.2]
      exact copied tail below
    rw [modifyBuf_same same]
    have stays : Touches proc home s s := by
      constructor <;> simp
    exact inv_line inv running rfl ⟨inv.core, stays, fun _ => ⟨rfl, rfl⟩, rfl, by grind⟩ rfl
      ⟨below, copied, gotLog, gotHome⟩
  | bwrite =>
    obtain ⟨-, -, gotLog, gotHome⟩ := com
    obtain ⟨u, written, rfl⟩ := Option.map_eq_some_iff.mp result
    have core := core_install inv running idle rfl below gotHome.2.2.1 written
    obtain ⟨holds, change, block, flat, effect⟩ := bwrite_effect written
    have state := inv.log
    refine inv_goto inv running rfl change (by grind) (block ▸ state.distinct) (block ▸ state.home)
      (block ▸ state.room) (by grind) ?_
      ⟨block ▸ below, block ▸ copied.same flat block,
        gotLog.elsewhere change (apart gotLog gotHome).symm idle, block ▸ by grind [Got, Has]⟩
    rw [block]
    exact core
  | brelse =>
    obtain ⟨-, -, gotLog, gotHome⟩ := com
    obtain ⟨u, released, rfl⟩ := Option.map_eq_some_iff.mp result
    obtain ⟨moved, flat, keep⟩ := got_releasesleep (j := home) inv idle inside gotLog released
    have block := moved.block
    exact inv_line inv running rfl moved rfl
      ⟨block ▸ below, block ▸ copied.same flat block, block ▸ keep _ (apart gotLog gotHome) gotHome⟩
  | brelseLast =>
    obtain ⟨-, -, gotHome⟩ := com
    obtain ⟨u, released, rfl⟩ := Option.map_eq_some_iff.mp result
    obtain ⟨moved, flat, -⟩ := got_releasesleep (j := home) inv idle inside gotHome released
    have block := moved.block
    have copied' : Copied d u u.block.length := block ▸ copied.same flat block
    unfold afterInstall
    split
    · rename_i more
      exact inv_line inv running rfl moved rfl ⟨more, copied'⟩
    · rename_i ended
      refine inv_erase inv running ?_ (by omega) moved
      rw [List.drop_eq_nil_iff, ← block]
      exact Nat.not_lt.mp ended

theorem inv_commitLine (idle : (s.proc c.proc).call = .none)
    (result : commitLine d s c = some t) : Good d s t := by
  obtain ⟨proc, phase, line, log, home⟩ := c
  cases phase with
  | writeLog tail => exact inv_writeLog inv running rfl idle result
  | writeHead erase => exact inv_writeHead inv running rfl idle result
  | installTrans tail => exact inv_installTrans inv running rfl idle result
  | finish =>
    have empty : s.block.length = 0 := (inv.commit _ running).2
    cases result
    have log := inv.log
    refine ⟨⟨?_, { log with committing := rfl, still := fun never => by cases never },
      fun c never => by cases never⟩, fun _ _ => ⟨rfl, rfl⟩⟩
    have core := inv.core
    rw [live_running running] at core
    have nil : s.block = [] := List.length_eq_zero_iff.mp empty
    have core' : Core d s.block s := by
      rw [nil]
      rwa [nil, List.drop_nil] at core
    exact core'.apart ⟨rfl, rfl, rfl, rfl, fun _ => rfl, fun _ => rfl, fun _ => rfl⟩

end Commit

end Steps

theorem inv_step {a : Action} (inv : Inv d s) (step : Guarded (Proper d) (Step d) s a t) :
    Good d s t := by
  obtain ⟨proper, result⟩ := step
  unfold Step at result
  cases a <;> simp only [next, Option.ite_none_right_eq_some] at result
  case beginOp p =>
    obtain ⟨⟨free, outside⟩, result⟩ := result
    exact inv_beginOp inv free (by simpa using outside) result
  case endOp p => exact inv_endOp inv result.1.1 result.1.2 result.2
  case bread p b =>
    obtain ⟨⟨i, u⟩, found, rfl⟩ := Option.map_eq_some_iff.mp result.2
    exact inv_bget inv result.1 found
  case acquiresleep p =>
    split at result
    · exact inv_acquiresleep inv ‹_› result
    · cases result
  case fill p =>
    split at result
    · exact inv_fill inv ‹_› result
    · cases result
  case modify p i data =>
    obtain ⟨⟨free, holds⟩, ⟨⟩⟩ := result
    exact inv_modify inv free holds data proper
  case logWriteTests p i => exact inv_logWriteTests inv result.1.1 result.1.2 result.2 proper
  case logWrite p =>
    split at result
    · exact inv_logWrite inv ‹_› result proper
    · cases result
  case bwrite p i => exact inv_bwrite inv result.1 result.2 proper
  case brelse p i =>
    obtain ⟨⟨free, written⟩, result⟩ := result
    exact inv_brelse inv free (by simpa using written) result
  case unref p =>
    split at result
    · cases result
      exact inv_unref inv ‹_›
    · cases result
  case commit p =>
    split at result
    · rename_i c running
      obtain ⟨⟨own, idle⟩, line⟩ := Option.ite_none_right_eq_some.mp result
      exact inv_commitLine inv running (own ▸ idle) line
    · cases result

theorem refs_boot (d : Device) (disk : Disk) (known : d.dev ≠ 0) : Refs d (boot disk) := by
  have none : ∀ p i, refs ((boot disk).proc p) i = 0 := fun _ _ => rfl
  constructor
  · intro i
    simp [boot]
  · intro i
    simp only [none, sum_const_zero]
    rfl
  · exact fun p i _ => none p i
  · intro p i used
    rw [none] at used
    cases used
  · intro p i held
    cases held
  · intro p q i held
    cases held
  · rintro p i b (call | call)
    · cases call
    · cases call
  · intro p i b call
    cases call
  · intro p i call
    cases call
  · intro i j _ _ dev
    exact absurd dev.symm known

theorem contents_boot (d : Device) (disk : Disk) (known : d.dev ≠ 0) :
    Contents d [] (boot disk) := by
  constructor
  · intro p i held
    cases held
  · intro p i touched
    cases touched
  · intro i _ dev
    exact absurd dev.symm known
  · exact fun _ _ _ => rfl
  · intro i dirty
    cases dirty
  · intro i _ dev
    exact absurd dev.symm known
  · intro b member
    cases member

theorem inv_boot (d : Device) (disk : Disk) (known : d.dev ≠ 0) : Inv d (boot disk) := by
  refine ⟨⟨refs_boot d disk known, contents_boot d disk known⟩, ?_, ?_⟩
  · constructor
    · simp [boot]
    · exact fun _ _ => rfl
    · rfl
    · exact fun _ => rfl
    · exact List.nodup_nil
    · intro b member
      cases member
    · exact .inl rfl
    · intro p i call
      cases call
  · intro c running
    cases running

/-- The buffer cache refines a flat store of blocks: one buffer per block; refcnt counts the
processes that wait for a buffer, hold it or are about to drop it; a buffer in use or dirty is not
recycled; outside commit the dirty buffers are those of logged blocks; and bread returns what the
last writer left in the block. -/
theorem cache_refines_flat_store {d : Device} {disk : Disk} {acts : List Action} {s : State}
    (known : d.dev ≠ 0) (run : Run (Guarded (Proper d) (Step d)) (boot disk) acts s) :
    (∀ i j, i < nbuf → j < nbuf → (s.buf i).dev = d.dev → (s.buf j).dev = d.dev →
      (s.buf i).blockno = (s.buf j).blockno → i = j) ∧
    (∀ i, (s.buf i).refcnt = (∑ p ∈ range nproc, refs (s.proc p) i : Nat)) ∧
    (∀ a t, Guarded (Proper d) (Step d) s a t → Kept s t) ∧
    (s.committing = false → ∀ i, i < nbuf → (s.buf i).dev = d.dev →
      ((s.buf i).dirty = true ↔ (s.buf i).blockno ∈ s.block)) ∧
    (∀ p i b t, (s.proc p).call = .fill i b → Guarded (Proper d) (Step d) s (.fill p) t →
      (t.proc p).held i = true ∧ (t.buf i).dev = d.dev ∧ (t.buf i).blockno = b ∧
        (t.buf i).data = t.flat b) := by
  have inv : Inv d s :=
    run.preserves (Inv d) (fun _ _ _ inv step => (inv_step inv step).inv) (inv_boot d disk known)
  refine ⟨inv.core.refs.unique, inv.core.refs.counted, fun a t step => (inv_step inv step).kept,
    ?_, ?_⟩
  · intro quiet
    have none := inv.log.committing
    rw [quiet] at none
    have logged := inv.core.con.logged
    unfold live at logged
    rw [Option.isSome_eq_false_iff.mp none.symm |> Option.isNone_iff_eq_none.mp] at logged
    exact logged
  · intro p i b t fills step
    have after := (inv_step inv step).inv.core
    have dirty := inv.core.con.dirty i
    have block := inv.core.refs.asked p i b (.inr fills)
    have holds := inv.core.refs.filling p i b fills
    obtain ⟨-, result⟩ := step
    simp only [Step, next, fills] at result
    obtain ⟨change, -, -, call, held, touched, -, buf⟩ := fill_effect dirty result
    have named := after.refs.named p i (by grind)
    have data := after.con.data i named.1 named.2 (by grind)
    have same : (t.buf i).blockno = b := by grind
    exact ⟨held.trans holds, named.2, same, same ▸ data⟩

/-- The log of the standard image. -/
def rootLog : Device := { dev := rootDev, start := 2, size := logSize }

/-- Process `p` reads block `b` into buffer `i`. -/
def reads (p b : Nat) : List Action := [.bread p b, .acquiresleep p, .fill p]

/-- It gives the buffer back. -/
def releases (p i : Nat) : List Action := [.brelse p i, .unref p]

def properNext (d : Device) (s : State) (a : Action) : Option State :=
  if Proper d s a then next d s a else none

theorem properNext_run {d : Device} {s t : State} {acts : List Action}
    (run : Run (fun s a t => properNext d s a = some t) s acts t) :
    Run (Guarded (Proper d) (Step d)) s acts t := by
  apply run.mono
  intro s a t step
  unfold properNext at step
  split at step
  · exact ⟨‹_›, step⟩
  · cases step

/-- A logged block that waits for commit is in a dirty buffer. -/
theorem cache_refines_flat_store_logged :
    ∃ s, Run (Guarded (Proper rootLog) (Step rootLog)) (boot fun _ _ => 0)
        (.beginOp 0 :: reads 0 100 ++ [.modify 0 0 fun _ => 1, .logWriteTests 0 0, .logWrite 0] ++
          releases 0 0) s ∧
      s.block = [100] ∧ ((s.buf 0).dirty = true ↔ (s.buf 0).blockno ∈ s.block) := by
  obtain ⟨s, run, test⟩ := execute_exists (properNext rootLog) (boot fun _ _ => 0)
    (.beginOp 0 :: reads 0 100 ++ [.modify 0 0 fun _ => 1, .logWriteTests 0 0, .logWrite 0] ++
      releases 0 0)
    (fun s => s.committing = false ∧ s.block = [100] ∧ (s.buf 0).dev = rootLog.dev)
    (by decide +kernel)
  have guarded := properNext_run run
  simp only [decide_eq_true_eq] at test
  obtain ⟨quiet, block, dev⟩ := test
  have main := cache_refines_flat_store (by decide) guarded
  exact ⟨s, guarded, block, main.2.2.2.1 quiet 0 (by decide) dev⟩

/-- A process that may bwrite any buffer it holds clears B_DIRTY of a logged block. -/
theorem bwrite_unpins_logged_block :
    ∃ acts s, Run (Step rootLog) (boot fun _ _ => 0) acts s ∧ s.committing = false ∧
      (s.buf 0).dev = rootLog.dev ∧ (s.buf 0).blockno ∈ s.block ∧ (s.buf 0).dirty = false := by
  obtain ⟨s, run, test⟩ := execute_exists (next rootLog) (boot fun _ _ => 0)
    (.beginOp 0 :: reads 0 100 ++ [.modify 0 0 fun _ => 1, .logWriteTests 0 0, .logWrite 0] ++
      releases 0 0 ++ reads 0 100 ++ [.modify 0 0 fun _ => 2, .bwrite 0 0] ++ releases 0 0)
    (fun s => s.committing = false ∧ (s.buf 0).dev = rootLog.dev ∧ (s.buf 0).blockno ∈ s.block ∧
      (s.buf 0).dirty = false)
    (by decide +kernel)
  simp only [decide_eq_true_eq] at test
  exact ⟨_, s, run, test⟩

end ColorXv6.Bio.FlatStore
