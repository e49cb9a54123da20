import ColorXv6.Logging.Commit

/-!
# Crash atomicity of commit

The disk is in one of two classes at every crash point. `Pending` disks have an
erased header and untouched home blocks. `Committed` disks have the header and
the log body of the transaction, and `Installed` disks an erased header and the
new contents at home. A recovery cut short anywhere stays in its class, and a
completed one ends in `Pending` or in `Installed`.
-/
namespace ColorXv6.Logging.Atomicity
open Param Lib.LittleEndian Commit

@[simp] theorem applyWrites_nil (d : Disk) : applyWrites d [] = d := rfl

@[simp] theorem applyWrites_cons (d : Disk) (w : Nat × Block) (ws : List (Nat × Block)) :
    applyWrites d (w :: ws) = applyWrites (diskWrite d w) ws := rfl

theorem applyWrites_append (d : Disk) (ws vs : List (Nat × Block)) :
    applyWrites d (ws ++ vs) = applyWrites (applyWrites d ws) vs := by
  simp [applyWrites]

/-- A block that no write names keeps its contents. -/
theorem applyWrites_frame (d : Disk) (ws : List (Nat × Block)) (b : Nat)
    (absent : ∀ w ∈ ws, b ≠ w.1) : applyWrites d ws b = d b := by
  induction ws generalizing d with
  | nil => rfl
  | cons w rest ih =>
    rw [applyWrites_cons, ih _ (fun v member => absent v (by simp [member]))]
    exact diskWrite_other d w b (absent w (by simp))

/-- The writes of write_log: the contents of the transaction, in log order. -/
def bodyWrites (l : Log) (new : Nat → Block) : Nat → List Nat → List (Nat × Block)
  | _, [] => []
  | tail, b :: rest => (l.start + tail + 1, new b) :: bodyWrites l new (tail + 1) rest

/-- The writes of install_trans, each block at its home location. -/
def homeWrites (new : Nat → Block) (blocks : List Nat) : List (Nat × Block) :=
  blocks.map fun b => (b, new b)

@[simp] theorem bodyWrites_length (l : Log) (new : Nat → Block) (tail : Nat) (blocks : List Nat) :
    (bodyWrites l new tail blocks).length = blocks.length := by
  induction blocks generalizing tail with
  | nil => rfl
  | cons b rest ih => simp [bodyWrites, ih]

@[simp] theorem homeWrites_length (new : Nat → Block) (blocks : List Nat) :
    (homeWrites new blocks).length = blocks.length := by simp [homeWrites]

theorem bodyWrites_range (l : Log) (new : Nat → Block) (tail : Nat) (blocks : List Nat)
    (w : Nat × Block) (member : w ∈ bodyWrites l new tail blocks) :
    l.start + tail < w.1 ∧ w.1 ≤ l.start + tail + blocks.length := by
  induction blocks generalizing tail with
  | nil => simp [bodyWrites] at member
  | cons b rest ih =>
    simp only [bodyWrites, List.mem_cons] at member
    rcases member with rfl | later
    · simp only [List.length_cons]
      omega
    · have bound := ih (tail + 1) later
      simp only [List.length_cons]
      omega

/-- After the body writes, log block `i` holds the contents of entry `i`. -/
theorem applyWrites_body (l : Log) (new : Nat → Block) (d : Disk) (tail : Nat) (blocks : List Nat)
    (i b : Nat) (entry : blocks[i]? = some b) :
    applyWrites d (bodyWrites l new tail blocks) (l.start + tail + i + 1) = new b := by
  induction blocks generalizing d tail i with
  | nil => simp at entry
  | cons c rest ih =>
    cases i with
    | zero =>
      simp only [List.getElem?_cons_zero, Option.some.injEq] at entry
      subst entry
      rw [bodyWrites, applyWrites_cons, applyWrites_frame]
      · simp
      · intro w member
        have bound := bodyWrites_range l new (tail + 1) rest w member
        omega
    | succ i =>
      have later := ih (diskWrite d (l.start + tail + 1, new c)) (tail + 1) i entry
      rw [bodyWrites, applyWrites_cons,
        show l.start + tail + (i + 1) + 1 = l.start + (tail + 1) + i + 1 by omega]
      exact later

/-- Installing distinct blocks leaves each with its new contents. -/
theorem applyWrites_home (new : Nat → Block) (d : Disk) (blocks : List Nat)
    (distinct : blocks.Nodup) (b : Nat) (member : b ∈ blocks) :
    applyWrites d (homeWrites new blocks) b = new b := by
  induction blocks generalizing d with
  | nil => simp at member
  | cons c rest ih =>
    obtain ⟨fresh, restDistinct⟩ := List.nodup_cons.mp distinct
    simp only [homeWrites, List.map_cons, applyWrites_cons]
    rcases List.mem_cons.mp member with rfl | later
    · rw [applyWrites_frame]
      · simp
      · intro w belongs
        obtain ⟨e, inRest, rfl⟩ := List.mem_map.mp belongs
        rintro rfl
        exact fresh inRest
    · exact ih _ restDistinct later

@[simp] theorem bwrite_issued (m : Store) (b : Nat) (data : Block) :
    (bwrite m b data).issued = m.issued ++ [(b, data)] := rfl

@[simp] theorem bwrite_disk (m : Store) (b : Nat) (data : Block) :
    (bwrite m b data).disk = diskWrite m.disk (b, data) := rfl

@[simp] theorem bread_bwrite_same (m : Store) (b : Nat) (data : Block) :
    bread (bwrite m b data) b = data := by simp [bread, bwrite]

theorem bread_bwrite_other (m : Store) (b c : Nat) (data : Block) (h : c ≠ b) :
    bread (bwrite m b data) c = bread m c := by simp [bread, bwrite, diskWrite, h]

/-- write_log from iteration `tail` writes log blocks `tail + 1` and later only. -/
theorem writeLogFrom_frame (l : Log) (m : Store) (tail : Nat) (blocks : List Nat) (c : Nat)
    (outside : c ≤ l.start + tail ∨ l.start + tail + blocks.length < c) :
    bread (writeLogFrom l m tail blocks) c = bread m c := by
  induction blocks generalizing m tail with
  | nil => rfl
  | cons b rest ih =>
    simp only [List.length_cons] at outside
    rw [writeLogFrom, ih _ _ (by omega)]
    exact bread_bwrite_other _ _ _ _ (by omega)

/-- write_log issues the body writes and leaves them in the log blocks: home
blocks lie outside the log, so no log write changes what is read later. -/
theorem writeLogFrom_issued (l : Log) (m : Store) (new : Nat → Block) (tail : Nat)
    (blocks : List Nat) (home : ∀ b ∈ blocks, ¬ InLog l b) (room : tail + blocks.length < l.size)
    (cached : ∀ b ∈ blocks, bread m b = new b) :
    (writeLogFrom l m tail blocks).issued = m.issued ++ bodyWrites l new tail blocks ∧
      ∀ i b, blocks[i]? = some b →
        bread (writeLogFrom l m tail blocks) (l.start + tail + i + 1) = new b := by
  induction blocks generalizing m tail with
  | nil => simp [writeLogFrom, bodyWrites]
  | cons b rest ih =>
    simp only [List.length_cons] at room
    have first := cached b (by simp)
    have later : ∀ c ∈ rest, bread (bwrite m (l.start + tail + 1) (bread m b)) c = new c := by
      intro c member
      have outside := home c (by simp [member])
      rw [bread_bwrite_other, cached c (by simp [member])]
      rintro rfl
      exact outside ⟨by omega, by omega⟩
    obtain ⟨issued, body⟩ := ih (bwrite m (l.start + tail + 1) (bread m b)) (tail + 1)
      (fun c member => home c (by simp [member])) (by omega) later
    refine ⟨?_, ?_⟩
    · rw [writeLogFrom, issued, first]
      simp [bodyWrites]
    · intro i c entry
      rw [writeLogFrom]
      cases i with
      | zero =>
        simp only [List.getElem?_cons_zero, Option.some.injEq] at entry
        subst entry
        rw [writeLogFrom_frame _ _ _ _ _ (Or.inl (by omega)), Nat.add_zero, bread_bwrite_same, first]
      | succ i =>
        rw [show l.start + tail + (i + 1) + 1 = l.start + (tail + 1) + i + 1 by omega]
        exact body i c (by simpa using entry)

/-- install_trans issues the home writes when the log body holds `new`: home
writes stay outside the log, so they never change a log block still to be read. -/
theorem installTransFrom_issued (l : Log) (m : Store) (new : Nat → Block) (tail : Nat)
    (blocks : List Nat) (home : ∀ b ∈ blocks, ¬ InLog l b) (room : tail + blocks.length < l.size)
    (body : ∀ i b, blocks[i]? = some b → bread m (l.start + tail + i + 1) = new b) :
    (installTransFrom l m tail blocks).issued = m.issued ++ homeWrites new blocks ∧
      ∀ c, InLog l c → bread (installTransFrom l m tail blocks) c = bread m c := by
  induction blocks generalizing m tail with
  | nil => simp [installTransFrom, homeWrites]
  | cons b rest ih =>
    simp only [List.length_cons] at room
    have first : bread m (l.start + tail + 1) = new b := body 0 b (by simp)
    have reads : ∀ c, InLog l c → bread (bwrite m b (bread m (l.start + tail + 1))) c = bread m c := by
      intro c inside
      apply bread_bwrite_other
      rintro rfl
      exact home c (by simp) inside
    have later : ∀ i c, rest[i]? = some c →
        bread (bwrite m b (bread m (l.start + tail + 1))) (l.start + (tail + 1) + i + 1) = new c := by
      intro i c entry
      have bound : i < rest.length := (List.getElem?_eq_some_iff.mp entry).1
      rw [reads _ ⟨by omega, by omega⟩]
      have at_ := body (i + 1) c (by simpa using entry)
      rwa [show l.start + tail + (i + 1) + 1 = l.start + (tail + 1) + i + 1 by omega] at at_
    obtain ⟨issued, frame⟩ := ih (bwrite m b (bread m (l.start + tail + 1))) (tail + 1)
      (fun c member => home c (by simp [member])) (by omega) later
    refine ⟨?_, fun c inside => (frame c inside).trans (reads c inside)⟩
    rw [installTransFrom, issued, first]
    simp [homeWrites]

theorem getLE_headerBlock (buf : Block) (lh : LogHeader) : getLE (headerBlock buf lh) 0 4 = lh.n := by
  have small : lh.n < 256 ^ 4 := Nat.lt_of_le_of_lt lh.fits (by decide)
  rw [headerBlock, getLE_putWords_disjoint _ _ _ _ _ _ (by omega), getLE_putLE, Nat.mod_eq_of_lt small]

@[simp] theorem headerCount_headerBlock (buf : Block) (lh : LogHeader) :
    headerCount (headerBlock buf lh) = lh.n := by
  have small : lh.n < 2 ^ 31 := Nat.lt_of_le_of_lt lh.fits (by decide)
  simp only [headerCount, getLE_headerBlock, if_pos small]

/-- A recovery that runs to its end leaves the count 0 in the header, whatever it was. -/
theorem recovered_count (l : Log) {d r : Disk} (done : recovered l d = some r) :
    getLE (r l.start) 0 4 = 0 := by
  simp only [recovered, recoverFromLog, Option.map_eq_some_iff, Option.bind_eq_bind,
    Option.bind_eq_some_iff] at done
  obtain ⟨_, ⟨found, head, same⟩, rfl⟩ := done
  cases same
  have start : found.start = l.start := by
    simp only [readHead, Option.dite_none_right_eq_some, Option.some.injEq] at head
    obtain ⟨-, rfl⟩ := head
    rfl
  rw [writeHead, bwrite_disk, start, diskWrite_same, getLE_headerBlock]
  rfl

/-- read_head after write_head gives the header back. -/
@[simp] theorem headerEntries_headerBlock (buf : Block) (lh : LogHeader) :
    headerEntries (headerBlock buf lh) = lh.block := by
  apply List.ext_getElem
  · simp [headerEntries, LogHeader.n]
  · intro i hi hj
    have bound := lh.bounded lh.block[i] (List.getElem_mem hj)
    simp only [headerEntries, List.getElem_map, List.getElem_range]
    rw [headerBlock, getLE_putWords _ _ _ _ _ (show i < lh.n from hj)]
    simp only [List.getD_eq_getElem?_getD, List.getElem?_eq_getElem hj, Option.getD_some]
    exact Nat.mod_eq_of_lt bound

/-- The writes of one commit, split at its two header writes. -/
theorem commitWrites_eq (l : Log) (m : Store) (ready : Ready l m) :
    ∃ head erase : Block, headerEntries head = l.lh.block ∧ headerCount erase = 0 ∧
      commitWrites l m = bodyWrites l (bread m) 0 l.lh.block ++ (l.start, head) ::
        (homeWrites (bread m) l.lh.block ++ [(l.start, erase)]) := by
  have room : 0 + l.lh.block.length < l.size := by
    have := ready.room
    have := ready.nonempty
    simp only [LogHeader.n] at *
    omega
  obtain ⟨issued, body⟩ := writeLogFrom_issued l { m with issued := [] } (bread m) 0 l.lh.block
    ready.home room (fun b _ => rfl)
  let logged := writeLogFrom l { m with issued := [] } 0 l.lh.block
  let headed := writeHead l logged
  have body' : ∀ i b, l.lh.block[i]? = some b → bread headed (l.start + 0 + i + 1) = bread m b := by
    intro i b entry
    rw [← body i b entry]
    exact bread_bwrite_other _ _ _ _ (by omega)
  obtain ⟨installed, _⟩ := installTransFrom_issued l headed (bread m) 0 l.lh.block
    ready.home room body'
  refine ⟨headerBlock (bread logged l.start) l.lh,
    headerBlock (bread (installTransFrom l headed 0 l.lh.block) l.start) LogHeader.empty,
    by simp, by simp [LogHeader.empty, LogHeader.n], ?_⟩
  simp only [commitWrites, commit, if_pos ready.nonempty]
  show (bwrite (installTransFrom l headed 0 l.lh.block) l.start _).issued = _
  rw [bwrite_issued, installed]
  show (logged.issued ++ [(l.start, _)]) ++ _ ++ _ = _
  rw [issued]
  simp only [List.nil_append, List.append_assoc, List.cons_append]
  rfl

/-- Every store reached from `d` is `d` with the issued writes applied. -/
theorem installTransFrom_disk (l : Log) (m : Store) (d : Disk) (tail : Nat) (blocks : List Nat)
    (tracks : m.disk = applyWrites d m.issued) :
    (installTransFrom l m tail blocks).disk =
      applyWrites d (installTransFrom l m tail blocks).issued := by
  induction blocks generalizing m tail with
  | nil => exact tracks
  | cons b rest ih =>
    rw [installTransFrom]
    exact ih _ _ (by simp [applyWrites_append, tracks])

theorem recoverFromLog_eq (l : Log) (d : Disk) (fits : (headerEntries (d l.start)).length ≤ logSize) :
    ∃ (l' : Log) (m : Store), recoverFromLog l (boot d) = some (l', m) ∧
      m.disk = applyWrites d m.issued ∧ ∃ erase : Block, headerCount erase = 0 ∧
      m.issued = (installTransFrom l (boot d) 0 (headerEntries (d l.start))).issued ++
        [(l.start, erase)] := by
  have read : bread (boot d) l.start = d l.start := rfl
  let lh : LogHeader := ⟨headerEntries (d l.start), fits, headerEntries_bounded _⟩
  have head : readHead l (boot d) = some { l with lh := lh } := by
    simp only [readHead, read, dif_pos fits]
    rfl
  have sameLoop : ∀ (m : Store) (tail : Nat) (blocks : List Nat),
      installTransFrom { l with lh := lh } m tail blocks = installTransFrom l m tail blocks := by
    intro m tail blocks
    induction blocks generalizing m tail with
    | nil => rfl
    | cons b rest ih => simp only [installTransFrom, ih]
  let installed := installTransFrom l (boot d) 0 (headerEntries (d l.start))
  have install : installTrans { l with lh := lh } (boot d) = installed := sameLoop _ _ _
  let erase := headerBlock (bread installed l.start) LogHeader.empty
  refine ⟨{ l with lh := LogHeader.empty }, bwrite installed l.start erase, ?_, ?_, erase, ?_, rfl⟩
  · simp only [recoverFromLog, head, Option.bind_eq_bind, Option.bind_some, install]
    rfl
  · have tracks := installTransFrom_disk l (boot d) d 0 (headerEntries (d l.start)) rfl
    simp only [bwrite_disk, bwrite_issued, applyWrites_append, applyWrites_cons, applyWrites_nil]
    rw [tracks]
  · simp [erase, LogHeader.empty, LogHeader.n]

theorem recoverWrites_eq (l : Log) (d : Disk) (fits : (headerEntries (d l.start)).length ≤ logSize) :
    recovered l d = some (applyWrites d (recoverWrites l d)) ∧
    ∃ erase : Block, headerCount erase = 0 ∧
      recoverWrites l d = (installTransFrom l (boot d) 0 (headerEntries (d l.start))).issued ++
        [(l.start, erase)] := by
  obtain ⟨l', m, result, tracks, erase, cleared, issued⟩ := recoverFromLog_eq l d fits
  have writes : recoverWrites l d = m.issued := by simp only [recoverWrites, result]
  refine ⟨?_, erase, cleared, writes.trans issued⟩
  simp [recovered, result, writes, tracks]

section Classes

variable (l : Log) (old : Disk) (new : Nat → Block)

/-- Blocks that are neither logged nor in the log area are untouched. -/
def Untouched (d : Disk) : Prop := ∀ b, b ∉ l.lh.block → ¬ InLog l b → d b = old b

/-- Erased header, home blocks holding `content`. -/
structure Erased (content : Nat → Block) (d : Disk) : Prop where
  erased : headerCount (d l.start) = 0
  home : ∀ b ∈ l.lh.block, d b = content b
  others : Untouched l old d

/-- Header and log body of the transaction on disk; the home blocks may hold anything. -/
structure Committed (d : Disk) : Prop where
  header : headerEntries (d l.start) = l.lh.block
  body : ∀ i b, l.lh.block[i]? = some b → d (l.start + i + 1) = new b
  others : Untouched l old d

end Classes

variable {l : Log} {old d : Disk} {new : Nat → Block}

theorem Erased.write_head {content : Nat → Block} (h : Erased l old content d)
    (home : ∀ b ∈ l.lh.block, ¬ InLog l b) (size : 0 < l.size) (erase : Block)
    (cleared : headerCount erase = 0) :
    Erased l old content (diskWrite d (l.start, erase)) := by
  have inLog : InLog l l.start := ⟨Nat.le_refl _, by omega⟩
  refine ⟨by simpa using cleared, ?_, ?_⟩
  · intro b member
    rw [diskWrite_other _ _ _ (by rintro rfl; exact home _ member inLog)]
    exact h.home b member
  · intro b fresh outside
    rw [diskWrite_other _ _ _ (by rintro rfl; exact outside inLog)]
    exact h.others b fresh outside

/-- Recovery from an erased header only rewrites the header. -/
theorem Erased.recover {content : Nat → Block} (h : Erased l old content d)
    (home : ∀ b ∈ l.lh.block, ¬ InLog l b) (size : 0 < l.size) :
    recovered l d = some (applyWrites d (recoverWrites l d)) ∧
      ∀ k, Erased l old content (crashAfter d (recoverWrites l d) k) := by
  have none_ : headerEntries (d l.start) = [] := by simp [headerEntries, h.erased]
  obtain ⟨result, erase, cleared, writes⟩ := recoverWrites_eq l d (by simp [none_])
  refine ⟨result, fun k => ?_⟩
  have single : recoverWrites l d = [(l.start, erase)] := by
    rw [writes, none_]
    rfl
  rw [crashAfter, single]
  cases k with
  | zero => simpa using h
  | succ k => simpa using h.write_head home size erase cleared

/-- Home writes keep a committed disk committed. -/
theorem Committed.home_writes (h : Committed l old new d) (home : ∀ b ∈ l.lh.block, ¬ InLog l b)
    (room : l.lh.block.length < l.size) (ws : List (Nat × Block))
    (targets : ∀ w ∈ ws, w.1 ∈ l.lh.block) : Committed l old new (applyWrites d ws) := by
  have keeps : ∀ b, InLog l b → applyWrites d ws b = d b := by
    intro b inside
    apply applyWrites_frame
    rintro w member rfl
    exact home _ (targets w member) inside
  refine ⟨?_, ?_, ?_⟩
  · rw [keeps _ ⟨Nat.le_refl _, by omega⟩]
    exact h.header
  · intro i b entry
    have bound : i < l.lh.block.length := (List.getElem?_eq_some_iff.mp entry).1
    rw [keeps _ ⟨by omega, by omega⟩]
    exact h.body i b entry
  · intro b fresh outside
    rw [applyWrites_frame _ _ _ (by rintro w member rfl; exact fresh (targets w member))]
    exact h.others b fresh outside

theorem homeWrites_targets (new : Nat → Block) (blocks : List Nat) :
    ∀ w ∈ homeWrites new blocks, w.1 ∈ blocks := by
  intro w member
  obtain ⟨b, belongs, rfl⟩ := List.mem_map.mp member
  exact belongs

/-- Installing a committed transaction and erasing its header. -/
theorem Committed.install (h : Committed l old new d) (home : ∀ b ∈ l.lh.block, ¬ InLog l b)
    (room : l.lh.block.length < l.size) (distinct : l.lh.block.Nodup) (erase : Block)
    (cleared : headerCount erase = 0) :
    Erased l old new
      (diskWrite (applyWrites d (homeWrites new l.lh.block)) (l.start, erase)) := by
  have inLog : InLog l l.start := ⟨Nat.le_refl _, by omega⟩
  have installed := h.home_writes home room _ (homeWrites_targets new l.lh.block)
  refine ⟨by simpa using cleared, ?_, ?_⟩
  · intro b member
    rw [diskWrite_other _ _ _ (by rintro rfl; exact home _ member inLog)]
    exact applyWrites_home new d l.lh.block distinct b member
  · intro b fresh outside
    rw [diskWrite_other _ _ _ (by rintro rfl; exact outside inLog)]
    exact installed.others b fresh outside

/-- The home writes followed by the header erasure, cut anywhere. -/
theorem Committed.install_prefix (h : Committed l old new d) (home : ∀ b ∈ l.lh.block, ¬ InLog l b)
    (room : l.lh.block.length < l.size) (distinct : l.lh.block.Nodup) (erase : Block)
    (cleared : headerCount erase = 0) (k : Nat) :
    Committed l old new (crashAfter d (homeWrites new l.lh.block ++ [(l.start, erase)]) k) ∨
      Erased l old new (crashAfter d (homeWrites new l.lh.block ++ [(l.start, erase)]) k) := by
  rw [crashAfter, List.take_append, homeWrites_length, applyWrites_append]
  by_cases early : k ≤ l.lh.block.length
  · left
    rw [show k - l.lh.block.length = 0 by omega, List.take_zero, applyWrites_nil]
    exact h.home_writes home room _
      (fun w member => homeWrites_targets new _ w (List.mem_of_mem_take member))
  · right
    obtain ⟨j, late⟩ : ∃ j, k - l.lh.block.length = j + 1 := ⟨k - l.lh.block.length - 1, by omega⟩
    rw [List.take_of_length_le (by simp; omega), late]
    simpa using h.install home room distinct erase cleared

/-- Recovery from a committed disk installs the transaction, wherever it is cut. -/
theorem Committed.recover (h : Committed l old new d) (home : ∀ b ∈ l.lh.block, ¬ InLog l b)
    (room : l.lh.block.length < l.size) (distinct : l.lh.block.Nodup) :
    recovered l d = some (applyWrites d (recoverWrites l d)) ∧
      Erased l old new (applyWrites d (recoverWrites l d)) ∧
      ∀ k, Committed l old new (crashAfter d (recoverWrites l d) k) ∨
        Erased l old new (crashAfter d (recoverWrites l d) k) := by
  obtain ⟨result, erase, cleared, writes⟩ := recoverWrites_eq l d (by rw [h.header]; exact l.lh.fits)
  have body : ∀ i b, l.lh.block[i]? = some b → bread (boot d) (l.start + 0 + i + 1) = new b :=
    fun i b entry => h.body i b entry
  obtain ⟨issued, _⟩ := installTransFrom_issued l (boot d) new 0 l.lh.block home (by omega) body
  have shape : recoverWrites l d = homeWrites new l.lh.block ++ [(l.start, erase)] := by
    rw [writes, h.header, issued]
    rfl
  refine ⟨result, ?_, fun k => ?_⟩
  · rw [shape, applyWrites_append]
    exact h.install home room distinct erase cleared
  · rw [shape]
    exact h.install_prefix home room distinct erase cleared k

theorem interrupted_erased {content : Nat → Block} (home : ∀ b ∈ l.lh.block, ¬ InLog l b)
    (size : 0 < l.size) (cuts : List Nat) (d : Disk)
    (h : Erased l old content d) : Erased l old content (interrupted l cuts d) := by
  induction cuts generalizing d with
  | nil => exact h
  | cons k rest ih => exact ih _ ((h.recover home size).2 k)

theorem interrupted_committed (home : ∀ b ∈ l.lh.block, ¬ InLog l b)
    (room : l.lh.block.length < l.size) (distinct : l.lh.block.Nodup) (cuts : List Nat) (d : Disk)
    (h : Committed l old new d ∨ Erased l old new d) :
    Committed l old new (interrupted l cuts d) ∨ Erased l old new (interrupted l cuts d) := by
  induction cuts generalizing d with
  | nil => exact h
  | cons k rest ih =>
    rcases h with committed | erased
    · exact ih _ ((committed.recover home room distinct).2.2 k)
    · exact ih _ (Or.inr ((erased.recover home (by omega)).2 k))

/-- Until the header write, commit has only written log blocks. -/
theorem crash_before_header (l : Log) (m : Store) (ready : Ready l m) (k : Nat)
    (early : k ≤ l.lh.n) :
    Erased l m.disk m.disk (crashAfter m.disk (commitWrites l m) k) := by
  obtain ⟨head, erase, _, _, writes⟩ := commitWrites_eq l m ready
  have room := ready.room
  have nonempty := ready.nonempty
  simp only [LogHeader.n] at early room nonempty
  have prefix_ : crashAfter m.disk (commitWrites l m) k =
      applyWrites m.disk ((bodyWrites l (bread m) 0 l.lh.block).take k) := by
    rw [crashAfter, writes, List.take_append_of_le_length (by simpa using early)]
  have keeps : ∀ b, b = l.start ∨ ¬ InLog l b →
      applyWrites m.disk ((bodyWrites l (bread m) 0 l.lh.block).take k) b = m.disk b := by
    intro b outside
    apply applyWrites_frame
    rintro w member rfl
    have range := bodyWrites_range l (bread m) 0 l.lh.block w (List.mem_of_mem_take member)
    rcases outside with same | away
    · omega
    · exact away ⟨by omega, by omega⟩
  rw [prefix_]
  refine ⟨?_, fun b member => keeps b (Or.inr (ready.home b member)),
    fun b _ outside => keeps b (Or.inr outside)⟩
  rw [keeps _ (Or.inl rfl)]
  exact ready.erased

/-- From the header write on, the transaction is on disk or installed. -/
theorem crash_after_header (l : Log) (m : Store) (ready : Ready l m) (k : Nat)
    (late : l.lh.n < k) :
    Committed l m.disk (bread m) (crashAfter m.disk (commitWrites l m) k) ∨
      Erased l m.disk (bread m) (crashAfter m.disk (commitWrites l m) k) := by
  obtain ⟨head, erase, entries, cleared, writes⟩ := commitWrites_eq l m ready
  have room := ready.room
  have nonempty := ready.nonempty
  simp only [LogHeader.n] at late room nonempty
  let body := applyWrites m.disk (bodyWrites l (bread m) 0 l.lh.block)
  have committed : Committed l m.disk (bread m) (diskWrite body (l.start, head)) := by
    refine ⟨by simpa using entries, ?_, ?_⟩
    · intro i b entry
      rw [diskWrite_other _ _ _ (by simp only; omega)]
      simpa using applyWrites_body l (bread m) m.disk 0 l.lh.block i b entry
    · intro b fresh outside
      rw [diskWrite_other _ _ _ (by rintro rfl; exact outside ⟨Nat.le_refl _, by omega⟩)]
      apply applyWrites_frame
      rintro w member rfl
      have range := bodyWrites_range l (bread m) 0 l.lh.block w member
      exact outside ⟨by omega, by omega⟩
  obtain ⟨j, split⟩ : ∃ j, k = l.lh.block.length + (j + 1) := ⟨k - l.lh.block.length - 1, by omega⟩
  have shape : crashAfter m.disk (commitWrites l m) k =
      crashAfter (diskWrite body (l.start, head))
        (homeWrites (bread m) l.lh.block ++ [(l.start, erase)]) j := by
    rw [crashAfter, writes, split, List.take_append, List.take_of_length_le (by simp),
      applyWrites_append, bodyWrites_length, Nat.add_sub_cancel_left, List.take_succ_cons,
      applyWrites_cons]
    rfl
  rw [shape]
  exact committed.install_prefix ready.home (by omega) ready.distinct erase cleared j

/-- Crash atomicity: whatever write of commit the machine stops after, and
however often recovery is itself cut short, a completed recovery leaves the
home blocks all new if the header had reached the disk and all old otherwise. -/
theorem commit_crash_atomic (l : Log) (m : Store) (ready : Ready l m) (k : Nat) (cuts : List Nat) :
    ∃ d, recovered l (interrupted l cuts (crashAfter m.disk (commitWrites l m) k)) = some d ∧
      (∀ b ∈ l.lh.block, d b = if l.lh.n < k then bread m b else m.disk b) ∧
      (∀ b, b ∉ l.lh.block → ¬ InLog l b → d b = m.disk b) ∧
      getLE (d l.start) 0 4 = 0 := by
  have room := ready.room
  have nonempty := ready.nonempty
  simp only [LogHeader.n] at room nonempty
  have finish : ∀ (content : Nat → Block) (d : Disk), Erased l m.disk content d →
      ∃ r, recovered l d = some r ∧ Erased l m.disk content r := by
    intro content d h
    obtain ⟨result, cut⟩ := h.recover ready.home (by omega)
    refine ⟨_, result, ?_⟩
    simpa [crashAfter] using cut (recoverWrites l d).length
  by_cases late : l.lh.n < k
  · have reached := interrupted_committed ready.home (by omega) ready.distinct cuts _
      (crash_after_header l m ready k late)
    simp only [if_pos late]
    rcases reached with committed | erased
    · obtain ⟨result, final, _⟩ := committed.recover ready.home (by omega) ready.distinct
      exact ⟨_, result, final.home, final.others, recovered_count l result⟩
    · obtain ⟨d, result, final⟩ := finish _ _ erased
      exact ⟨d, result, final.home, final.others, recovered_count l result⟩
  · simp only [if_neg late]
    obtain ⟨d, result, final⟩ := finish _ _ (interrupted_erased ready.home (by omega) cuts _
      (crash_before_header l m ready k (by omega)))
    exact ⟨d, result, final.home, final.others, recovered_count l result⟩

/-- A log as mkfs lays it out, holding a transaction of two blocks. -/
def twoBlockLog : Log := ⟨2, logSize, ⟨[60, 61], by decide, by decide⟩⟩

/-- A zeroed disk with new contents for the two blocks in the cache. -/
def twoBlockStore : Store where
  disk := fun _ _ => 0
  pinned := fun b => if b = 60 ∨ b = 61 then some (fun _ => 7) else none
  issued := []

/-- Stopped after the first home write, then in the first recovery: both blocks new. -/
theorem commit_crash_atomic_two_blocks :
    ∃ d, recovered twoBlockLog (interrupted twoBlockLog [1]
        (crashAfter twoBlockStore.disk (commitWrites twoBlockLog twoBlockStore) 4)) = some d ∧
      (∀ b ∈ [60, 61], d b = fun _ => 7) ∧ getLE (d 2) 0 4 = 0 := by
  have ready : Ready twoBlockLog twoBlockStore := by
    refine ⟨by decide, by decide, by decide, ?_, by decide⟩
    intro b member
    simp only [twoBlockLog, List.mem_cons, List.not_mem_nil, or_false] at member
    rcases member with rfl | rfl <;> simp [InLog, twoBlockLog, logSize, maxOpBlocks]
  obtain ⟨d, result, home, _, erased⟩ := commit_crash_atomic twoBlockLog twoBlockStore ready 4 [1]
  refine ⟨d, result, fun b member => ?_, erased⟩
  rw [home b member]
  simp only [List.mem_cons, List.not_mem_nil, or_false] at member
  rcases member with rfl | rfl <;> rfl

end ColorXv6.Logging.Atomicity
