import ColorXv6.Fs.FileWrites
import Mathlib.Algebra.BigOperators.Group.Finset.Piecewise
import Mathlib.Algebra.Order.BigOperators.Group.Finset
import Mathlib.Data.List.GetD

/-!
Processes that write through one struct file. Calls of `filewrite` take turns at the inode
lock, one chunk at a time, among anything else that does not write the inode.
-/
namespace ColorXv6.Fs.SharedOffset
open Function Lib.LittleEndian Lib.Wp Lib.Runs Param Layout Inode SysFile
open Growth Writes Store CacheOps FileWrites

/-- A call of `filewrite`: in its loop, with so many bytes written, or back. -/
inductive Call where
  | looping (done : Nat)
  | returned (r : Int)

structure State (κ : Type) where
  fs : Fs
  call : κ → Call
  /-- What the calls have written, chunk by chunk. -/
  written : List (κ × List UInt8)

inductive Turn (κ : Type) where
  | round (c : κ)
  | other

/-- What another process does while nobody has the inode locked: it neither writes the
inode nor moves the offset, and the file keeps its reference. -/
structure Quiet (s t : Fs) (i inum : Nat) : Prop where
  good : Consistent t
  node : node t inum = node s inum
  file : t.file i = s.file i
  ref : 0 < (t.inode (s.file i).ip).ref
  unlocked : (t.inode (s.file i).ip).locked = false
  number : (t.inode (s.file i).ip).inum = inum

section Machine
variable {κ : Type} [DecidableEq κ] (i inum : Nat) (calls : κ → List UInt8)

/-- The bytes of a call's next chunk, and their number. -/
def chunk (c : κ) (done : Nat) : List UInt8 := ((calls c).drop done).take maxChunk

def chunkSize (c : κ) (done : Nat) : Nat := min ((calls c).length - done) maxChunk

/-- What the call has still to write, as `writei` reads it. -/
def source (c : κ) (done : Nat) : Bytes := fun k => (calls c).getD (done + k) 0

/-- One round of the loop of `filewrite`, or its end. A short write is a panic, not a step. -/
inductive Round (s : State κ) (c : κ) (t : State κ) : Prop where
  | chunk {done : Nat} {fs : Fs} (looping : s.call c = .looping done)
      (more : done < (calls c).length)
      (wrote : writeAt i (source calls c done) (chunkSize calls c done) s.fs =
        .ok ((chunkSize calls c done : Int), fs))
      (after : t = State.mk fs (update s.call c (.looping (done + chunkSize calls c done)))
        (s.written ++ [(c, chunk calls c done)]))
  | failed {done : Nat} {r : Int} {fs : Fs} (looping : s.call c = .looping done)
      (more : done < (calls c).length)
      (wrote : writeAt i (source calls c done) (chunkSize calls c done) s.fs = .ok (r, fs))
      (negative : r < 0) (after : t = State.mk fs (update s.call c (.returned (-1))) s.written)
  | finished {done : Nat} (looping : s.call c = .looping done) (all : ¬ done < (calls c).length)
      (after : t = State.mk s.fs (update s.call c (.returned (calls c).length)) s.written)

def Step (s : State κ) : Turn κ → State κ → Prop
  | .round c, t => Round i calls s c t
  | .other, t => Quiet s.fs t.fs i inum ∧ t.call = s.call ∧ t.written = s.written

/-- All that has been written, in order. -/
def State.stream (s : State κ) : List UInt8 := s.written.flatMap Prod.snd

/-- What one call has written. -/
def State.part (s : State κ) (c : κ) : List UInt8 := (s.written.filter (·.1 = c)).flatMap Prod.snd

end Machine

section Streams
variable {κ : Type} [DecidableEq κ] {s t : State κ}

omit [DecidableEq κ] in
theorem stream_append {c : κ} {bytes : List UInt8} (written : t.written = s.written ++ [(c, bytes)]) :
    t.stream = s.stream ++ bytes := by
  unfold State.stream
  rw [written, List.flatMap_append, List.flatMap_singleton]

theorem part_append {c : κ} {bytes : List UInt8} (written : t.written = s.written ++ [(c, bytes)])
    (d : κ) : t.part d = if d = c then s.part d ++ bytes else s.part d := by
  unfold State.part
  rw [written, List.filter_append, List.flatMap_append]
  by_cases here : d = c
  · rw [if_pos here, here, List.filter_cons_of_pos (by simp), List.filter_nil, List.flatMap_singleton]
  · rw [if_neg here, List.filter_cons_of_neg (by simpa using Ne.symm here), List.filter_nil,
      List.flatMap_nil, List.append_nil]

/-- The stream is made of the parts. -/
theorem length_stream [Fintype κ] (s : State κ) :
    s.stream.length = ∑ c, (s.part c).length := by
  obtain ⟨fs, call, written⟩ := s
  unfold State.stream State.part
  induction written with
  | nil => simp
  | cons first rest ih =>
    obtain ⟨c, bytes⟩ := first
    rw [List.flatMap_cons, List.length_append, ih]
    have split : ∀ d, (((c, bytes) :: rest).filter (·.1 = d)).flatMap Prod.snd =
        (if d = c then bytes else []) ++ (rest.filter (·.1 = d)).flatMap Prod.snd := by
      intro d
      by_cases here : c = d
      · rw [List.filter_cons_of_pos (by simpa using here), List.flatMap_cons, if_pos here.symm]
      · rw [List.filter_cons_of_neg (by simpa using here), if_neg (Ne.symm here), List.nil_append]
    simp only [split, List.length_append, Finset.sum_add_distrib, apply_ite List.length, List.length_nil,
      Finset.sum_ite_eq', Finset.mem_univ, if_true]

end Streams

/-- Where a call stands, against what it has written. -/
def Call.Wrote (data part : List UInt8) : Call → Prop
  | .looping done => done ≤ data.length ∧ part = data.take done
  | .returned r => r = data.length ∧ part = data

section Invariant
variable {κ : Type} [DecidableEq κ] {i inum : Nat} {calls : κ → List UInt8}

/-- Before the calls of `s` begin. -/
structure Start (i inum : Nat) (calls : κ → List UInt8) (s : State κ) : Prop where
  good : Consistent s.fs
  regular : Regular s.fs i inum
  call : ∀ c, s.call c = .looping 0
  written : s.written = []

/-- The file holds the stream from the first offset on, and the offset is at its end. -/
structure Inv (calls : κ → List UInt8) (i inum : Nat) (s t : State κ) : Prop where
  good : Consistent t.fs
  regular : Regular t.fs i inum
  off : (t.fs.file i).off = (s.fs.file i).off + t.stream.length
  bytes : (node t.fs inum).bytes =
    patch (node s.fs inum).bytes (s.fs.file i).off t.stream.length fun k => t.stream.getD k 0
  calls : ∀ c, (t.call c).Wrote (calls c) (t.part c)
  chunks : ∀ x ∈ t.written, x.2.length ≤ maxChunk

theorem inv_start {s : State κ} (start : Start i inum calls s) : Inv calls i inum s s := by
  have stream : s.stream = [] := by
    unfold State.stream
    rw [start.written, List.flatMap_nil]
  refine ⟨start.good, start.regular, ?_, ?_, ?_, ?_⟩
  · rw [stream]
    rfl
  · rw [stream, List.length_nil, patch_zero]
  · intro c
    rw [start.call]
    refine ⟨Nat.zero_le _, ?_⟩
    unfold State.part
    rw [start.written]
    rfl
  · rw [start.written]
    exact fun x none => absurd none List.not_mem_nil

omit [DecidableEq κ] in
theorem chunk_length (c : κ) (done : Nat) : (chunk calls c done).length = chunkSize calls c done := by
  unfold chunk chunkSize
  rw [List.length_take, List.length_drop, Nat.min_comm]

/-- The next chunk fits, as all the calls together do. -/
theorem Inv.fits [Fintype κ] {s t : State κ} (inv : Inv calls i inum s t)
    (limit : (s.fs.file i).off + ∑ c, (calls c).length ≤ maxFile * bsize) {c : κ} {done : Nat}
    (looping : t.call c = .looping done) :
    (t.fs.file i).off + chunkSize calls c done ≤ maxFile * bsize := by
  have parts : ∀ d, (t.part d).length + (if d = c then chunkSize calls c done else 0) ≤
      (calls d).length := by
    intro d
    have wrote := inv.calls d
    by_cases here : d = c
    · rw [here, looping] at wrote
      rw [if_pos here, here, wrote.2, List.length_take]
      unfold chunkSize
      omega
    · rw [if_neg here]
      cases place : t.call d with
      | looping n =>
        rw [place] at wrote
        rw [wrote.2, List.length_take]
        omega
      | returned r =>
        rw [place] at wrote
        rw [wrote.2]
        omega
  have sum := Finset.sum_le_sum fun d (_ : d ∈ Finset.univ) => parts d
  rw [Finset.sum_add_distrib, ← length_stream, Finset.sum_ite_eq', if_pos (Finset.mem_univ c)] at sum
  rw [inv.off]
  omega

/-- Locked, a call writes its whole chunk, unless there are too few blocks left for it. -/
theorem Inv.wp_chunk [Fintype κ] {s t : State κ} (inv : Inv calls i inum s t)
    (limit : (s.fs.file i).off + ∑ c, (calls c).length ≤ maxFile * bsize) {c : κ} {done : Nat}
    (looping : t.call c = .looping done) :
    wp (writeAt i (source calls c done) (chunkSize calls c done)) (fun r fs => r = chunkSize calls c done ∧
      Advanced t.fs fs i inum (chunkSize calls c done) (source calls c done))
      (fun e => spare (cover (t.fs.file i).off (chunkSize calls c done)) t.fs inum < 0 ∧
        e = .ballocOutOfBlocks) t.fs := by
  apply wp_mono (wp_writeAt (source calls c done) inv.good inv.regular (inv.fits limit looping)
    (covers_cover _ _) fun short => ⟨short, rfl⟩)
  rintro r fs ⟨whole, advanced, -⟩
  exact ⟨whole, advanced⟩

/-- The chunk is added to the stream. -/
theorem Inv.chunk {s t u : State κ} (inv : Inv calls i inum s t) {c : κ} {done : Nat}
    (looping : t.call c = .looping done) (advanced : Advanced t.fs u.fs i inum (chunkSize calls c done)
      (source calls c done))
    (call : u.call = update t.call c (.looping (done + chunkSize calls c done)))
    (written : u.written = t.written ++ [(c, chunk calls c done)]) : Inv calls i inum s u := by
  have stream := stream_append written
  have length : u.stream.length = t.stream.length + chunkSize calls c done := by
    rw [stream, List.length_append, chunk_length]
  have mine := inv.calls c
  rw [looping] at mine
  constructor
  case good => exact advanced.good
  case regular => exact advanced.regular
  case off =>
    rw [advanced.file, update_self, length, ← Nat.add_assoc, ← inv.off]
  case bytes =>
    rw [advanced.node, update_self, length, ← patch_append]
    unfold Node.write
    have before : patch (node s.fs inum).bytes (s.fs.file i).off t.stream.length
        (fun k => t.stream.getD k 0) =
      patch (node s.fs inum).bytes (s.fs.file i).off t.stream.length fun k => u.stream.getD k 0 := by
      apply patch_congr
      intro k below
      rw [stream, List.getD_append _ _ _ _ below]
    rw [inv.bytes, inv.off, before]
    apply patch_congr
    intro k below
    rw [stream, List.getD_append_right _ _ _ _ (Nat.le_add_right _ _), Nat.add_sub_cancel_left]
    unfold SharedOffset.chunk source
    unfold chunkSize at below
    rw [List.getD_eq_getElem?_getD, List.getD_eq_getElem?_getD, List.getElem?_take_of_lt (by omega),
      List.getElem?_drop]
  case calls =>
    intro d
    rw [part_append written, call]
    by_cases here : d = c
    · rw [if_pos here, here, update_self, mine.2]
      refine ⟨by have := mine.1; unfold chunkSize; omega, ?_⟩
      unfold SharedOffset.chunk chunkSize
      rw [List.take_add]
      congr 1
      rw [← List.length_drop, List.take_eq_take_min, Nat.min_comm]
    · rw [if_neg here, update_of_ne here]
      exact inv.calls d
  case chunks =>
    intro x mem
    rw [written, List.mem_append, List.mem_singleton] at mem
    rcases mem with before | rfl
    · exact inv.chunks x before
    · rw [chunk_length]
      exact Nat.min_le_right _ _

theorem inv_step [Fintype κ] {s t u : State κ} {turn : Turn κ} (inv : Inv calls i inum s t)
    (limit : (s.fs.file i).off + ∑ c, (calls c).length ≤ maxFile * bsize)
    (step : Step i inum calls t turn u) : Inv calls i inum s u := by
  cases turn with
  | round c =>
    cases step with
    | chunk looping more wrote after =>
      subst after
      exact inv.chunk looping (wp_ok (inv.wp_chunk limit looping) wrote).2 rfl rfl
    | failed looping more wrote negative after =>
      have whole := (wp_ok (inv.wp_chunk limit looping) wrote).1
      omega
    | finished looping all after =>
      subst after
      refine { inv with calls := fun d => ?_ }
      dsimp only
      by_cases here : d = c
      · have mine := inv.calls c
        rw [looping] at mine
        rw [here, update_self]
        refine ⟨rfl, ?_⟩
        exact mine.2.trans (List.take_of_length_le (Nat.le_of_not_lt all))
      · rw [update_of_ne here]
        exact inv.calls d
  | other =>
    obtain ⟨quiet, call, written⟩ := step
    have stream : u.stream = t.stream := by
      unfold State.stream
      rw [written]
    have part : ∀ d, u.part d = t.part d := by
      intro d
      unfold State.part
      rw [written]
    obtain ⟨-, -, -, type, start⟩ := inv.regular
    refine ⟨quiet.good, ⟨?_, ?_, ?_, ?_, ?_⟩, ?_, ?_, fun d => ?_, written ▸ inv.chunks⟩
    · rw [quiet.file]
      exact quiet.ref
    · rw [quiet.file]
      exact quiet.unlocked
    · rw [quiet.file]
      exact quiet.number
    · rw [quiet.node]
      exact type
    · rw [quiet.file, quiet.node]
      exact start
    · rw [quiet.file, stream]
      exact inv.off
    · rw [quiet.node, stream]
      exact inv.bytes
    · rw [call, part]
      exact inv.calls d

/-- Calls that share an offset: each that returns has written all its bytes, only a lack of free
blocks stops one, and when they are back the file holds their chunks one after the other from the
first offset on, each call's in order. -/
theorem shared_offset_loses_nothing [Fintype κ] {s t : State κ} {turns : List (Turn κ)}
    (start : Start i inum calls s)
    (limit : (s.fs.file i).off + ∑ c, (calls c).length ≤ maxFile * bsize)
    (run : Run (Step i inum calls) s turns t) :
    (∀ c r, t.call c = .returned r → r = (calls c).length) ∧
    (∀ c done, t.call c = .looping done →
      (∃ fs, writeAt i (source calls c done) (chunkSize calls c done) t.fs =
        .ok ((chunkSize calls c done : Int), fs)) ∨
      spare (cover (t.fs.file i).off (chunkSize calls c done)) t.fs inum < 0 ∧
        writeAt i (source calls c done) (chunkSize calls c done) t.fs = .error .ballocOutOfBlocks) ∧
    ((∀ c, ∃ r, t.call c = .returned r) →
      (t.fs.file i).off = (s.fs.file i).off + ∑ c, (calls c).length ∧
      t.stream.length = ∑ c, (calls c).length ∧
      (∀ k < t.stream.length,
        (node t.fs inum).bytes ((s.fs.file i).off + k) = t.stream.getD k 0) ∧
      (∀ x ∈ t.written, x.2.length ≤ 1536) ∧ ∀ c, t.part c = calls c) := by
  have inv : Inv calls i inum s t :=
    run.preserves (Inv calls i inum s) (fun _ _ _ inv step => inv_step inv limit step) (inv_start start)
  refine ⟨fun c r back => ?_, fun c done looping => ?_, fun all => ?_⟩
  · have wrote := inv.calls c
    rw [back] at wrote
    exact wrote.1
  · have spec := inv.wp_chunk limit looping
    cases result : writeAt i (source calls c done) (chunkSize calls c done) t.fs with
    | ok pair =>
      obtain ⟨whole, -⟩ := wp_ok spec result
      exact .inl ⟨pair.2, by rw [← whole]⟩
    | error e =>
      obtain ⟨short, rfl⟩ := wp_stopped spec result
      exact .inr ⟨short, rfl⟩
  · have parts : ∀ c, t.part c = calls c := by
      intro c
      obtain ⟨r, back⟩ := all c
      have wrote := inv.calls c
      rw [back] at wrote
      exact wrote.2
    have length : t.stream.length = ∑ c, (calls c).length := by
      rw [length_stream]
      simp only [parts]
    refine ⟨?_, length, fun k below => ?_, inv.chunks, parts⟩
    · rw [inv.off, length]
    · rw [inv.bytes]
      unfold patch
      rw [if_pos (by omega), Nat.add_sub_cancel_left]

end Invariant

/-! Two calls on the file of the tiny file system. -/

def tinyCalls : Bool → List UInt8
  | false => [1, 2, 3]
  | true => [9]

theorem shared_offset_loses_nothing_two : ∃ t : State Bool,
    (t.fs.file 0).off = 4 ∧ (node t.fs 1).bytes 3 = 9 := by
  have regular : Regular tiny 0 1 := ⟨by decide, by decide, by decide, by decide, by decide⟩
  have enough : ¬ spare (cover 0 4) tiny 1 < 0 := by decide
  obtain ⟨r, first, wrote, rfl, advanced, same⟩ := wp_returns (wp_writeAt (source tinyCalls false 0)
    (n := 3) tiny_consistent regular (by decide) (fun k lo (hi : k < 3) => covers_cover 0 4 k lo (by omega))
    enough)
  have off : (first.file 0).off = 3 := by
    rw [advanced.file]
    rfl
  obtain ⟨r, second, wrote', rfl, -, -⟩ := wp_returns (wp_writeAt (source tinyCalls true 0) (n := 1)
    advanced.good advanced.regular (by rw [off]; decide)
    (fun k lo hi => covers_cover 0 4 k (Nat.zero_le k) (by omega)) (same ▸ enough))
  have start : Start 0 1 tinyCalls (State.mk tiny (fun _ => .looping 0) []) :=
    ⟨tiny_consistent, regular, fun _ => rfl, rfl⟩
  have limit : (tiny.file 0).off + ∑ c, (tinyCalls c).length ≤ maxFile * bsize := by decide
  have run : Run (Step 0 1 tinyCalls) (State.mk tiny (fun _ => .looping 0) [])
      [.round false, .round true, .round false, .round true] _ :=
    .cons (Round.chunk rfl (by decide) wrote rfl) (.cons (Round.chunk rfl (by decide) wrote' rfl)
      (.cons (Round.finished rfl (by decide) rfl) (.cons (Round.finished rfl (by decide) rfl) (.nil _))))
  obtain ⟨-, -, back⟩ := shared_offset_loses_nothing start limit run
  obtain ⟨off, length, bytes, -, -⟩ := back fun c => by cases c <;> exact ⟨_, rfl⟩
  exact ⟨_, off, bytes 3 (by rw [length]; decide)⟩

/-- A disk without a free block: the first call to write stops the kernel. -/
theorem full_disk_stops_write :
    Start 0 1 (fun _ : Unit => [7]) (State.mk (sized 4) (fun _ => .looping 0) []) ∧
    ((sized 4).file 0).off + 1 ≤ maxFile * bsize ∧
    writeAt 0 (source (fun _ : Unit => [7]) () 0) 1 (sized 4) = .error .ballocOutOfBlocks := by
  have regular : Regular (sized 4) 0 1 := ⟨by decide, by decide, by decide, by decide, by decide⟩
  exact ⟨⟨sized_consistent (.inl rfl), regular, fun _ => rfl, rfl⟩, by decide, rfl⟩

end ColorXv6.Fs.SharedOffset
