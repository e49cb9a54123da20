import ColorXv6.Ipc.Pipes

/-!
A pipe is a lossless queue: what readers got, followed by what is in the ring, is
what writers stored, in order. The counters wrap around without a trace, and a
read that returns 0 has met the end of the data.
-/
namespace ColorXv6.Ipc.PipeFifo
open Lib.Ring Lib.Runs Pipes

/-- What a reader knows at the places where it holds the lock. -/
structure Note (pipe : Pipe) (pc : Pc) : Prop where
  copying : ∀ n, pc = .readCopy n 0 → pipe.empty = false ∨ pipe.writeopen = false
  done : ∀ n, pc = .readDone n 0 → 0 < n → pipe.empty = true ∧ pipe.writeopen = false

structure Fifo (s : State) : Prop where
  owner : Owner s
  ring : s.pipe.ring.Ok geometry
  order : s.delivered ++ s.pipe.ring.contents geometry = s.stored
  note : ∀ p, Note s.pipe (s.pc p)

/-- Places without the lock carry no knowledge. -/
theorem note_unlocked {pipe : Pipe} {pc : Pc} (out : pc.locked = false) : Note pipe pc where
  copying := by
    rintro n rfl
    cases out
  done := by
    rintro n rfl
    cases out

theorem note_plain {pipe : Pipe} {pc : Pc} (copy : ∀ n, pc ≠ .readCopy n 0)
    (done : ∀ n, pc ≠ .readDone n 0) : Note pipe pc where
  copying := fun n here => absurd here (copy n)
  done := fun n here => absurd here (done n)

variable {s t : State} {p : Pid}

/-- While `p` holds the lock, or nobody does, no other process has knowledge to lose. -/
theorem others_unlocked {q : Pid} (owner : Owner s) (other : q ≠ p)
    (lock : s.lock = none ∨ s.lock = some p) : (s.pc q).locked = false := by
  by_contra locked
  have holder := owner q (by simpa using locked)
  exact not_held lock other holder

/-- A piece that leaves the pipe alone. -/
theorem Fifo.quiet (fifo : Fifo s) (moves : Moves s p t) (pipe : t.pipe = s.pipe)
    (stored : t.stored = s.stored) (delivered : t.delivered = s.delivered)
    (note : Note s.pipe (t.pc p)) : Fifo t where
  owner := moves.owner fifo.owner
  ring := pipe ▸ fifo.ring
  order := by
    rw [pipe, stored, delivered]
    exact fifo.order
  note := by
    intro q
    by_cases here : q = p
    · rw [here, pipe]
      exact note
    · rw [moves.others q here, pipe]
      exact fifo.note q

/-- A piece of the holder of the lock, or of its next holder, that changes the pipe. -/
theorem Fifo.change (fifo : Fifo s) (moves : Moves s p t) (lock : s.lock = none ∨ s.lock = some p)
    (ring : t.pipe.ring.Ok geometry)
    (order : t.delivered ++ t.pipe.ring.contents geometry = t.stored)
    (note : Note t.pipe (t.pc p)) : Fifo t where
  owner := moves.owner fifo.owner
  ring := ring
  order := order
  note := by
    intro q
    by_cases here : q = p
    · rw [here]
      exact note
    · rw [moves.others q here]
      exact note_unlocked (others_unlocked fifo.owner here lock)

theorem room_of_not_full (fifo : Fifo s) (room : s.pipe.full = false) :
    s.pipe.ring.count geometry < pipeSize := by
  have bound := fifo.ring.room
  have notFull : ¬ s.pipe.ring.nwrite = (s.pipe.ring.nread + geometry.c) % geometry.m :=
    of_decide_eq_false room
  rw [full_iff fifo.ring] at notFull
  exact Nat.lt_of_le_of_ne bound notFull

theorem some_of_not_empty (fifo : Fifo s) (some : s.pipe.empty = false) :
    0 < s.pipe.ring.count geometry := by
  have notEmpty : ¬ s.pipe.ring.nread = s.pipe.ring.nwrite := by
    simpa [Pipe.empty] using some
  rw [empty_iff fifo.ring] at notEmpty
  omega

theorem fifo_piece (fifo : Fifo s) (piece : Piece s p t) : Fifo t := by
  have moves := piece.moves fifo.owner
  have mine : ∀ {pc : Pc}, s.pc p = pc → pc.locked = true → s.lock = none ∨ s.lock = some p := by
    intro pc place locked
    exact Or.inr (fifo.owner p (by rw [place, locked]))
  cases piece with
  | store b rest fresh place room =>
    have fits := room_of_not_full fifo room
    refine fifo.change moves (mine place rfl) (push_ok fifo.ring fits b) ?_ ?_
    · show s.delivered ++ (s.pipe.ring.push geometry b).contents geometry = s.stored ++ [b]
      rw [push_contents fifo.ring fits, ← fifo.order, List.append_assoc]
    · rw [goto_pc_same]
      exact note_plain (by simp) (by simp)
  | copy n i place some =>
    have elements := some_of_not_empty fifo some
    refine fifo.change moves (mine place rfl) (pop_ok fifo.ring elements) ?_ ?_
    · show (s.delivered ++ [(s.pipe.ring.pop geometry).1]) ++
        (s.pipe.ring.pop geometry).2.contents geometry = s.stored
      rw [← fifo.order, pop_contents fifo.ring elements, List.append_assoc, List.singleton_append]
    · rw [goto_pc_same]
      exact note_plain (by simp) (by simp)
  | lockClose writable place free =>
    have ring : (closeEnd { s.goto p (.closeWake writable) with lock := some p } writable).pipe.ring =
        s.pipe.ring := by
      cases writable <;> rfl
    refine fifo.change moves (Or.inl free) (ring ▸ fifo.ring) ?_ ?_
    · rw [ring]
      exact fifo.order
    · have place : (closeEnd { s.goto p (.closeWake writable) with lock := some p } writable).pc p =
          .closeWake writable := goto_pc_same s p _
      rw [place]
      exact note_plain (by simp) (by simp)
  | startCopy n place ready =>
    refine fifo.quiet moves rfl rfl rfl ?_
    rw [goto_pc_same]
    exact ⟨fun _ _ => ready, by simp⟩
  | wakeRead n i place finished calm =>
    refine fifo.quiet moves rfl rfl rfl ?_
    rw [goto_pc_same]
    refine ⟨by simp, ?_⟩
    intro m here positive
    obtain ⟨rfl, rfl⟩ := here
    have empty : s.pipe.empty = true := finished.resolve_left (by omega)
    have ready := (fifo.note p).copying _ place
    exact ⟨empty, ready.resolve_left (by simp [empty])⟩
  | lockWrite | wakeWrite | refuseWrite | wakeFull | dozeWrite | sleepWrite | relockWrite | endWrite
  | lockRead | refuseRead | dozeRead | sleepRead | relockRead | endRead | wakeClose | endClose =>
    refine fifo.quiet moves rfl rfl rfl ?_
    exact note_plain
      (by simp [State.goto, release, fallAsleep, wakeup])
      (by simp [State.goto, release, fallAsleep, wakeup])

theorem fifo_step {act : Act} (fifo : Fifo s) (step : Step s act t) : Fifo t := by
  rcases step_cases step with ⟨p, pc, -, rfl, idle, out, -, -⟩ | ⟨p, -, -, rfl⟩ | ⟨p, -, piece⟩
  · have moves : Moves s p (s.goto p pc) := moves_goto rfl rfl fun locked => by simp [out] at locked
    refine fifo.quiet moves rfl rfl rfl ?_
    rw [goto_pc_same]
    exact note_unlocked out
  · exact { fifo with }
  · exact fifo_piece fifo piece

theorem fresh_count (data : Nat → UInt8) : (fresh data).pipe.ring.count geometry = 0 := by
  simp only [Buffer.count, fresh, geometry, Nat.sub_zero, Nat.zero_add, Nat.mod_self]

theorem fifo_fresh (data : Nat → UInt8) : Fifo (fresh data) where
  owner := by
    intro p locked
    cases locked
  ring := ⟨Nat.two_pow_pos 32, Nat.two_pow_pos 32, by
    rw [fresh_count]
    exact Nat.zero_le _⟩
  order := by
    rw [contents_eq_nil.mpr (fresh_count data)]
    rfl
  note := fun _ => note_unlocked rfl

/-- In every interleaving, at most PIPESIZE bytes are between the counters, the bytes delivered
and the bytes in the ring make up the bytes stored, and a `piperead` of `n > 0` bytes that is
about to return 0 has the write end closed and all stored bytes delivered. -/
theorem pipe_lossless {data : Nat → UInt8} {acts : List Act} {s : State}
    (run : Run Step (fresh data) acts s) :
    (s.pipe.ring.nwrite + (2 ^ 32 - s.pipe.ring.nread)) % 2 ^ 32 ≤ pipeSize ∧
      s.delivered ++ s.pipe.ring.contents geometry = s.stored ∧
      ∀ p n, s.pc p = .readDone n 0 → 0 < n → s.pipe.writeopen = false ∧ s.delivered = s.stored := by
  have fifo := run.preserves Fifo (fun _ _ _ => fifo_step) (fifo_fresh data)
  refine ⟨fifo.ring.room, fifo.order, ?_⟩
  intro p n place positive
  obtain ⟨empty, closed⟩ := (fifo.note p).done n place positive
  have nothing : s.pipe.ring.contents geometry = [] := by
    rw [contents_eq_nil, ← empty_iff fifo.ring]
    simpa [Pipe.empty] using empty
  have order := fifo.order
  rw [nothing, List.append_nil] at order
  exact ⟨closed, order⟩

/-- One byte is written, the write end is closed, and the second of two reads finds the end. -/
def endOfData : List Act :=
  [.write 0 [7], .run 0, .run 0, .run 0, .run 0, .close 0 true, .run 0, .run 0, .run 0,
    .read 1 5, .run 1, .run 1, .run 1, .run 1, .run 1, .read 1 5, .run 1, .run 1, .run 1]

theorem pipe_lossless_end_of_data :
    ∃ s, Run Step (fresh fun _ => 0) endOfData s ∧ s.pc 1 = .readDone 5 0 ∧
      s.pipe.writeopen = false ∧ s.delivered = s.stored := by
  obtain ⟨s, run, place⟩ := execute_exists next (fresh fun _ => 0) endOfData
    (fun s => s.pc 1 = .readDone 5 0) (by decide +kernel)
  have reached : s.pc 1 = .readDone 5 0 := by simpa using place
  exact ⟨s, run, reached, (pipe_lossless run).2.2 1 5 reached (by decide)⟩

end ColorXv6.Ipc.PipeFifo
