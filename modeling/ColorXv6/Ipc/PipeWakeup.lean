import ColorXv6.Ipc.Pipes

/-!
Sleeping readers and writers of a pipe. A process that is asleep, or has given up
`p->lock` to fall asleep, waits for something that has not happened yet, or the
holder of the lock is about to wake it. The error return of `pipewrite` is the one
way out of the lock that can leave a wakeup owed.
-/
namespace ColorXv6.Ipc.PipeWakeup
open Lib.Ring Lib.Runs Pipes

/-- What a process inside `sleep` is about to sleep on. -/
def dozing : Pc → Option Chan
  | .writeDoze _ => some .nwrite
  | .readDoze _ => some .nread
  | _ => none

/-- The wakeup that the holder of the lock still has to make. -/
def owes : Pc → Option Chan
  | .writeLoop _ true => some .nread
  | .readCopy _ (_ + 1) => some .nwrite
  | .closeWake true => some .nread
  | .closeWake false => some .nwrite
  | _ => none

/-- The state of the pipe in which it is right to sleep on a channel. -/
def blocks (pipe : Pipe) : Chan → Bool
  | .nread => pipe.empty && pipe.writeopen
  | .nwrite => pipe.full && pipe.readopen

/-- Asleep on the channel, or past the point where it can be kept from it. -/
def Waiting (s : State) (q : Pid) (c : Chan) : Prop := s.chan q = some c ∨ dozing (s.pc q) = some c

structure Awake (s : State) : Prop where
  owner : Owner s
  dozer : ∀ q c, dozing (s.pc q) = some c → s.ptable = some q
  full : ∀ q rest, s.pc q = .writeFull rest → blocks s.pipe .nwrite = true
  waits : ∀ q c, Waiting s q c →
    blocks s.pipe c = true ∨ ∃ h, s.lock = some h ∧ owes (s.pc h) = some c

variable {s t : State} {p : Pid}

variable {c : Chan}

/-- Who owes the wakeup, as seen from process `p`. -/
theorem Awake.debtor (awake : Awake s) (p : Pid) {q : Pid} (waiting : Waiting s q c) :
    blocks s.pipe c = true ∨ (s.lock = some p ∧ owes (s.pc p) = some c) ∨
      ∃ h, h ≠ p ∧ s.lock = some h ∧ owes (s.pc h) = some c := by
  rcases awake.waits q c waiting with right | ⟨h, holder, debt⟩
  · exact Or.inl right
  · by_cases here : h = p
    · subst here
      exact Or.inr (Or.inl ⟨holder, debt⟩)
    · exact Or.inr (Or.inr ⟨h, here, holder, debt⟩)

/-- While `p` holds the lock, or nobody does, only `p` can owe. -/
theorem Awake.settled (awake : Awake s) (lock : s.lock = none ∨ s.lock = some p) {q : Pid}
    (waiting : Waiting s q c) (clear : owes (s.pc p) ≠ some c) :
    blocks s.pipe c = true := by
  rcases awake.debtor p waiting with right | ⟨_, debt⟩ | ⟨h, other, holder, _⟩
  · exact right
  · exact absurd debt clear
  · exact absurd holder (not_held lock other)

/-- A piece of `p`: nothing is asked about the other processes but that they keep waiting for
the right reason. -/
theorem Awake.update (awake : Awake s) (moves : Moves s p t)
    (dozer : ∀ q c, dozing (t.pc q) = some c → t.ptable = some q)
    (full : ∀ rest, t.pc p = .writeFull rest → blocks t.pipe .nwrite = true)
    (pipe : t.pipe = s.pipe ∨ s.lock = none ∨ s.lock = some p)
    (waits : ∀ q c, Waiting t q c →
      blocks t.pipe c = true ∨ (t.lock = some p ∧ owes (t.pc p) = some c) ∨
        ∃ h, h ≠ p ∧ s.lock = some h ∧ owes (s.pc h) = some c) : Awake t where
  owner := moves.owner awake.owner
  dozer := dozer
  full := by
    intro q rest place
    by_cases here : q = p
    · subst here
      exact full rest place
    · rw [moves.others q here] at place
      have holder := awake.owner q (by rw [place]; rfl)
      rcases pipe with same | mine
      · rw [same]
        exact awake.full q rest place
      · exact absurd holder (not_held mine here)
  waits := by
    intro q c waiting
    rcases waits q c waiting with right | ⟨holder, debt⟩ | ⟨h, other, holder, debt⟩
    · exact Or.inl right
    · exact Or.inr ⟨p, holder, debt⟩
    · refine Or.inr ⟨h, ?_, by rw [moves.others h other]; exact debt⟩
      rcases moves.lock with same | mine
      · exact same.trans holder
      · exact absurd holder (not_held mine other)

/-- A piece that does not sleep leaves the dozing process as it is. -/
theorem dozer_same (awake : Awake s) (moves : Moves s p t) (out : dozing (t.pc p) = none)
    (table : t.ptable = s.ptable) : ∀ q c, dozing (t.pc q) = some c → t.ptable = some q := by
  intro q c dozes
  by_cases here : q = p
  · rw [here, out] at dozes
    cases dozes
  · rw [moves.others q here] at dozes
    rw [table]
    exact awake.dozer q c dozes

/-- A process that waits after such a piece waited before it. -/
theorem waiting_before (moves : Moves s p t) (out : dozing (t.pc p) = none) (chan : t.chan = s.chan)
    {q : Pid} (waiting : Waiting t q c) : Waiting s q c := by
  rcases waiting with asleep | dozes
  · exact Or.inl (by rw [← chan]; exact asleep)
  · by_cases here : q = p
    · rw [here, out] at dozes
      cases dozes
    · exact Or.inr (by rw [← moves.others q here]; exact dozes)

section Steps
variable (awake : Awake s)
include awake

section Moves
variable (moves : Moves s p t)
include moves

/-- A piece that leaves the pipe and the sleepers alone, by a process that owes nothing. -/
theorem Awake.quiet (pipe : t.pipe = s.pipe) (chan : t.chan = s.chan) (table : t.ptable = s.ptable)
    (out : dozing (t.pc p) = none) (full : ∀ rest, t.pc p ≠ .writeFull rest)
    (clear : owes (s.pc p) = none) : Awake t := by
  apply awake.update moves (dozer_same awake moves out table)
    (fun rest place => absurd place (full rest)) (Or.inl pipe)
  intro q c waiting
  rcases awake.debtor p (waiting_before moves out chan waiting) with right | ⟨_, debt⟩ | other
  · exact Or.inl (pipe ▸ right)
  · rw [clear] at debt
    cases debt
  · exact Or.inr (Or.inr other)

/-- A wakeup on `c` by a process that owes at most this one. -/
theorem Awake.wake (holder : s.lock = some p) (calm : s.ptable = none) (pipe : t.pipe = s.pipe)
    (chan : t.chan = (wakeup c s).chan) (table : t.ptable = s.ptable) (out : dozing (t.pc p) = none)
    (full : ∀ rest, t.pc p = .writeFull rest → blocks s.pipe .nwrite = true)
    (debt : ∀ c', owes (s.pc p) = some c' → c' = c) : Awake t := by
  apply awake.update moves (dozer_same awake moves out table)
    (fun rest place => pipe ▸ full rest place) (Or.inl pipe)
  intro q c' waiting
  rcases waiting with asleep | dozes
  · rw [chan] at asleep
    simp only [wakeup] at asleep
    split at asleep
    · cases asleep
    · rename_i other
      have different : c' ≠ c := by
        rintro rfl
        exact other asleep
      rw [pipe]
      exact Or.inl (awake.settled (Or.inr holder) (Or.inl asleep) fun owed => different (debt c' owed))
  · have nobody := dozer_same awake moves out table q c' dozes
    rw [table, calm] at nobody
    cases nobody

/-- `p` gives up the lock to sleep on `c`, for the right reason. -/
theorem Awake.doze (holder : s.lock = some p) (calm : s.ptable = none) (pipe : t.pipe = s.pipe)
    (chan : t.chan = s.chan) (table : t.ptable = some p) (dozes : dozing (t.pc p) = some c)
    (clear : owes (s.pc p) = none) (right : blocks s.pipe c = true) : Awake t := by
  have nobody : ∀ q c', dozing (s.pc q) ≠ some c' := by
    intro q c' other
    have table := awake.dozer q c' other
    rw [calm] at table
    cases table
  have before : ∀ q c', Waiting t q c' → Waiting s q c' ∨ (q = p ∧ c' = c) := by
    rintro q c' (asleep | drowsy)
    · exact Or.inl (Or.inl (by rw [← chan]; exact asleep))
    · by_cases here : q = p
      · rw [here, dozes] at drowsy
        exact Or.inr ⟨here, (Option.some.inj drowsy).symm⟩
      · rw [moves.others q here] at drowsy
        exact absurd drowsy (nobody q c')
  refine awake.update moves ?_ ?_ (Or.inl pipe) ?_
  · intro q c' drowsy
    by_cases here : q = p
    · rw [here, table]
    · rw [moves.others q here] at drowsy
      exact absurd drowsy (nobody q c')
  · intro rest place
    rw [place] at dozes
    cases dozes
  · intro q c' waiting
    rw [pipe]
    rcases before q c' waiting with old | ⟨rfl, rfl⟩
    · exact Or.inl (awake.settled (Or.inr holder) old (by simp [clear]))
    · exact Or.inl right

/-- `p` falls asleep: it was waiting already. -/
theorem Awake.sleep (pipe : t.pipe = s.pipe) (dozes : dozing (s.pc p) = some c)
    (chan : t.chan = Function.update s.chan p (some c)) (out : dozing (t.pc p) = none)
    (full : ∀ rest, t.pc p ≠ .writeFull rest) (clear : owes (s.pc p) = none) : Awake t := by
  have before : ∀ q c', Waiting t q c' → Waiting s q c' := by
    rintro q c' (asleep | drowsy)
    · by_cases here : q = p
      · rw [chan, here, Function.update_self] at asleep
        rw [here]
        exact Or.inr (dozes.trans asleep)
      · rw [chan, Function.update_of_ne here] at asleep
        exact Or.inl asleep
    · by_cases here : q = p
      · rw [here, out] at drowsy
        cases drowsy
      · exact Or.inr (by rw [← moves.others q here]; exact drowsy)
  refine awake.update moves ?_ (fun rest place => absurd place (full rest)) (Or.inl pipe) ?_
  · intro q c' drowsy
    by_cases here : q = p
    · rw [here, out] at drowsy
      cases drowsy
    · rw [moves.others q here] at drowsy
      have first := awake.dozer p c dozes
      rw [awake.dozer q c' drowsy] at first
      exact absurd (Option.some.inj first) here
  · intro q c' waiting
    rcases awake.debtor p (before q c' waiting) with right | ⟨_, debt⟩ | other
    · exact Or.inl (pipe ▸ right)
    · rw [clear] at debt
      cases debt
    · exact Or.inr (Or.inr other)

/-- `p` changes the pipe. Whoever waits for the change is owed a wakeup, the others still wait
for the right reason. -/
theorem Awake.change (lock : s.lock = none ∨ s.lock = some p) (held : t.lock = some p) (chan : t.chan = s.chan)
    (table : t.ptable = s.ptable) (out : dozing (t.pc p) = none)
    (full : ∀ rest, t.pc p ≠ .writeFull rest)
    (reason : ∀ c, owes (s.pc p) = some c ∨ blocks s.pipe c = true →
      owes (t.pc p) = some c ∨ blocks t.pipe c = true) : Awake t := by
  apply awake.update moves (dozer_same awake moves out table)
    (fun rest place => absurd place (full rest)) (Or.inr lock)
  intro q c waiting
  have old := waiting_before moves out chan waiting
  have now : owes (t.pc p) = some c ∨ blocks t.pipe c = true := by
    apply reason c
    by_cases debt : owes (s.pc p) = some c
    · exact Or.inl debt
    · exact Or.inr (awake.settled lock old debt)
  rcases now with debt | right
  · exact Or.inr (Or.inl ⟨held, debt⟩)
  · exact Or.inl right

end Moves

/-- The error return of `pipewrite` after bytes were stored that a waiting reader was not told
about. -/
def Strands (s : State) (act : Act) : Prop :=
  ∃ p b rest, act = .run p ∧ s.pc p = .writeLoop (b :: rest) true ∧ s.pipe.full = true ∧
    (s.pipe.readopen = false ∨ s.killed p = true) ∧ ∃ q, Waiting s q .nread

theorem awake_piece (piece : Piece s p t) (told : ¬ Strands s (.run p)) :
    Awake t := by
  have moves := piece.moves awake.owner
  have holds : ∀ {pc : Pc}, s.pc p = pc → pc.locked = true → s.lock = some p := by
    intro pc place locked
    exact awake.owner p (by rw [place, locked])
  cases piece with
  | lockWrite _ place | relockWrite _ place | endWrite place | lockRead _ place
  | refuseRead _ place | startCopy _ place | relockRead _ place | endRead _ _ place
  | endClose _ _ place =>
    apply awake.quiet moves rfl rfl rfl <;> simp [State.goto, release, dozing, owes, place]
  | refuseWrite b rest fresh place full reason =>
    cases fresh with
    | false => apply awake.quiet moves rfl rfl rfl <;> simp [State.goto, release, dozing, owes, place]
    | true =>
      -- no reader waits, so the wakeup that is owed has no addressee
      refine awake.update moves (dozer_same awake moves ?_ rfl) ?_ (Or.inl rfl) ?_
      · simp [State.goto, release, dozing]
      · simp [State.goto, release]
      · intro q c waiting
        have old := waiting_before moves (by simp [State.goto, release, dozing]) rfl waiting
        cases c with
        | nread => exact absurd ⟨p, b, rest, rfl, place, full, reason, q, old⟩ told
        | nwrite => exact Or.inl (awake.settled (Or.inr (holds place rfl)) old (by simp [place, owes]))
  | wakeWrite fresh place calm =>
    apply awake.wake moves (holds place rfl) calm rfl rfl rfl
    · simp [dozing]
    · simp
    · cases fresh <;> simp [place, owes]
  | wakeFull b rest fresh place full open_ calm =>
    apply awake.wake moves (holds place rfl) calm rfl rfl rfl
    · simp [dozing]
    · simp [blocks, full, open_]
    · cases fresh <;> simp [place, owes]
  | wakeRead n i place finished calm =>
    apply awake.wake moves (holds place rfl) calm rfl rfl rfl
    · simp [dozing]
    · simp
    · cases i <;> simp [place, owes]
  | wakeClose writable place calm =>
    apply awake.wake moves (holds place rfl) calm rfl rfl rfl
    · simp [dozing]
    · simp
    · cases writable <;> simp [place, owes]
  | dozeWrite rest place calm =>
    apply awake.doze (c := .nwrite) moves (holds place rfl) calm rfl rfl rfl
    · simp [State.goto, dozing]
    · simp [place, owes]
    · exact awake.full p rest place
  | dozeRead n place empty open_ calm =>
    apply awake.doze (c := .nread) moves (holds place rfl) calm rfl rfl rfl
    · simp [State.goto, dozing]
    · simp [place, owes]
    · simp [blocks, empty, open_]
  | sleepWrite rest place | sleepRead rest place =>
    apply awake.sleep moves rfl (by rw [place]; rfl) rfl <;>
      simp [fallAsleep, State.goto, dozing, owes, place]
  | store b rest fresh place room =>
    apply awake.change moves (Or.inr (holds place rfl)) (holds place rfl) rfl rfl
    · simp [dozing]
    · simp
    · intro c
      cases c <;> cases fresh <;> simp [place, owes, blocks, room]
  | copy n i place some =>
    apply awake.change moves (Or.inr (holds place rfl)) (holds place rfl) rfl rfl
    · simp [dozing]
    · simp
    · intro c
      cases c <;> cases i <;> simp [place, owes, blocks, some]
  | lockClose writable place free =>
    apply awake.change moves (Or.inl free) rfl rfl rfl
    · simp [closeEnd, State.goto, dozing]
    · simp [closeEnd, State.goto]
    · intro c
      cases c <;> cases writable <;>
        simp [closeEnd, State.goto, place, owes, blocks, Pipe.empty, Pipe.full]

theorem awake_start {pc : Pc} (idle : s.pc p = .idle) (out : pc.locked = false)
    (write : ∀ rest, pc ≠ .writeDoze rest) (read : ∀ n, pc ≠ .readDoze n) :
    Awake (s.goto p pc) := by
  have moves : Moves s p (s.goto p pc) := moves_goto rfl rfl fun locked => by simp [out] at locked
  apply awake.quiet moves rfl rfl rfl
  · rw [goto_pc_same]
    cases pc <;> simp_all [dozing]
  · intro rest place
    rw [goto_pc_same] at place
    simp [place, Pc.locked] at out
  · rw [idle]
    rfl

/-- `kill` makes the process RUNNABLE; nobody waits who did not before. -/
theorem awake_kill (p : Pid) :
    Awake { s with
      killed := Function.update s.killed p true, chan := Function.update s.chan p none } where
  __ := awake
  waits := by
    rintro q c (asleep | dozes)
    · by_cases here : q = p
      · simp [here] at asleep
      · dsimp only at asleep
        rw [Function.update_of_ne here] at asleep
        exact awake.waits q c (Or.inl asleep)
    · exact awake.waits q c (Or.inr dozes)

theorem awake_step {act : Act} (step : Step s act t) (told : ¬ Strands s act) :
    Awake t := by
  rcases step_cases step with ⟨p, pc, -, rfl, idle, out, write, read⟩ | ⟨p, -, -, rfl⟩ | ⟨p, rfl, piece⟩
  · exact awake_start awake idle out write read
  · exact awake_kill awake p
  · exact awake_piece awake piece told

end Steps

theorem awake_fresh (data : Nat → UInt8) : Awake (fresh data) where
  owner := by
    intro q locked
    cases locked
  dozer := by
    intro q c dozes
    cases dozes
  full := by
    intro q rest place
    cases place
  waits := by
    rintro q c (asleep | dozes)
    · cases asleep
    · cases dozes

/-- Nobody sleeps for something that is there already. -/
def NoLostWakeup (s : State) : Prop :=
  s.lock = none →
    (s.pipe.empty = false ∨ s.pipe.writeopen = false → ∀ q, s.chan q ≠ some .nread) ∧
    (s.pipe.full = false ∨ s.pipe.readopen = false → ∀ q, s.chan q ≠ some .nwrite)

theorem Awake.noLostWakeup (awake : Awake s) : NoLostWakeup s := by
  intro free
  have right : ∀ q c, s.chan q = some c → blocks s.pipe c = true := by
    intro q c asleep
    rcases awake.waits q c (Or.inl asleep) with right | ⟨h, holder, -⟩
    · exact right
    · rw [free] at holder
      cases holder
  constructor
  · intro ready q asleep
    have waits := right q .nread asleep
    simp only [blocks, Bool.and_eq_true] at waits
    rcases ready with some_ | closed
    · simp [some_] at waits
    · simp [closed] at waits
  · intro ready q asleep
    have waits := right q .nwrite asleep
    simp only [blocks, Bool.and_eq_true] at waits
    rcases ready with room | closed
    · simp [room] at waits
    · simp [closed] at waits

theorem full_not_empty {pipe : Pipe} (full : pipe.full = true) : pipe.empty = false := by
  have ahead : pipe.ring.nwrite = (pipe.ring.nread + 512) % 2 ^ 32 := of_decide_eq_true full
  have apart : pipe.ring.nread ≠ pipe.ring.nwrite := by omega
  exact decide_eq_false apart

/-- After a stranding return the reader is asleep on a full pipe, now or when it has finished
falling asleep. -/
theorem strands_lost {act : Act} (strands : Strands s act) (step : Step s act t) :
    ∃ more u, Run Step t more u ∧ ¬ NoLostWakeup u := by
  obtain ⟨p, b, rest, rfl, place, full, reason, q, waiting⟩ := strands
  have alive : s.freed = false := by
    by_contra freed
    simp [Step, next, freed] at step
  have result : t = release s p := by
    simp only [Step, next, alive, proceed, place, full, reason, if_true, Bool.false_eq_true,
      if_false, Option.some.injEq] at step
    exact step.symm
  have some_ := full_not_empty full
  subst result
  rcases waiting with asleep | dozes
  · refine ⟨[], _, .nil _, ?_⟩
    intro fine
    exact (fine rfl).1 (Or.inl some_) q asleep
  · have other : q ≠ p := by
      rintro rfl
      simp [place, dozing] at dozes
    cases drowsy : s.pc q <;> simp [drowsy, dozing] at dozes
    rename_i n
    refine ⟨[.run q], fallAsleep (release s p) q .nread (.readSleep n), .cons ?_ (.nil _), ?_⟩
    · have same : (release s p).pc q = .readDoze n := by
        rw [← drowsy]
        exact goto_pc_other s .idle other
      simp only [Step, next, proceed, same]
      simp [release, State.goto, alive]
    · intro fine
      exact (fine rfl).1 (Or.inl some_) q (by simp [fallAsleep])

/-- The reader falls asleep on the empty pipe; the writer, killed, fills it and gives up. -/
def killedWriter : List Act :=
  [.read 1 1, .run 1, .run 1, .run 1, .kill 0, .write 0 (List.replicate 513 0)] ++
    List.replicate 514 (.run 0)

theorem killed_writer_strands_reader :
    ∃ s, Run Step (fresh fun _ => 0) killedWriter s ∧ s.lock = none ∧ s.pipe.empty = false ∧
      s.chan 1 = some .nread ∧ ¬ NoLostWakeup s := by
  obtain ⟨s, run, test⟩ := execute_exists next (fresh fun _ => 0) killedWriter
    (fun s => s.lock = none ∧ s.pipe.empty = false ∧ s.chan 1 = some .nread) (by decide +kernel)
  have end_ : s.lock = none ∧ s.pipe.empty = false ∧ s.chan 1 = some .nread := by simpa using test
  obtain ⟨free, some_, asleep⟩ := end_
  exact ⟨s, run, free, some_, asleep, fun fine => (fine free).1 (Or.inl some_) 1 asleep⟩

/-- As long as no error return of `pipewrite` leaves a waiting reader untold, no wakeup is lost
in any state reached; after one that does, one is. -/
theorem no_lost_wakeup_iff {data : Nat → UInt8} {acts : List Act} {s : State}
    (run : Run (Guarded (fun s act => ¬ Strands s act) Step) (fresh data) acts s) :
    NoLostWakeup s ∧
      ∀ act t, Step s act t → Strands s act → ∃ more u, Run Step t more u ∧ ¬ NoLostWakeup u := by
  have awake := run.preserves Awake (fun _ _ _ awake step => awake_step awake step.2 step.1)
    (awake_fresh data)
  exact ⟨awake.noLostWakeup, fun act t step strands => strands_lost strands step⟩

/-- The writer stores a byte while the reader sleeps, and wakes it. -/
def wokenReader : List Act :=
  [.read 1 1, .run 1, .run 1, .run 1, .write 0 [7], .run 0, .run 0, .run 0, .run 0]

theorem no_lost_wakeup_woken_reader :
    ∃ s, Run (Guarded (fun s act => ¬ Strands s act) Step) (fresh fun _ => 0) wokenReader s ∧
      s.pipe.empty = false ∧ NoLostWakeup s := by
  obtain ⟨s, run, test⟩ := execute_exists
    (fun (s : State) act => if s.pipe.full = true then none else next s act) (fresh fun _ => 0)
    wokenReader (fun s => s.pipe.empty = false) (by decide +kernel)
  have guarded : Run (Guarded (fun s act => ¬ Strands s act) Step) (fresh fun _ => 0) wokenReader s := by
    refine run.mono ?_
    intro s act t step
    split at step
    · cases step
    · rename_i room
      refine ⟨?_, step⟩
      rintro ⟨p, b, rest, -, -, full, -⟩
      exact room full
  exact ⟨s, guarded, by simpa using test, (no_lost_wakeup_iff guarded).1⟩

end ColorXv6.Ipc.PipeWakeup
