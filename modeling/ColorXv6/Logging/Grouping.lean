import ColorXv6.Logging.GroupCommit

/-!
# Group commit never splits an operation

One invariant over log.outstanding, log.committing, log.lh and the positions of
the processes, kept by every step. While a process commits no operation is in
progress, so the transaction number an operation sees cannot change under it.
-/
namespace ColorXv6.Logging.Grouping
open Param Lib.Population Lib.Runs GroupCommit

theorem mem_absorb (blocks : List Nat) (b c : Nat) : c ∈ absorb blocks b ↔ c ∈ blocks ∨ c = b := by
  induction blocks with
  | nil => simp [absorb]
  | cons d rest ih =>
    simp only [absorb]
    split
    · rename_i same
      subst same
      simp only [List.mem_cons]
      tauto
    · simp only [List.mem_cons, ih]
      tauto

theorem absorb_nodup (blocks : List Nat) (b : Nat) (distinct : blocks.Nodup) :
    (absorb blocks b).Nodup := by
  induction blocks with
  | nil => simp [absorb]
  | cons d rest ih =>
    obtain ⟨fresh, restDistinct⟩ := List.nodup_cons.mp distinct
    simp only [absorb]
    split
    · rename_i same
      subst same
      exact distinct
    · rename_i differs
      refine List.nodup_cons.mpr ⟨?_, ih restDistinct⟩
      rw [mem_absorb]
      rintro (old | new)
      · exact fresh old
      · exact differs new

@[simp] theorem active_wake (pc : Pc) : active (wake pc) = active pc := by cases pc <;> rfl

@[simp] theorem isCommitting_wake (pc : Pc) : isCommitting (wake pc) = isCommitting pc := by
  cases pc <;> rfl

@[simp] theorem headerWritten_wake (pc : Pc) : headerWritten (wake pc) = headerWritten pc := by
  cases pc <;> rfl

@[simp] theorem opOf_wake (pc : Pc) : opOf (wake pc) = opOf pc := by cases pc <;> rfl

theorem opOf_active (pc : Pc) (op : Nat) (h : opOf pc = some op) : active pc = 1 := by
  cases pc <;> simp_all [opOf, active]

theorem headerWritten_le (pc : Pc) : headerWritten pc ≤ isCommitting pc := by
  cases pc with
  | commit phase => cases phase <;> simp [headerWritten, isCommitting]
  | _ => simp [headerWritten, isCommitting]

/-- Every operation in progress has a used number, and all it has logged so far
belongs to the transaction being collected. -/
def Pending (s : State) : Prop :=
  ∀ pc ∈ s.procs, ∀ op, opOf pc = some op →
    op < s.nextOp ∧ ∀ e ∈ s.events, e.op = op → e.transaction = s.committed.length

/-- The logged blocks are those of the transaction being collected, until its
header is written; from then to the erasure that transaction is a committed one. -/
structure Collected (s : State) : Prop where
  current : total headerWritten s.procs = 0 → ∀ b, b ∈ s.block ↔
    ∃ e ∈ s.events, e.transaction = s.committed.length ∧ e.block = b
  settled : 0 < total headerWritten s.procs → ∀ e ∈ s.events, e.transaction < s.committed.length

structure Recorded (s : State) : Prop where
  known : ∀ e ∈ s.events, e.op < s.nextOp ∧ e.transaction ≤ s.committed.length
  member : ∀ e ∈ s.events, ∀ t, s.committed[e.transaction]? = some t → e.block ∈ t
  whole : ∀ e ∈ s.events, ∀ f ∈ s.events, e.op = f.op → e.transaction = f.transaction

structure Grouped (s : State) : Prop where
  outstanding : s.outstanding = total active s.procs
  committing : total isCommitting s.procs = if s.committing then 1 else 0
  quiet : s.committing = true → total active s.procs = 0
  distinct : s.block.Nodup
  collected : Collected s
  recorded : Recorded s
  pending : Pending s

theorem total_replicate_idle (weight : Pc → Nat) (n : Nat) (zero : weight .idle = 0) :
    total weight (List.replicate n .idle) = 0 := by
  simp [total, zero]

theorem grouped_initial (size n : Nat) : Grouped (initial size n) where
  outstanding := by simp [initial, total_replicate_idle active n rfl]
  committing := by simp [initial, total_replicate_idle isCommitting n rfl]
  quiet := by simp [initial]
  distinct := by simp [initial]
  collected := ⟨by simp [initial], by simp [initial]⟩
  recorded := ⟨by simp [initial], by simp [initial], by simp [initial]⟩
  pending := by
    intro pc member op h
    simp only [initial, List.mem_replicate] at member
    rw [member.2] at h
    cases h

/-- Weights of the population after one process moves and the rest may be woken. -/
structure Moved (s t : State) (old new : Pc) : Prop where
  activeTotal : total active t.procs + active old = total active s.procs + active new
  committingTotal :
    total isCommitting t.procs + isCommitting old = total isCommitting s.procs + isCommitting new
  headerTotal :
    total headerWritten t.procs + headerWritten old = total headerWritten s.procs + headerWritten new
  procs : ∀ pc ∈ t.procs, (∃ q ∈ s.procs, opOf q = opOf pc) ∨ opOf pc = opOf new

variable {s t : State} {p : Nat}

variable {old new : Pc}

theorem moved_set (here : s.procs[p]? = some old)
    (moves : t.procs = s.procs.set p new) : Moved s t old new := by
  refine ⟨?_, ?_, ?_, ?_⟩
  · rw [moves]
    exact total_set active _ _ _ _ here
  · rw [moves]
    exact total_set isCommitting _ _ _ _ here
  · rw [moves]
    exact total_set headerWritten _ _ _ _ here
  · intro pc member
    rw [moves] at member
    rcases List.mem_or_eq_of_mem_set member with stays | rfl
    · exact Or.inl ⟨pc, stays, rfl⟩
    · exact Or.inr rfl

theorem moved_wake (here : s.procs[p]? = some old)
    (moves : t.procs = (s.procs.set p new).map wake) : Moved s t old new := by
  have moved : Moved s { s with procs := s.procs.set p new } old new := moved_set here rfl
  refine ⟨?_, ?_, ?_, ?_⟩
  · rw [moves, total_map active _ _ active_wake]
    exact moved.activeTotal
  · rw [moves, total_map isCommitting _ _ isCommitting_wake]
    exact moved.committingTotal
  · rw [moves, total_map headerWritten _ _ headerWritten_wake]
    exact moved.headerTotal
  · intro pc member
    rw [moves] at member
    obtain ⟨q, belongs, rfl⟩ := List.mem_map.mp member
    rw [opOf_wake]
    exact moved.procs q belongs

section Steps
variable (h : Grouped s)
include h

/-- What the others are doing after a process has moved, if it starts no operation. -/
theorem Moved.pending (moved : Moved s t old new)
    (sameOp : opOf new = none ∨ ∃ q ∈ s.procs, opOf q = opOf new) :
    ∀ pc ∈ t.procs, ∀ op, opOf pc = some op →
      op < s.nextOp ∧ ∀ e ∈ s.events, e.op = op → e.transaction = s.committed.length := by
  intro pc member op isOp
  rcases moved.procs pc member with ⟨q, belongs, same⟩ | same
  · exact h.pending q belongs op (same.trans isOp)
  · rcases sameOp with none_ | ⟨q, belongs, sameQ⟩
    · rw [same, none_] at isOp
      cases isOp
    · exact h.pending q belongs op (sameQ.trans (same.symm.trans isOp))

/-- A move that keeps the blocks, the history and the header keeps the invariant if it counts right. -/
theorem Grouped.count (moved : Moved s t old new)
    (sameHeader : headerWritten new = headerWritten old)
    (sameOp : opOf new = none ∨ ∃ q ∈ s.procs, opOf q = opOf new) (block : t.block = s.block)
    (history : t.nextOp = s.nextOp ∧ t.committed = s.committed ∧ t.events = s.events)
    (outstanding : t.outstanding = total active t.procs)
    (committing : total isCommitting t.procs = if t.committing then 1 else 0)
    (quiet : t.committing = true → total active t.procs = 0) : Grouped t := by
  obtain ⟨nextOp, committed, events⟩ := history
  have headerTotal := moved.headerTotal
  have headerEq : total headerWritten t.procs = total headerWritten s.procs := by omega
  refine ⟨outstanding, committing, quiet, ?_, ⟨?_, ?_⟩, ⟨?_, ?_, ?_⟩, ?_⟩
  · rw [block]
    exact h.distinct
  · rw [headerEq, block, events, committed]
    exact h.collected.current
  · rw [headerEq, events, committed]
    exact h.collected.settled
  · rw [events, nextOp, committed]
    exact h.recorded.known
  · rw [events, committed]
    exact h.recorded.member
  · rw [events]
    exact h.recorded.whole
  · unfold Pending
    rw [nextOp, committed, events]
    exact Moved.pending h moved sameOp

/-- A move that keeps every weight as well. -/
theorem Grouped.move (moved : Moved s t old new) (sameActive : active new = active old)
    (sameCommitting : isCommitting new = isCommitting old)
    (sameHeader : headerWritten new = headerWritten old)
    (sameOp : opOf new = none ∨ ∃ q ∈ s.procs, opOf q = opOf new)
    (log : t.outstanding = s.outstanding ∧ t.committing = s.committing ∧ t.block = s.block)
    (history : t.nextOp = s.nextOp ∧ t.committed = s.committed ∧ t.events = s.events) :
    Grouped t := by
  obtain ⟨outstanding, committing, block⟩ := log
  obtain ⟨activeTotal, committingTotal, -, -⟩ := id moved
  refine h.count moved sameHeader sameOp block history ?_ ?_ ?_
  · rw [outstanding, h.outstanding]
    omega
  · rw [committing, ← h.committing]
    omega
  · intro busy
    have := h.quiet (committing ▸ busy)
    omega

theorem Grouped.committing_of_commit {phase : Phase}
    (here : s.procs[p]? = some (.commit phase)) : s.committing = true := by
  have bound := weight_le_total isCommitting s.procs p _ here
  rw [h.committing] at bound
  by_contra idle
  simp [idle, isCommitting] at bound

theorem Grouped.idle_of_active {pc : Pc} (here : s.procs[p]? = some pc)
    (inOp : active pc = 1) : s.committing = false := by
  have bound := weight_le_total active s.procs p _ here
  by_contra busy
  have := h.quiet (by simpa using busy)
  omega

/-- Outside commit no header is waiting to be erased. -/
theorem Grouped.header_idle (idle : s.committing = false) :
    total headerWritten s.procs = 0 := by
  have bound := total_le headerWritten isCommitting s.procs headerWritten_le
  have none_ := h.committing
  simp only [idle, Bool.false_eq_true, ↓reduceIte] at none_
  omega

/-- While a process commits, no process is inside an operation. -/
theorem Grouped.no_op (busy : s.committing = true) (pc : Pc) (member : pc ∈ s.procs)
    (op : Nat) : opOf pc ≠ some op := by
  intro isOp
  have zero := weight_eq_zero active s.procs (h.quiet busy) pc member
  have one := opOf_active pc op isOp
  omega

theorem grouped_beginOp (p : Nat) (here : s.procs[p]? = some .beginOp) :
    Grouped (GroupCommit.beginOp s p) := by
  have sleeps : Grouped (s.setPc p .asleep) :=
    h.move (moved_set here rfl) rfl rfl rfl (Or.inl rfl) ⟨rfl, rfl, rfl⟩ ⟨rfl, rfl, rfl⟩
  unfold GroupCommit.beginOp
  split
  · exact sleeps
  · rename_i idle
    split
    · exact sleeps
    · have moved : Moved s { s.setPc p (.inOp s.nextOp []) with
          outstanding := s.outstanding + 1, nextOp := s.nextOp + 1 } .beginOp
          (.inOp s.nextOp []) := moved_set here rfl
      obtain ⟨activeTotal, committingTotal, headerTotal, -⟩ := id moved
      simp only [active, isCommitting, headerWritten, Nat.add_zero] at activeTotal committingTotal headerTotal
      refine ⟨?_, ?_, ?_, h.distinct, ⟨?_, ?_⟩, ⟨?_, h.recorded.member, h.recorded.whole⟩, ?_⟩
      · have old := h.outstanding
        simp only [activeTotal]
        push_cast
        omega
      · rw [committingTotal]
        exact h.committing
      · intro busy
        exact absurd busy idle
      · rw [headerTotal]
        exact h.collected.current
      · rw [headerTotal]
        exact h.collected.settled
      · intro e member
        have old := h.recorded.known e member
        exact ⟨Nat.lt_succ_of_lt old.1, old.2⟩
      · intro pc member op isOp
        rcases moved.procs pc member with ⟨q, belongs, same⟩ | same
        · obtain ⟨bound, events⟩ := h.pending q belongs op (same.trans isOp)
          exact ⟨Nat.lt_succ_of_lt bound, events⟩
        · rw [same] at isOp
          cases isOp
          refine ⟨Nat.lt_succ_self _, fun e belongs sameOp => ?_⟩
          have old := (h.recorded.known e belongs).1
          omega

theorem grouped_logWrite (p op : Nat) (logged : List Nat) (b : Nat)
    (here : s.procs[p]? = some (.inLogWrite op logged b))
    (result : GroupCommit.logWrite s p op logged b = .next t) : Grouped t := by
  unfold GroupCommit.logWrite at result
  split at result
  · cases result
  · cases result
    have idle := h.idle_of_active here rfl
    have headerZero := h.header_idle idle
    have moved : Moved s { s.setPc p (.inOp op (logged ++ [b])) with
        block := absorb s.block b
        events := s.events ++ [⟨op, b, s.committed.length⟩] } (.inLogWrite op logged b)
        (.inOp op (logged ++ [b])) := moved_set here rfl
    obtain ⟨activeTotal, committingTotal, headerTotal, -⟩ := id moved
    simp only [active, isCommitting, headerWritten, Nat.add_zero,
      Nat.add_right_cancel_iff] at activeTotal committingTotal headerTotal
    obtain ⟨opBound, opEvents⟩ := h.pending _ (List.mem_of_getElem? here) op rfl
    have current := h.collected.current headerZero
    refine ⟨?_, ?_, ?_, absorb_nodup _ _ h.distinct, ⟨?_, ?_⟩, ⟨?_, ?_, ?_⟩, ?_⟩
    · rw [activeTotal]
      exact h.outstanding
    · rw [committingTotal]
      exact h.committing
    · rw [activeTotal]
      exact h.quiet
    · intro _ c
      simp only [mem_absorb, List.mem_append, List.mem_singleton]
      constructor
      · rintro (old | rfl)
        · obtain ⟨e, member, sameTxn, sameBlock⟩ := (current c).mp old
          exact ⟨e, Or.inl member, sameTxn, sameBlock⟩
        · exact ⟨_, Or.inr rfl, rfl, rfl⟩
      · rintro ⟨e, old | rfl, sameTxn, rfl⟩
        · exact Or.inl ((current _).mpr ⟨e, old, sameTxn, rfl⟩)
        · exact Or.inr rfl
    · intro some_
      rw [headerTotal, headerZero] at some_
      omega
    · intro e member
      rcases List.mem_append.mp member with old | new
      · exact h.recorded.known e old
      · rw [List.mem_singleton.mp new]
        exact ⟨opBound, Nat.le_refl _⟩
    · intro e member t at_
      rcases List.mem_append.mp member with old | new
      · exact h.recorded.member e old t at_
      · rw [List.mem_singleton.mp new] at at_
        simp [State.setPc] at at_
    · intro e memberE f memberF sameOp
      rcases List.mem_append.mp memberE with oldE | newE
      · rcases List.mem_append.mp memberF with oldF | newF
        · exact h.recorded.whole e oldE f oldF sameOp
        · rw [List.mem_singleton.mp newF] at sameOp ⊢
          exact opEvents e oldE sameOp
      · rw [List.mem_singleton.mp newE] at sameOp ⊢
        rcases List.mem_append.mp memberF with oldF | newF
        · exact (opEvents f oldF sameOp.symm).symm
        · rw [List.mem_singleton.mp newF]
    · intro pc member op' isOp
      have old : op' < s.nextOp ∧ ∀ e ∈ s.events, e.op = op' → e.transaction = s.committed.length := by
        rcases moved.procs pc member with ⟨q, belongs, same⟩ | same
        · exact h.pending q belongs op' (same.trans isOp)
        · rw [same] at isOp
          cases isOp
          exact ⟨opBound, opEvents⟩
      refine ⟨old.1, fun e belongs sameOp => ?_⟩
      rcases List.mem_append.mp belongs with oldE | newE
      · exact old.2 e oldE sameOp
      · rw [List.mem_singleton.mp newE]
        rfl

theorem grouped_endOp (p op : Nat) (logged : List Nat) (here : s.procs[p]? = some (.inOp op logged))
    (result : GroupCommit.endOp s p = .next t) :
    Grouped t := by
  have idle := h.idle_of_active here rfl
  have old := h.outstanding
  unfold GroupCommit.endOp at result
  dsimp only at result
  split at result
  · cases result
  · split at result
    · rename_i last
      cases result
      have moved : Moved s { State.setPc { s with outstanding := s.outstanding - 1 } p
          (.commit .writeLog) with committing := true } (.inOp op logged) (.commit .writeLog) :=
        moved_set here rfl
      obtain ⟨activeTotal, committingTotal, -, -⟩ := id moved
      have noneCommitting := h.committing
      simp only [active, isCommitting, Nat.add_zero] at activeTotal committingTotal
      simp only [idle, Bool.false_eq_true, ↓reduceIte] at noneCommitting
      refine h.count moved rfl (Or.inl rfl) rfl ⟨rfl, rfl, rfl⟩ ?_ ?_ ?_
      · simp only [State.setPc] at activeTotal ⊢
        omega
      · rw [committingTotal, noneCommitting]
        rfl
      · intro _
        simp only [State.setPc] at activeTotal last ⊢
        omega
    · cases result
      have moved : Moved s (State.setPc { s with outstanding := s.outstanding - 1 } p .idle).wakeup
          (.inOp op logged) .idle := moved_wake here rfl
      obtain ⟨activeTotal, committingTotal, -, -⟩ := id moved
      simp only [active, isCommitting, Nat.add_zero] at activeTotal committingTotal
      refine h.count moved rfl (Or.inl rfl) rfl ⟨rfl, rfl, rfl⟩ ?_ ?_ ?_
      · simp only [State.setPc, State.wakeup] at activeTotal ⊢
        omega
      · rw [committingTotal]
        exact h.committing
      · intro busy
        exact absurd busy (by simp [State.setPc, State.wakeup, idle])

/-- The header write turns the collected blocks into a committed transaction. -/
theorem grouped_writeHead (p : Nat) (here : s.procs[p]? = some (.commit .writeHead)) :
    Grouped (commitPhase s p .writeHead) := by
  have busy := h.committing_of_commit here
  have moved : Moved s (commitPhase s p .writeHead) (.commit .writeHead) (.commit .installTrans) :=
    moved_set here rfl
  obtain ⟨activeTotal, committingTotal, headerTotal, -⟩ := id moved
  simp only [active, isCommitting, headerWritten, Nat.add_zero,
    Nat.add_right_cancel_iff] at activeTotal committingTotal headerTotal
  refine ⟨?_, ?_, ?_, h.distinct, ⟨?_, ?_⟩, ⟨?_, ?_, h.recorded.whole⟩, ?_⟩
  · rw [activeTotal]
    exact h.outstanding
  · rw [committingTotal]
    exact h.committing
  · rw [activeTotal]
    exact h.quiet
  · intro none_
    omega
  · intro _ e member
    have old := (h.recorded.known e member).2
    simp only [commitPhase, State.setPc, List.length_append, List.length_singleton]
    omega
  · intro e member
    have old := h.recorded.known e member
    simp only [commitPhase, State.setPc, List.length_append, List.length_singleton]
    exact ⟨old.1, by omega⟩
  · intro e member t at_
    simp only [commitPhase, State.setPc] at at_
    by_cases earlier : e.transaction < s.committed.length
    · rw [List.getElem?_append_left earlier] at at_
      exact h.recorded.member e member t at_
    · have last : e.transaction = s.committed.length := by
        have := (h.recorded.known e member).2
        omega
      have headerZero : total headerWritten s.procs = 0 := by
        by_contra some_
        have := h.collected.settled (Nat.pos_of_ne_zero some_) e member
        omega
      rw [last] at at_
      simp only [List.getElem?_append_right (Nat.le_refl _), Nat.sub_self,
        List.getElem?_cons_zero, Option.some.injEq] at at_
      rw [← at_]
      exact (h.collected.current headerZero _).mpr ⟨e, member, last, rfl⟩
  · intro pc member op isOp
    rcases moved.procs pc member with ⟨q, belongs, same⟩ | same
    · exact absurd (same.trans isOp) (h.no_op busy q belongs op)
    · rw [same] at isOp
      cases isOp

/-- The erasure empties a log whose blocks all belong to a committed transaction. -/
theorem grouped_erase (p : Nat)
    (here : s.procs[p]? = some (.commit .erase)) : Grouped (commitPhase s p .erase) := by
  have busy := h.committing_of_commit here
  have moved : Moved s (commitPhase s p .erase) (.commit .erase) (.commit .finish) :=
    moved_set here rfl
  obtain ⟨activeTotal, committingTotal, headerTotal, -⟩ := id moved
  have written := weight_le_total headerWritten s.procs p _ here
  have bound := total_le headerWritten isCommitting s.procs headerWritten_le
  have one := h.committing
  simp only [active, isCommitting, headerWritten, Nat.add_zero, Nat.add_right_cancel_iff, busy,
    ↓reduceIte] at activeTotal committingTotal headerTotal written one
  have settled := h.collected.settled (by omega)
  refine ⟨?_, ?_, ?_, List.nodup_nil, ⟨?_, ?_⟩,
    ⟨h.recorded.known, h.recorded.member, h.recorded.whole⟩, ?_⟩
  · rw [activeTotal]
    exact h.outstanding
  · rw [committingTotal]
    exact h.committing
  · rw [activeTotal]
    exact h.quiet
  · intro _ b
    constructor
    · intro member
      cases member
    · rintro ⟨e, member, last, _⟩
      have old := settled e member
      simp only [commitPhase, State.setPc] at last
      omega
  · intro some_
    omega
  · exact (Moved.pending h moved (Or.inl rfl) :)

theorem grouped_finish (p : Nat)
    (here : s.procs[p]? = some (.commit .finish)) : Grouped (commitPhase s p .finish) := by
  have busy := h.committing_of_commit here
  have moved : Moved s (commitPhase s p .finish) (.commit .finish) .idle := moved_wake here rfl
  obtain ⟨activeTotal, committingTotal, -, -⟩ := id moved
  have one := h.committing
  simp only [active, isCommitting, Nat.add_zero, busy, ↓reduceIte] at activeTotal committingTotal one
  refine h.count moved rfl (Or.inl rfl) rfl ⟨rfl, rfl, rfl⟩ ?_ ?_ ?_
  · rw [activeTotal]
    exact h.outstanding
  · simp only [commitPhase, State.wakeup, State.setPc, Bool.false_eq_true, ↓reduceIte] at committingTotal ⊢
    omega
  · intro still
    cases still

theorem grouped_commitPhase (p : Nat) (phase : Phase)
    (here : s.procs[p]? = some (.commit phase)) : Grouped (commitPhase s p phase) := by
  cases phase with
  | writeLog =>
    simp only [commitPhase]
    split
    · exact h.move (moved_set here rfl) rfl rfl rfl (Or.inl rfl) ⟨rfl, rfl, rfl⟩ ⟨rfl, rfl, rfl⟩
    · exact h.move (moved_set here rfl) rfl rfl rfl (Or.inl rfl) ⟨rfl, rfl, rfl⟩ ⟨rfl, rfl, rfl⟩
  | writeHead => exact grouped_writeHead h p here
  | installTrans =>
    exact h.move (moved_set here rfl) rfl rfl rfl (Or.inl rfl) ⟨rfl, rfl, rfl⟩ ⟨rfl, rfl, rfl⟩
  | erase => exact grouped_erase h p here
  | finish => exact grouped_finish h p here

end Steps

/-- Every step of every process keeps the invariant. -/
theorem grouped_step (s : State) (a : Action) (t : State) (h : Grouped s) (taken : Step s a t) :
    Grouped t := by
  unfold Step at taken
  cases a with
  | callBegin p =>
    simp only [step] at taken
    split at taken
    · rename_i here
      cases taken
      exact h.move (moved_set here rfl) rfl rfl rfl (Or.inl rfl) ⟨rfl, rfl, rfl⟩ ⟨rfl, rfl, rfl⟩
    · cases taken
  | tryBegin p =>
    simp only [step] at taken
    split at taken
    · rename_i here
      cases taken
      exact grouped_beginOp h p here
    · cases taken
  | callLogWrite p b =>
    simp only [step] at taken
    split at taken
    · rename_i op logged here
      split at taken
      · cases taken
      · cases taken
        exact h.move (moved_set here rfl) rfl rfl rfl
          (Or.inr ⟨_, List.mem_of_getElem? here, rfl⟩) ⟨rfl, rfl, rfl⟩ ⟨rfl, rfl, rfl⟩
    · cases taken
  | doLogWrite p =>
    simp only [step] at taken
    split at taken
    · rename_i op logged b here
      exact grouped_logWrite h p op logged b here taken
    · cases taken
  | endOp p =>
    simp only [step] at taken
    split at taken
    · rename_i op logged here
      exact grouped_endOp h p op logged here taken
    · cases taken
  | commitStep p =>
    simp only [step] at taken
    split at taken
    · rename_i phase here
      cases taken
      exact grouped_commitPhase h p phase here
    · cases taken

theorem grouped_run {size n : Nat} {acts : List Action}
    (run : Run Step (initial size n) acts s) : Grouped s :=
  run.preserves Grouped grouped_step (grouped_initial size n)

/-- No log_write can start or take effect in `s`. -/
def NoLogWrite (s : State) : Prop :=
  ∀ p, (∀ b, step s (.callLogWrite p b) = .disabled) ∧ step s (.doLogWrite p) = .disabled

theorem noLogWrite_of_committing (h : Grouped s) (busy : s.committing = true) :
    NoLogWrite s := by
  intro p
  constructor
  · intro b
    simp only [step]
    split
    · rename_i op logged here
      exact absurd rfl (h.no_op busy _ (List.mem_of_getElem? here) op)
    · rfl
  · simp only [step]
    split
    · rename_i op logged b here
      exact absurd rfl (h.no_op busy _ (List.mem_of_getElem? here) op)
    · rfl

theorem endOp_no_panic (h : Grouped s) (p op : Nat) (logged : List Nat)
    (here : s.procs[p]? = some (.inOp op logged)) : endOp s p ≠ .stop .logCommitting := by
  have idle := h.idle_of_active here rfl
  simp only [endOp, idle, Bool.false_eq_true, ↓reduceIte]
  split <;> simp

theorem logWriteTests_inside (h : Grouped s) (p op : Nat) (logged : List Nat)
    (here : s.procs[p]? = some (.inOp op logged)) :
    logWriteTests s ≠ some .logWriteOutsideOfTrans := by
  have bound := weight_le_total active s.procs p _ here
  have old := h.outstanding
  simp only [active] at bound
  have inside : ¬ s.outstanding < 1 := by omega
  simp only [logWriteTests, if_neg inside]
  split <;> simp

theorem no_panic (h : Grouped s) (a : Action) :
    step s a ≠ .stop .logCommitting ∧ step s a ≠ .stop .logWriteOutsideOfTrans := by
  cases a with
  | callBegin p => simp only [step]; split <;> simp
  | tryBegin p => simp only [step]; split <;> simp
  | callLogWrite p b =>
    simp only [step]
    split
    · rename_i op logged here
      have inside := logWriteTests_inside h p op logged here
      have tests : logWriteTests s ≠ some .logCommitting := by
        simp only [logWriteTests]
        split
        · simp
        · split <;> simp
      split
      · rename_i reason found
        rw [found] at inside tests
        exact ⟨fun stops => tests (by rw [Outcome.stop.inj stops]),
          fun stops => inside (by rw [Outcome.stop.inj stops])⟩
      · simp
    · simp
  | doLogWrite p =>
    simp only [step]
    split
    · simp only [logWrite]
      split <;> simp
    · simp
  | endOp p =>
    simp only [step]
    split
    · rename_i op logged here
      refine ⟨endOp_no_panic h p op logged here, ?_⟩
      simp only [endOp]
      split
      · simp
      · split <;> simp
    · simp
  | commitStep p => simp only [step]; split <;> simp

/-- Group commit never splits an operation, for any number of processes, any log
size and any interleaving of their steps. -/
theorem operations_commit_whole (size n : Nat) (acts : List Action) (s : State)
    (run : Run Step (initial size n) acts s) :
    s.outstanding = total active s.procs ∧
    (s.committing = true →
      s.outstanding = 0 ∧ total isCommitting s.procs = 1 ∧ NoLogWrite s) ∧
    s.block.Nodup ∧
    (∀ a, step s a ≠ .stop .logCommitting ∧ step s a ≠ .stop .logWriteOutsideOfTrans) ∧
    (∀ e ∈ s.events, ∀ f ∈ s.events, e.op = f.op → e.transaction = f.transaction) ∧
    (∀ e ∈ s.events, (∃ t, s.committed[e.transaction]? = some t ∧ e.block ∈ t) ∨
      (e.transaction = s.committed.length ∧ e.block ∈ s.block)) := by
  have h := grouped_run run
  refine ⟨h.outstanding, fun busy => ⟨?_, ?_, noLogWrite_of_committing h busy⟩, h.distinct,
    no_panic h, h.recorded.whole, fun e member => ?_⟩
  · rw [h.outstanding, h.quiet busy]
    rfl
  · rw [h.committing, if_pos busy]
  · rcases Nat.lt_or_eq_of_le (h.recorded.known e member).2 with earlier | last
    · left
      exact ⟨_, List.getElem?_eq_getElem earlier,
        h.recorded.member e member _ (List.getElem?_eq_getElem earlier)⟩
    · right
      have headerZero : total headerWritten s.procs = 0 := by
        by_contra some_
        have := h.collected.settled (Nat.pos_of_ne_zero some_) e member
        omega
      exact ⟨last, (h.collected.current headerZero _).mpr ⟨e, member, last, rfl⟩⟩

/-- Two processes share a transaction: the first ends while the second still logs. -/
def sharedTransaction : List Action :=
  [.callBegin 0, .tryBegin 0, .callBegin 1, .tryBegin 1, .callLogWrite 0 60, .doLogWrite 0,
    .callLogWrite 1 61, .endOp 0, .doLogWrite 1, .endOp 1, .commitStep 1, .commitStep 1]

theorem operations_commit_whole_shared :
    ∃ s, Run Step (initial logSize 2) sharedTransaction s ∧ s.committing = true ∧
      s.committed = [[60, 61]] ∧ s.outstanding = 0 ∧ NoLogWrite s := by
  obtain ⟨s, result⟩ : ∃ s, execute (fun _ _ => true) (initial logSize 2) sharedTransaction = some s :=
    Option.isSome_iff_exists.mp (by decide)
  have run : Run Step (initial logSize 2) sharedTransaction s :=
    (execute_run _ _ _ _ result).mono (fun _ _ _ taken => taken.2)
  have facts : (execute (fun _ _ => true) (initial logSize 2) sharedTransaction).all
      (fun s => s.committing && s.committed == [[60, 61]]) = true := by decide
  rw [result] at facts
  simp only [Option.all_some, Bool.and_eq_true, beq_iff_eq] at facts
  obtain ⟨_, quiet, _⟩ := operations_commit_whole logSize 2 sharedTransaction s run
  obtain ⟨none_, _, noWrite⟩ := quiet facts.1
  exact ⟨s, run, facts.1, facts.2, none_, noWrite⟩

end ColorXv6.Logging.Grouping
