import ColorXv6.Logging.Grouping
import Mathlib.Data.List.Dedup

/-!
# Log space reservation

begin_op reserves MAXOPBLOCKS entries against LOGSIZE, while log_write refuses
to go on once the log holds log.size - 1 entries. mkfs makes the log LOGSIZE
blocks long, header included, so the last of the reserved entries does not exist.
-/
namespace ColorXv6.Logging.Reservation
open Param Lib.Population Lib.Runs GroupCommit Grouping

/-- Distinct blocks passed to log_write in the transaction being collected. -/
def transactionBlocks (s : State) : List Nat :=
  ((s.events.filter fun e => e.transaction = s.committed.length).map Event.block).dedup

/-- Distinct blocks an operation will have logged after log_write(b). -/
def opBlocks (logged : List Nat) (b : Nat) : List Nat := (logged ++ [b]).dedup

/-- The promise of the operations: `bound` distinct blocks for each of them. -/
def budgeted (bound : Nat) (s : State) : Action → Bool
  | .callLogWrite p b =>
    match s.procs[p]? with
    | some (.inOp _ logged) => (opBlocks logged b).length ≤ bound
    | _ => true
  | _ => true

/-- A log_write finds fewer than LOGSIZE - 1 distinct blocks in its transaction. -/
def roomy (s : State) : Action → Bool
  | .callLogWrite p _ =>
    match s.procs[p]? with
    | some (.inOp _ _) => (transactionBlocks s).length < logSize - 1
    | _ => true
  | _ => true

theorem transactionBlocks_length {s : State} (h : Grouped s)
    (headerZero : total headerWritten s.procs = 0) : (transactionBlocks s).length = s.n := by
  apply List.Perm.length_eq
  apply (List.perm_ext_iff_of_nodup (List.nodup_dedup _) h.distinct).mpr
  intro b
  rw [h.collected.current headerZero b]
  simp only [List.mem_dedup, List.mem_map, List.mem_filter, decide_eq_true_eq]
  constructor
  · rintro ⟨e, ⟨member, same⟩, rfl⟩
    exact ⟨e, member, same, rfl⟩
  · rintro ⟨e, member, same, rfl⟩
    exact ⟨e, ⟨member, same⟩, rfl⟩

theorem size_step (s : State) (a : Action) (t : State) (taken : Step s a t) : t.size = s.size := by
  unfold Step at taken
  cases a with
  | callBegin p =>
    simp only [step] at taken
    split at taken <;> cases taken
    rfl
  | tryBegin p =>
    simp only [step] at taken
    split at taken <;> cases taken
    simp only [beginOp]
    split
    · rfl
    · split <;> rfl
  | callLogWrite p b =>
    simp only [step] at taken
    split at taken
    · split at taken <;> cases taken
      rfl
    · cases taken
  | doLogWrite p =>
    simp only [step] at taken
    split at taken
    · unfold logWrite at taken
      split at taken <;> cases taken
      rfl
    · cases taken
  | endOp p =>
    simp only [step] at taken
    split at taken
    · unfold endOp at taken
      dsimp only at taken
      split at taken
      · cases taken
      · split at taken <;> cases taken <;> rfl
    · cases taken
  | commitStep p =>
    simp only [step] at taken
    split at taken
    · cases taken
      rename_i phase here
      cases phase with
      | writeLog => simp only [commitPhase]; split <;> rfl
      | writeHead => rfl
      | installTrans => rfl
      | erase => rfl
      | finish => rfl
    · cases taken

/-- On the log that mkfs lays out, a log_write panics exactly when LOGSIZE - 1
distinct blocks are already logged, whichever operations logged them. -/
theorem tooBig_iff {s : State} (h : Grouped s) (size : s.size = logSize) (a : Action) :
    step s a ≠ .stop .tooBigTransaction ↔ roomy s a = true := by
  cases a with
  | callBegin p => simp only [step, roomy]; split <;> simp
  | tryBegin p => simp only [step, roomy]; split <;> simp
  | callLogWrite p b =>
    cases here : s.procs[p]? with
    | none => simp [step, roomy, here]
    | some pc =>
      cases pc with
      | inOp op logged =>
        have headerZero := h.header_idle (h.idle_of_active here rfl)
        have inside := logWriteTests_inside h p op logged here
        simp only [step, roomy, here, transactionBlocks_length h headerZero, decide_eq_true_eq]
        by_cases full : s.n ≥ logSize ∨ (s.n : Int) ≥ s.size - 1
        · have stops : logWriteTests s = some .tooBigTransaction := by
            simp only [logWriteTests, if_pos full]
          rw [size] at full
          simp only [stops, ne_eq, not_true_eq_false, false_iff, Nat.not_lt]
          simp only [logSize, maxOpBlocks] at full ⊢
          omega
        · have passes : logWriteTests s = none := by
            simp only [logWriteTests, if_neg full] at inside ⊢
            split at inside
            · exact absurd rfl inside
            · rename_i started
              rw [if_neg started]
          rw [size] at full
          simp only [passes, ne_eq, reduceCtorEq, not_false_eq_true, true_iff]
          simp only [logSize, maxOpBlocks] at full ⊢
          omega
      | _ => simp [step, roomy, here]
  | doLogWrite p =>
    simp only [step, roomy]
    split
    · simp only [logWrite]
      split <;> simp
    · simp
  | endOp p =>
    simp only [step, roomy]
    split
    · simp only [endOp]
      split
      · simp
      · split <;> simp
    · simp
  | commitStep p => simp only [step, roomy]; split <;> simp

/-- In every run, whatever its operations log, a step panics for lack of log
space exactly when it is not `roomy`. -/
theorem log_write_fits_iff_roomy (n : Nat) (acts : List Action) (s : State) (a : Action)
    (run : Run Step (initial logSize n) acts s) :
    step s a ≠ .stop .tooBigTransaction ↔ roomy s a = true := by
  have size : s.size = logSize :=
    run.preserves (fun s => s.size = logSize)
      (fun s a t same taken => (size_step s a t taken).trans same) rfl
  exact tooBig_iff (grouped_run run) size a

/-- Three operations: the first two log ten blocks each, the third nine so far. -/
def fullLog : List Action :=
  (List.range 3).flatMap (fun p => [.callBegin p, .tryBegin p]) ++
    (List.range 29).flatMap fun i => [.callLogWrite (i / 10) (60 + i), .doLogWrite (i / 10)]

theorem log_write_fits_iff_roomy_full : ∃ s, Run Step (initial logSize 3) fullLog s ∧
    (roomy s (.callLogWrite 2 89) = true ↔
      step s (.callLogWrite 2 89) ≠ .stop .tooBigTransaction) := by
  obtain ⟨s, result⟩ : ∃ s, execute (fun _ _ => true) (initial logSize 3) fullLog = some s :=
    Option.isSome_iff_exists.mp (by decide +kernel)
  have run := (execute_run _ _ _ _ result).mono (fun _ _ _ taken => taken.2)
  exact ⟨s, run, (log_write_fits_iff_roomy 3 fullLog s _ run).symm⟩

/-- The tenth block of the third operation panics although no operation logs
more than MAXOPBLOCKS distinct blocks. -/
theorem three_maximal_operations_panic :
    ∃ s, Run (Guarded (fun s a => budgeted maxOpBlocks s a = true) Step) (initial logSize 3) fullLog s ∧
      budgeted maxOpBlocks s (.callLogWrite 2 89) = true ∧
      step s (.callLogWrite 2 89) = .stop .tooBigTransaction := by
  obtain ⟨s, result⟩ : ∃ s, execute (budgeted maxOpBlocks) (initial logSize 3) fullLog = some s :=
    Option.isSome_iff_exists.mp (by decide +kernel)
  have facts : (execute (budgeted maxOpBlocks) (initial logSize 3) fullLog).all
      (fun s => budgeted maxOpBlocks s (.callLogWrite 2 89) &&
        step s (.callLogWrite 2 89) == .stop .tooBigTransaction) = true := by decide +kernel
  rw [result] at facts
  simp only [Option.all_some, Bool.and_eq_true, beq_iff_eq] at facts
  exact ⟨s, execute_run _ _ _ _ result, facts.1, facts.2⟩

end ColorXv6.Logging.Reservation
