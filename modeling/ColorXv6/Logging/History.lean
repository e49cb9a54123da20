import ColorXv6.Logging.Atomicity

/-!
Histories of transactions. One commit follows another, and the machine may stop in any of
them. Outside the log area the disk is then the fold of whole transactions: those whose
header reached the disk, in the order of their commits.
-/
namespace ColorXv6.Logging.History
open Commit Atomicity

/-- A transaction and the end of its commit: it returns, or the machine stops after `k` of
its writes and recovers, after recoveries that are cut short in their turn. -/
structure Episode where
  lh : LogHeader
  data : Nat → Block
  stop : Option (Nat × List Nat)

variable (l : Log) (e : Episode) (d : Disk)

def Episode.log : Log := { l with lh := e.lh }

/-- `log_write` has pinned the blocks of the transaction. -/
def Episode.store : Store :=
  ⟨d, fun b => if b ∈ e.lh.block then some (e.data b) else none, []⟩

def Episode.run : Option Disk :=
  let writes := commitWrites (e.log l) (e.store d)
  match e.stop with
  | none => some (applyWrites d writes)
  | some (k, cuts) => recovered l (interrupted l cuts (crashAfter d writes k))

/-- The commit returned, or the machine stopped after the header write. -/
def Episode.kept : Bool :=
  match e.stop with
  | none => true
  | some (k, _) => e.lh.n < k

/-- The transaction as one update of the disk. -/
def Episode.update : Disk := fun b => if b ∈ e.lh.block then e.data b else d b

variable {l e d}

/-- The kernel recovers with a log that has no header of its own yet. -/
theorem recovered_log (cuts : List Nat) :
    recovered (e.log l) (interrupted (e.log l) cuts d) = recovered l (interrupted l cuts d) := by
  induction cuts generalizing d with
  | nil => rfl
  | cons k rest ih => exact ih

variable {content : Nat → Block} {m : Store} (ready : Ready l m)
include ready

/-- Recovery ends, however often it is cut short, and installs what was committed. -/
theorem recovers (h : Committed l m.disk content d ∨ Erased l m.disk content d) (cuts : List Nat) :
    ∃ r, recovered l (interrupted l cuts d) = some r ∧ Erased l m.disk content r := by
  have room : l.lh.block.length < l.size := by
    have fits := ready.room
    have nonempty := ready.nonempty
    simp only [LogHeader.n] at fits nonempty
    omega
  rcases interrupted_committed ready.home room ready.distinct cuts d h with committed | erased
  · obtain ⟨result, final, -⟩ := committed.recover ready.home room ready.distinct
    exact ⟨_, result, final⟩
  · obtain ⟨result, cut⟩ := erased.recover ready.home (Nat.zero_lt_of_lt room)
    have final := cut (recoverWrites l (interrupted l cuts d)).length
    rw [crashAfter, List.take_length] at final
    exact ⟨_, result, final⟩

/-- A finished commit has erased its header again. -/
theorem commit_returns : Erased l m.disk (bread m) (applyWrites m.disk (commitWrites l m)) := by
  obtain ⟨head, erase, -, cleared, writes⟩ := commitWrites_eq l m ready
  have reached := crash_after_header l m ready (commitWrites l m).length (by
    simp [writes, LogHeader.n])
  rw [crashAfter, List.take_length] at reached
  refine reached.resolve_left fun committed => ?_
  have entries := committed.header
  simp only [writes, applyWrites_append, applyWrites_cons, applyWrites_nil, diskWrite_same,
    headerEntries, cleared] at entries
  exact absurd (congrArg List.length entries) (Nat.ne_of_lt ready.nonempty)

omit ready

/-- One transaction happens as a whole or not at all, and leaves an erased header. -/
theorem Episode.run_spec (ready : Ready (e.log l) (e.store d)) :
    ∃ r, e.run l d = some r ∧ headerCount (r l.start) = 0 ∧
      ∀ b, ¬ InLog l b → r b = if e.kept then e.update d b else d b := by
  have ends : ∃ r, e.run l d = some r ∧
      Erased (e.log l) d (if e.kept then bread (e.store d) else d) r := by
    unfold Episode.run Episode.kept
    split
    · exact ⟨_, rfl, commit_returns ready⟩
    · rename_i k cuts _
      rw [← recovered_log (e := e)]
      apply recovers ready
      by_cases late : e.lh.n < k
      · simp only [late, decide_true, if_true]
        exact crash_after_header _ _ ready k late
      · simp only [late, decide_false, Bool.false_eq_true, if_false]
        exact Or.inr (crash_before_header _ _ ready k (Nat.le_of_not_lt late))
  obtain ⟨r, result, final⟩ := ends
  refine ⟨r, result, final.erased, fun b outside => ?_⟩
  by_cases member : b ∈ e.lh.block
  · rw [final.home b member]
    cases e.kept <;> simp [Episode.update, Episode.store, bread, member]
  · rw [final.others b member outside]
    simp [Episode.update, member]

/-- Whatever transactions follow one another and wherever the machine stops in them, every
recovery succeeds, and outside the log area the disk ends up as if the kept transactions
alone had been made, each at once, in their order. -/
theorem history_of_whole_transactions (l : Log) (history : List Episode) (d : Disk)
    (legal : ∀ e ∈ history, ∀ d, headerCount (d l.start) = 0 → Ready (e.log l) (e.store d))
    (erased : headerCount (d l.start) = 0) :
    ∃ r, history.foldlM (fun d e => e.run l d) d = some r ∧ headerCount (r l.start) = 0 ∧
      ∀ b, ¬ InLog l b → r b = (history.filter Episode.kept).foldl (fun d e => e.update d) d b := by
  -- the disk agrees with an abstract one outside the log from episode to episode
  suffices h : ∀ a : Disk, (∀ b, ¬ InLog l b → d b = a b) → ∃ r,
      history.foldlM (fun d e => e.run l d) d = some r ∧ headerCount (r l.start) = 0 ∧
      ∀ b, ¬ InLog l b → r b = (history.filter Episode.kept).foldl (fun d e => e.update d) a b by
    exact h d fun _ _ => rfl
  induction history generalizing d with
  | nil => exact fun a same => ⟨d, rfl, erased, same⟩
  | cons e rest ih =>
    intro a same
    obtain ⟨mid, ran, clear, blocks⟩ := Episode.run_spec (legal e (by simp) d erased)
    obtain ⟨r, later⟩ := ih mid (fun e member => legal e (by simp [member])) clear
      (if e.kept then e.update a else a) (by
        intro b outside
        rw [blocks b outside, Episode.update, same b outside]
        cases e.kept <;> rfl)
    refine ⟨r, ?_⟩
    cases kept : e.kept <;> simpa [ran, kept] using later

/-- A transaction stopped in its home writes and again in its recovery. -/
def stopped : Episode := ⟨twoBlockLog.lh, fun _ _ => 7, some (4, [1])⟩

theorem history_of_whole_transactions_stopped : ∃ r,
    [stopped, stopped].foldlM (fun d e => e.run twoBlockLog d) (fun _ _ => 0) = some r ∧ r 60 0 = 7 := by
  have outside : ∀ b ∈ [60, 61], ¬ InLog twoBlockLog b := by
    simp [InLog, twoBlockLog, Param.logSize, Param.maxOpBlocks]
  obtain ⟨r, result, -, blocks⟩ := history_of_whole_transactions twoBlockLog [stopped, stopped]
    (fun _ _ => 0) (by simpa using fun _ => (⟨by decide, by decide, by decide, outside, ·⟩)) (by decide)
  refine ⟨r, result, ?_⟩
  rw [blocks 60 (outside 60 (by simp))]
  rfl

end ColorXv6.Logging.History
