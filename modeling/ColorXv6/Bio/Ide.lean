import ColorXv6.Lib.Cycle
import ColorXv6.Lib.Runs
import ColorXv6.Param
import Mathlib.Data.List.Perm.Subperm
import Mathlib.Logic.Function.Basic

/-!
ide.c: the queue of disk requests. What runs under idelock is one step; a panic is no
step. A call of `iderw` is named by its buffer, which its process holds. The contents of
blocks are left out, and so are the ports: `command` is what the disk has been told to
do last, until its interrupt.
-/
namespace ColorXv6.Bio.Ide
open Function Lib.Cycle Lib.Runs Param

structure Buf where
  valid : Bool
  dirty : Bool
  dev : Nat
  blockno : Nat

/-- B_VALID is set and B_DIRTY is not. -/
def Buf.synced (b : Buf) : Bool := b.valid && !b.dirty

structure Command where
  buf : Nat
  write : Bool
deriving DecidableEq

structure State where
  /-- `idequeue` for `none`, and `qnext` of a buffer. As a value `none` is the null pointer. -/
  link : Option Nat → Option Nat
  buf : Nat → Buf
  havedisk1 : Bool
  /-- A process is in `iderw` with this buffer. -/
  call : Nat → Bool
  command : Option Command
  /-- All requests, all commands given to the disk, and those it has completed. -/
  arrived : List Command
  started : List Command
  served : List Command

def idestart (s : State) (b : Nat) : Option State :=
  if (s.buf b).blockno ≥ fsSize then none
  else
    let c : Command := ⟨b, (s.buf b).dirty⟩
    some { s with command := some c, started := s.started ++ [c] }

/-- The loop over `pp`. No queue is longer than the number of buffers. -/
def lastLink (link : Option Nat → Option Nat) : Nat → Option Nat → Option Nat
  | 0, pp => pp
  | n + 1, pp => if link pp = none then pp else lastLink link n (link pp)

/-- Append `b` to the queue. -/
def append (s : State) (b : Nat) : State :=
  let link := update s.link (some b) none
  { s with
    link := update link (lastLink link nbuf none) (some b)
    call := update s.call b true
    arrived := s.arrived ++ [⟨b, (s.buf b).dirty⟩] }

/-- `iderw` up to the loop that waits. -/
def iderw (s : State) (b : Nat) : Option State :=
  if (s.buf b).synced then none
  else if (s.buf b).dev ≠ 0 ∧ !s.havedisk1 then none
  else
    let s := append s b
    if s.link none = some b then idestart s b else some s

/-- The first queued buffer leaves the queue. -/
def finish (s : State) (b : Nat) : State :=
  { s with
    link := update s.link none (s.link (some b))
    buf := update s.buf b { s.buf b with valid := true, dirty := false } }

def ideintr (s : State) : Option State :=
  match s.link none with
  | none => some s
  | some b =>
    let s := finish s b
    match s.link none with
    | none => some s
    | some c => idestart s c

inductive Act where
  /-- the process that holds `b`, and has left it so, calls `iderw` -/
  | iderw (b : Nat) (contents : Buf)
  /-- it wakes up and tests the flags -/
  | wake (b : Nat)
  /-- the disk has completed its command -/
  | intr

def next (s : State) : Act → Option State
  | .iderw b contents =>
    if b < nbuf ∧ s.call b = false then iderw { s with buf := update s.buf b contents } b else none
  | .wake b =>
    if s.call b then
      if (s.buf b).synced then some { s with call := update s.call b false } else some s
    else none
  | .intr =>
    match s.command with
    | none => none
    | some c => ideintr { s with command := none, served := s.served ++ [c] }

/-- The request that a call makes. -/
def request : Act → Option Command
  | .iderw b contents => some ⟨b, contents.dirty⟩
  | _ => none

def completes : Act → Bool
  | .intr => true
  | _ => false

def boot (buf : Nat → Buf) (havedisk1 : Bool) : State :=
  ⟨fun _ => none, buf, havedisk1, fun _ => false, none, [], [], []⟩

/-! ### The queue as a list -/

/-- The links of the queue, of which the null pointer is the end. -/
def places (pending : List Command) : List (Option Nat) := none :: pending.map fun c => some c.buf

/-- The loop ends at the last link of the queue. -/
theorem linked_concat {link : Option Nat → Option Nat} {q : List (Option Nat)} {pp : Option Nat} {b n : Nat}
    (linked : Linked link none (pp :: q)) (distinct : (pp :: q).Nodup) (inside : none ∉ q)
    (fresh : some b ∉ pp :: q) (ends : link (some b) = none) (enough : q.length ≤ n) :
    lastLink link n pp ∈ pp :: q ∧
      Linked (update link (lastLink link n pp) (some b)) none (pp :: q ++ [some b]) := by
  induction q generalizing pp n with
  | nil =>
    have last : lastLink link n pp = pp := by cases n <;> simp_all [lastLink, Linked]
    simp_all [Linked]
  | cons a q ih =>
    obtain ⟨m, rfl⟩ : ∃ m, n = m + 1 := ⟨n - 1, by simp at enough; omega⟩
    obtain ⟨member, later⟩ := ih linked.2 (by simp_all) (by simp_all) (by simp_all) (by simpa using enough)
    have here : link pp = a := linked.1
    rw [lastLink, here, if_neg (by simp_all [eq_comm])]
    refine ⟨List.mem_cons_of_mem _ member, ?_, later⟩
    rw [update_of_ne (by rintro rfl; exact (List.nodup_cons.mp distinct).1 member)]
    exact here

/-- The requests that wait or are being served are `pending`. -/
structure Serving (s : State) (pending : List Command) : Prop where
  arrived : s.arrived = s.served ++ pending
  queue : Linked s.link none (places pending)
  distinct : (places pending).Nodup
  command : s.command = pending.head?
  started : s.started = s.served ++ s.command.toList

structure Inv (s : State) (pending : List Command) : Prop extends Serving s pending where
  waits : ∀ c ∈ pending, c.buf < nbuf ∧ s.call c.buf = true
  unsynced : ∀ c ∈ pending, (s.buf c.buf).dirty = c.write ∧ (s.buf c.buf).synced = false

section Steps
variable {s t : State} {pending : List Command}

theorem Inv.length_le (inv : Inv s pending) : pending.length ≤ nbuf := by
  have subset : places pending ⊆ none :: (List.range nbuf).map some := by
    intro b member
    rcases List.mem_cons.mp member with rfl | listed
    · simp
    · obtain ⟨c, inside, rfl⟩ := List.mem_map.mp listed
      simpa using (inv.waits c inside).1
  simpa [places] using (List.subperm_of_subset inv.distinct subset).length_le

/-- No request is left for a buffer that agrees with the disk. -/
theorem Inv.not_pending (inv : Inv s pending) {b : Nat} (synced : (s.buf b).synced = true) :
    ∀ c ∈ pending, c.buf ≠ b := by
  rintro c member rfl
  rw [(inv.unsynced c member).2] at synced
  cases synced

theorem idestart_cases {b : Nat} (result : idestart s b = some t) :
    t = { s with command := some ⟨b, (s.buf b).dirty⟩, started := s.started ++ [⟨b, (s.buf b).dirty⟩] } := by
  unfold idestart at result
  split at result
  · cases result
  · exact (Option.some.inj result).symm

/-- A request joins the queue, and the disk if it is the only one. -/
theorem inv_iderw (inv : Inv s pending) {b : Nat} {contents : Buf} (inside : b < nbuf)
    (idle : s.call b = false) (result : iderw { s with buf := update s.buf b contents } b = some t) :
    Inv t (pending ++ [⟨b, contents.dirty⟩]) := by
  have fresh : ∀ c ∈ pending, c.buf ≠ b := by
    rintro c member rfl
    rw [(inv.waits c member).2] at idle
    cases idle
  have queue : Linked (append s b).link none (places (pending ++ [⟨b, contents.dirty⟩])) := by
    have new : some b ∉ places pending := by simpa [places] using fresh
    have cleared : Linked (update s.link (some b) none) none (places pending) :=
      inv.queue.congr fun x member => update_of_ne (by rintro rfl; exact new member) _ _
    rw [places, List.map_append]
    exact (linked_concat cleared inv.distinct (by simp) new (update_self ..)
      (by simpa using inv.length_le)).2
  unfold iderw at result
  simp only [update_self, Option.ite_none_left_eq_some] at result
  obtain ⟨unsynced, -, result⟩ := result
  have joins {command : Option Command} {started : List Command}
      (head : command = (pending ++ [(⟨b, contents.dirty⟩ : Command)]).head?)
      (told : started = s.served ++ command.toList) :
      Inv { append { s with buf := update s.buf b contents } b with command, started }
        (pending ++ [⟨b, contents.dirty⟩]) := by
    refine ⟨⟨by simp [append, inv.arrived], queue, ?_, head, told⟩, ?_, ?_⟩
    · have distinct := inv.distinct
      simp_all [places, List.nodup_append]
    all_goals
      intro c member
      rcases List.mem_append.mp member with old | new
    · simpa [append, fresh c old] using inv.waits c old
    · simpa [append, List.mem_singleton.mp new] using inside
    · simpa [append, fresh c old] using inv.unsynced c old
    · simpa [append, List.mem_singleton.mp new] using unsynced
  have first : (append { s with buf := update s.buf b contents } b).link none =
      (places (pending ++ [(⟨b, contents.dirty⟩ : Command)])).tail.headD none := queue.1
  rw [first] at result
  have command := inv.command
  have started := inv.started
  cases pending with
  | nil =>
    rw [if_pos (by simp [places])] at result
    rw [idestart_cases result]
    have same : (append { s with buf := update s.buf b contents } b).buf b = contents := update_self _ _ _
    rw [same]
    exact joins rfl (by simp_all [append])
  | cons c rest =>
    rw [if_neg (by simpa [places] using fresh c (by simp))] at result
    cases result
    exact joins command started

/-- The interrupt takes the served request off the queue and starts the next. -/
theorem inv_ideintr (inv : Inv s pending) {c : Command} (active : s.command = some c)
    (result : ideintr { s with command := none, served := s.served ++ [c] } = some t) :
    Inv t pending.tail := by
  have head := inv.command
  rw [active] at head
  obtain ⟨rest, rfl⟩ : ∃ rest, pending = c :: rest := ⟨_, List.eq_cons_of_mem_head? head.symm⟩
  obtain ⟨others, distinct⟩ := List.nodup_cons.mp (List.nodup_cons.mp inv.distinct).2
  have other : ∀ d ∈ rest, d.buf ≠ c.buf := fun d member same =>
    others (List.mem_map.mpr ⟨d, member, congrArg some same⟩)
  have queue : Linked (update s.link none (s.link (some c.buf))) none (places rest) := by
    refine ⟨(update_self _ _ _).trans inv.queue.2.1, inv.queue.2.2.congr fun x member => ?_⟩
    exact update_of_ne (by rintro rfl; simp at member) _ _
  have leaves {command : Option Command} {started : List Command} (head : command = rest.head?)
      (told : started = s.served ++ [c] ++ command.toList) :
      Inv { finish { s with served := s.served ++ [c] } c.buf with command, started } rest := by
    refine ⟨⟨by simp [finish, inv.arrived], queue, ?_, head, told⟩,
      fun d member => inv.waits d (by simp [member]), fun d member => ?_⟩
    · exact List.nodup_cons.mpr ⟨by simp, distinct⟩
    · simpa [finish, other d member] using inv.unsynced d (by simp [member])
  have started := inv.started
  rw [active] at started
  have first : s.link none = some c.buf := inv.queue.1
  have second : s.link (some c.buf) = (rest.map fun d => some d.buf).headD none := inv.queue.2.1
  simp only [ideintr, first, finish, update_self, second] at result
  cases rest with
  | nil =>
    cases result
    simpa [finish, second] using leaves rfl (by simpa using started)
  | cons d rest =>
    have unchanged : update s.buf c.buf { s.buf c.buf with valid := true, dirty := false } d.buf =
        s.buf d.buf :=
      update_of_ne (other d (by simp)) _ _
    rw [idestart_cases result]
    simp only [unchanged, (inv.unsynced d (by simp)).1]
    simpa [finish, second] using leaves rfl (by simp [started])

theorem inv_next (inv : Inv s pending) {a : Act} (step : next s a = some t) : ∃ after, Inv t after := by
  cases a with
  | iderw b contents =>
    simp only [next, Option.ite_none_right_eq_some] at step
    exact ⟨_, inv_iderw inv step.1.1 step.1.2 step.2⟩
  | wake b =>
    simp only [next, Option.ite_none_right_eq_some] at step
    obtain ⟨-, step⟩ := step
    split at step
    · rename_i synced
      cases step
      refine ⟨pending, { inv.toServing with }, ?_, inv.unsynced⟩
      intro c member
      simpa [inv.not_pending synced c member] using inv.waits c member
    · cases step
      exact ⟨pending, inv⟩
  | intr =>
    cases active : s.command with
    | none => simp [next, active] at step
    | some c =>
      simp only [next, active] at step
      exact ⟨_, inv_ideintr inv active step⟩

/-- A process leaves `iderw` when its buffer agrees with the disk. -/
theorem Inv.returns (inv : Inv s pending) {b : Nat} (calling : s.call b = true)
    (step : next s (.wake b) = some t) (left : t.call b = false) :
    (∀ c ∈ pending, c.buf ≠ b) ∧ (t.buf b).valid = true ∧ (t.buf b).dirty = false := by
  simp only [next, calling, if_true] at step
  split at step
  · rename_i synced
    cases step
    exact ⟨inv.not_pending synced, by simpa [Buf.synced] using synced⟩
  · rw [← Option.some.inj step, calling] at left
    cases left

/-- What a step adds to the requests and to the completed commands. -/
theorem next_logs {a : Act} (step : next s a = some t) :
    t.arrived = s.arrived ++ (request a).toList ∧
      t.served.length = s.served.length + (if completes a then 1 else 0) := by
  cases a <;> simp only [next, iderw, ideintr, idestart, append, finish] at step <;> split at step <;>
    grind [request, completes]

end Steps

section Traces
variable {buf : Nat → Buf} {havedisk1 : Bool} {acts : List Act} {s : State}

theorem inv_run (run : Run (fun s a t => next s a = some t) (boot buf havedisk1) acts s) :
    ∃ pending, Inv s pending :=
  run.preserves (fun s => ∃ pending, Inv s pending)
    (fun _ _ _ inv step => inv.elim fun _ inv => inv_next inv step)
    ⟨[], ⟨by simp [boot], by simp [boot, places, Linked], by simp [places], rfl, rfl⟩,
      by simp, by simp⟩

theorem run_logs {t : State} (run : Run (fun s a t => next s a = some t) s acts t) :
    t.arrived = s.arrived ++ acts.filterMap request ∧
      t.served.length = s.served.length + acts.countP completes := by
  induction run with
  | nil => simp
  | @cons _ _ _ a _ first _ ih =>
    obtain ⟨arrived, served⟩ := next_logs first
    rw [ih.1, ih.2, arrived, served, List.countP_cons]
    exact ⟨by cases found : request a <;> simp [found], by omega⟩

/--
Requests are served in the order they arrive, each is started once and as what it was,
and the head of the queue is what the disk is doing. A process leaves `iderw` when none
of the requests for its buffer is left.
-/
theorem disk_serves_in_order
    (run : Run (fun s a t => next s a = some t) (boot buf havedisk1) acts s) :
    ∃ pending, Serving s pending ∧ ∀ b t, s.call b = true → next s (.wake b) = some t → t.call b = false →
      (∀ c ∈ pending, c.buf ≠ b) ∧ (t.buf b).valid = true ∧ (t.buf b).dirty = false := by
  obtain ⟨pending, inv⟩ := inv_run run
  exact ⟨pending, inv.toServing, fun b t calling step left => inv.returns calling step left⟩

/-- Two requests, of which the first has been served. -/
theorem disk_serves_in_order_two :
    ∃ s pending, Serving s pending ∧ s.command = some ⟨2, true⟩ ∧ s.call 1 = true ∧
      ∀ t, next s (.wake 1) = some t → t.call 1 = false → ∀ c ∈ pending, c.buf ≠ 1 := by
  obtain ⟨s, run, facts⟩ := execute_exists next (boot (fun _ => ⟨false, false, 0, 0⟩) false)
    [.iderw 1 ⟨false, false, 0, 7⟩, .iderw 2 ⟨true, true, 0, 9⟩, .intr]
    (fun s => s.command = some ⟨2, true⟩ && s.call 1) (by decide +kernel)
  obtain ⟨pending, serving, returns⟩ := disk_serves_in_order run
  simp only [Bool.and_eq_true, decide_eq_true_eq] at facts
  exact ⟨s, pending, serving, facts.1, facts.2, fun t step left => (returns 1 t facts.2 step left).1⟩

/--
After `n` interrupts the disk has been told to do what the first `n + 1` calls asked for,
or all of them; the queue leads through the calls from the `n`th on, of which the first is
the command in flight.
-/
theorem disk_takes_calls_in_turn
    (run : Run (fun s a t => next s a = some t) (boot buf havedisk1) acts s) :
    let calls := acts.filterMap request
    let n := acts.countP completes
    n ≤ calls.length ∧ s.started = calls.take (n + 1) ∧ s.command = calls[n]? ∧
      Linked s.link none (places (calls.drop n)) ∧ (places (calls.drop n)).Nodup ∧
      (s.command = none ↔ s.link none = none) ∧
      ∀ b t, s.call b = true → next s (.wake b) = some t → t.call b = false →
        (∀ c ∈ calls.drop n, c.buf ≠ b) ∧ (t.buf b).valid = true ∧ (t.buf b).dirty = false := by
  intro calls n
  obtain ⟨pending, inv⟩ := inv_run run
  obtain ⟨arrived, count⟩ := run_logs run
  have all : calls = s.served ++ pending := by rw [← inv.arrived, arrived]; rfl
  have count : n = s.served.length := by rw [count]; simp [boot, n]
  have rest : calls.drop n = pending := by rw [all, count, List.drop_left]
  have command : s.command = calls[n]? := by rw [inv.command, ← rest, List.head?_drop]
  refine ⟨by simp [all, count], ?_, command, rest ▸ inv.queue, rest ▸ inv.distinct, ?_,
    fun b t calling step left => rest ▸ inv.returns calling step left⟩
  · rw [inv.started, command, List.take_add_one, all, count, List.take_left]
  · rw [inv.queue.1, inv.command]
    cases pending <;> simp

/-- The first of two requests has been served. -/
theorem disk_takes_calls_in_turn_two :
    ∃ s : State, s.started = [⟨1, false⟩, ⟨2, true⟩] ∧ s.command = some ⟨2, true⟩ ∧ s.link none = some 2 := by
  obtain ⟨s, run, facts⟩ := execute_exists next (boot (fun _ => ⟨false, false, 0, 0⟩) false)
    [.iderw 1 ⟨false, false, 0, 7⟩, .iderw 2 ⟨true, true, 0, 9⟩, .intr] (fun _ => true)
    (by decide +kernel)
  have turn := disk_takes_calls_in_turn run
  exact ⟨s, turn.2.1, turn.2.2.1, turn.2.2.2.1.1⟩

end Traces

end ColorXv6.Bio.Ide
