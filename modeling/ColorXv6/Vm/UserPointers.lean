import ColorXv6.Vm.Boot
import ColorXv6.Vm.PageFault

/-!
The size of a process bounds the addresses the kernel accepts from it. `sys_sbrk`
adds a positive increment without comparing the sum with KERNBASE; this is the
one step by which a process can get a size above it.
-/
namespace ColorXv6.Vm.UserPointers
open Lib.LittleEndian Lib.Wp Lib.Runs Param Mmu Kalloc PageDir Footprint Exec Process Kernel Boot
open ProcSpaces

/-! What the checks accept lies below the size, and below KERNBASE with it. -/

theorem scan_bound (byte : Bytes) {s n found : Nat} (result : scan byte s n = some found) :
    s ≤ found ∧ found < s + n := by
  induction n generalizing s with
  | zero => simp [scan] at result
  | succ n ih =>
    unfold scan at result
    split at result
    · cases result
      omega
    · have later := ih result
      omega

theorem accepted_below {sz start length : Nat} (small : sz ≤ kernBase)
    (accepted : Accepted sz start length) : start + length ≤ sz := by
  unfold kernBase at small
  cases accepted with
  | fetchint _ bounded ok =>
    simp only [fetchint, Bool.not_eq_true', Bool.or_eq_false_iff, decide_eq_false_iff_not] at ok
    unfold word at ok
    omega
  | argptr _ size bounded int ok =>
    simp only [argptr, Bool.not_eq_true', Bool.or_eq_false_iff, decide_eq_false_iff_not] at ok
    unfold addInt at ok
    omega
  | fetchstr byte _ n ok =>
    unfold fetchstr at ok
    split at ok
    · cases ok
    · obtain ⟨found, result, rfl⟩ := Option.map_eq_some_iff.mp ok
      have bound := scan_bound byte result
      omega

variable {ld : Link} {s : Machine ld} {n : Int}

/-! Every step but a growing `sbrk` leaves the sizes within the user half. -/

def InUserHalf (sz : Nat) (_ : Option (PgDir ld)) : Prop := sz ≤ kernBase

theorem bounded_closed : Closed (@InUserHalf ld) where
  gone small := small
  starts _ _ k := wp_mono (wp_true _ k fun _ => True.intro) fun _ _ _ _ _ k' =>
    wp_mono (wp_true _ k' fun _ => True.intro) fun _ _ _ => show pgSize ≤ kernBase by decide
  copies _ _ k small := wp_mono (wp_true _ k fun _ => True.intro) fun _ _ _ _ _ => small
  builds img argv k := wp_mono (buildImage_count 0 k img argv) fun _ _ spec image found =>
    (spec.2 image found).le
  frees _ _ _ k small := wp_mono (wp_true _ k fun _ => True.intro) fun _ _ _ => small
  shrinks {d sz} newsz k small _ := by
    unfold deallocuvm
    split
    · exact wp_ret ⟨small, small⟩
    · apply wp_seq (wp_true _ _ fun _ => True.intro)
      intro d' k' _
      exact wp_ret ⟨small, by unfold InUserHalf; dsimp only; omega⟩

theorem bounded_pageFault (bounded : Bounded s) {p va : Nat} (err : Nat) (word : va < 2 ^ 32) :
    wp (pageFault p va err) (fun _ t => Bounded t) anyHalt s := by
  cases dir : (s.proc p).pgdir with
  | none =>
    apply wp_mono (PageFault.spaces_pageFault va err dir)
    intro _ t same q
    exact (congrArg Prod.fst (congrFun same q)).trans_le (bounded q)
  | some d =>
    apply wp_mono (PageFault.wp_pageFault word dir fun _ _ => True.intro)
    rintro _ t ⟨untouched, -⟩ q
    by_cases here : q = p
    · rw [here, untouched.size]
      exact bounded p
    · rw [untouched.others q here]
      exact bounded q

theorem addInt_grow {sz : Nat} (small : sz ≤ kernBase) (pos : 0 ≤ n) (high : n < 2 ^ 31) :
    (addInt sz n : Int) = sz + n := by
  unfold kernBase at small
  unfold addInt
  omega

/-- A growing `sbrk` step keeps the break of its process within the user half. -/
def SbrkRoom (s : Machine ld) : Action → Prop
  | .sbrk p n => 0 ≤ n → (s.proc p).sz + n ≤ kernBase
  | _ => True

/-- The machine after a growing `sbrk`. -/
def grown (s : Machine ld) (p : Nat) (n : Int) : Machine ld := { s with
  proc := fun q => if q = p then { s.proc q with sz := addInt (s.proc q).sz n } else s.proc q }

theorem sbrk_grows (s : Machine ld) (p : Nat) (pos : 0 ≤ n) :
    perform (.sbrk p n) s = .ok ((), grown s p n) := by
  have returns : wp (perform (.sbrk p n)) (fun _ t => t = grown s p n) (fun _ => False) s := by
    unfold perform ignore sysSbrk
    simp only [wp_bind, wp_get, if_pos pos]
    apply wp_modifyProc
    exact wp_ret (wp_ret rfl)
  obtain ⟨_, t, done, rfl⟩ := wp_returns returns
  exact done

variable {t : Machine ld}

theorem sbrk_bounded_iff (bounded : Bounded s) {p : Nat}
    (step : Step s (.sbrk p n) t) : Bounded t ↔ SbrkRoom s (.sbrk p n) := by
  obtain ⟨⟨_, _, low, high⟩, done⟩ := step
  by_cases pos : 0 ≤ n
  · rw [sbrk_grows s p pos] at done
    cases done
    have sum := addInt_grow (bounded p) pos high
    have top : ((grown s p n).proc p).sz = addInt (s.proc p).sz n := congrArg Proc.sz (if_pos rfl)
    constructor
    · intro small _
      have here := small p
      omega
    · intro room q
      by_cases here : q = p
      · have fits := room pos
        rw [here, top]
        omega
      · have same : (grown s p n).proc q = s.proc q := if_neg here
        rw [same]
        exact bounded q
  · have after := wp_ok (wp_ignore
      (fit_shrink (F := InUserHalf) bounded bounded_closed (bounded p) (by omega))) done
    exact ⟨fun _ grows => absurd grows pos, fun _ => after⟩

/-- A step from a bounded state leads to a bounded state unless it is a growing `sbrk`
past the bound. -/
theorem bounded_step_iff {act : Action} (bounded : Bounded s)
    (step : Step s act t) : Bounded t ↔ SbrkRoom s act := by
  by_cases sbrk : ∃ p n, act = .sbrk p n
  · obtain ⟨p, n, rfl⟩ := sbrk
    exact sbrk_bounded_iff bounded step
  · have other : ∀ p n, act ≠ .sbrk p n := fun p n same => sbrk ⟨p, n, same⟩
    have faults : ∀ p user cr2 code err, act = .fault p user cr2 code →
        wp (pageFault p cr2 err) (fun _ t => Bounded t) anyHalt s := by
      rintro p user cr2 code err rfl
      exact bounded_pageFault bounded err step.1.2.2
    have after := wp_ok (fit_perform (F := InUserHalf) bounded bounded_closed bounded other
      faults) step.2
    have room : SbrkRoom s act := by
      unfold SbrkRoom
      split
      · exact absurd rfl (other _ _)
      · exact True.intro
    exact ⟨fun _ => room, fun _ => after⟩

theorem bounded_run {acts : List Action} (bounded : Bounded s)
    (run : Run (Guarded SbrkRoom Step) s acts t) : Bounded t := by
  apply run.preserves Bounded _ bounded
  intro s act t before step
  exact (bounded_step_iff before step.2).mpr step.1

/-- From boot, and as long as no `sbrk` moves a break above KERNBASE, no process has a size
above it and no accepted pointer reaches it; and the first such `sbrk` is exactly what
ends that. -/
theorem user_ranges_below_kernBase {pages : List (Frame ld)} {mem : Nat → Bytes}
    {acts : List Action} {m : Machine ld}
    (run : Run (Guarded SbrkRoom Step) (powerOn pages mem) acts m) :
    (∀ p, (m.proc p).sz ≤ kernBase) ∧
      (∀ p start length, Accepted (m.proc p).sz start length → start + length ≤ kernBase) ∧
      ∀ act t, Step m act t → ((∀ p, (t.proc p).sz ≤ kernBase) ↔ SbrkRoom m act) := by
  have start : Bounded (powerOn pages mem) := fun _ => Nat.zero_le _
  have bounded := bounded_run start run
  refine ⟨bounded, ?_, fun act t step => bounded_step_iff bounded step⟩
  intro p start length accepted
  exact (accepted_below (bounded p) accepted).trans (bounded p)

/-- Where every state is within the user half, there was room for each `sbrk`. -/
theorem room_of_bounded {acts : List Action}
    (run : Run (Guarded (fun s _ => Bounded s) Step) s acts t) (last : Bounded t) :
    Run (Guarded SbrkRoom Step) s acts t := by
  induction run with
  | nil s => exact .nil s
  | cons first later ih =>
    refine .cons ⟨(bounded_step_iff first.1 first.2).mp ?_, first.2⟩ (ih last)
    cases later with
    | nil => exact last
    | cons next _ => exact next.1

theorem sbrk_grow_step {p : Nat} (slot : p < nproc) (running : (s.proc p).state = .running)
    (pos : 0 ≤ n) (high : n < 2 ^ 31) : Step s (.sbrk p n) (grown s p n) :=
  ⟨⟨slot, running, by omega, high⟩, sbrk_grows s p pos⟩

/-- The first process makes a pipe, and then a second descriptor for its write end. -/
theorem pipe_dup_steps {m : Machine ld} {sz : Nat} (alone : Alone .running sz m)
    (left : 0 < m.kmem.freelist.length) :
    ∃ t u, Step m (.pipe 0) t ∧ Step t (.dup 0 1) u ∧ (u.proc 0).state = .running ∧
      (u.proc 0).sz = sz ∧ (u.proc 0).ofile 1 = some 1 ∧ (u.proc 0).ofile 2 = some 1 := by
  obtain ⟨state, size, -, closed, others, files, -⟩ := alone
  obtain ⟨⟨freelist, mem⟩, proc, file, pipes, initproc, nextpid, kpgdir, boot⟩ := m
  obtain ⟨page, rest, rfl⟩ := List.exists_cons_of_length_pos left
  have same : proc = fun q => if q = 0 then { proc 0 with ofile := fun _ => none } else {} := by
    funext q
    split
    · rename_i here
      rw [here, ← closed]
    · exact others q (by assumption)
  dsimp only at state size files
  subst files
  generalize proc 0 = first at *
  subst same
  exact ⟨_, _, ⟨⟨by decide, state⟩, rfl⟩, ⟨⟨by decide, state⟩, rfl⟩, state, size, rfl, rfl⟩

/-- The first process makes these calls and grows by two pages. -/
theorem small_process_calls :
    ∃ m, Run (Guarded (fun s _ => Bounded s) Step) smallMachine
        (booting ++ [.pipe 0, .dup 0 1, .sbrk 0 8192]) m ∧ Bounded m ∧
      (m.proc 0).sz = 12288 ∧ (m.proc 0).ofile 1 = some 1 ∧ (m.proc 0).ofile 2 = some 1 := by
  obtain ⟨m, run, alone, ten⟩ := small_process_runs
  obtain ⟨t, u, pipe, dup, running, size, first, second⟩ := pipe_dup_steps alone (by omega)
  have sbrk := sbrk_grow_step (n := 8192) (by decide) running (by decide) (by decide)
  have start := alone.bounded (by decide)
  have piped := (bounded_step_iff start pipe).mpr True.intro
  have duped := (bounded_step_iff piped dup).mpr True.intro
  have room : SbrkRoom u (.sbrk 0 8192) := by
    intro _
    rw [size]
    decide
  refine ⟨_, ((run.snoc ⟨start, pipe⟩).snoc ⟨piped, dup⟩).snoc ⟨duped, sbrk⟩,
    (bounded_step_iff duped sbrk).mpr room, ?_, first, second⟩
  exact (congrArg (addInt · 8192) size).trans (by decide)

theorem user_ranges_below_kernBase_first_process :
    ∃ m : Machine smallLink,
      Run (Guarded SbrkRoom Step) smallMachine (booting ++ [.pipe 0, .dup 0 1, .sbrk 0 8192]) m ∧
      (m.proc 0).sz = 12288 ∧ ∀ p, (m.proc p).sz ≤ kernBase := by
  obtain ⟨m, run, last, size, -⟩ := small_process_calls
  have guarded := room_of_bounded run last
  exact ⟨m, guarded, size, (user_ranges_below_kernBase guarded).1⟩

/-- The first process has grown by `n` bytes and touched none of them. -/
theorem grown_process (n : Int) (top : Nat) (pos : 0 ≤ n) (high : n < 2 ^ 31)
    (sum : addInt pgSize n = top) :
    ∃ m, Run Step smallMachine (booting ++ [.sbrk 0 n]) m ∧ Alone .running top m ∧
      10 ≤ m.kmem.freelist.length := by
  obtain ⟨m, run, alone, ten⟩ := small_process_runs
  refine ⟨_, (run.mono fun _ _ _ guarded => guarded.2).snoc
    (sbrk_grow_step (by decide) alone.state pos high), ?_, ten⟩
  exact { alone with
    size := sum ▸ congrArg (addInt · n) alone.size
    others := fun q other => (if_neg other).trans (alone.others q other) }

/-- One `sbrk` of the first process puts its break above KERNBASE, and the kernel then
accepts a pointer to kernel memory. -/
theorem sbrk_past_kernBase :
    ∃ m, Run Step smallMachine (booting ++ [.sbrk 0 2147483647]) m ∧
      kernBase < (m.proc 0).sz ∧ Accepted (m.proc 0).sz kernBase 4 := by
  obtain ⟨m, run, alone, -⟩ := grown_process 2147483647 _ (by decide) (by decide) rfl
  refine ⟨m, run, ?_, ?_⟩
  · rw [alone.size]
    decide
  · rw [alone.size]
    exact .argptr kernBase 4 (by decide) (by decide) (by decide)

end ColorXv6.Vm.UserPointers
