import ColorXv6.User.HeapIntegrity
import ColorXv6.Vm.Mmu

/-!
`malloc` over the `sbrk` and the page faults of the kernel, for requests of any size. The number
of units is computed in 32 bits, and the bytes that `morecore` asks for are passed as an int.
`sbrk` only moves the break; a header is the first store in a page that may not be there.
-/
namespace ColorXv6.User.MallocSizes
open Lib.Row Malloc FreeList HeapOps HeapIntegrity Vm.Mmu

/-- sys_sbrk as far as the break goes: the word it returns, and the new break. From 2^31 on `n` is
negative, and `growproc` takes what `deallocuvm` returns: the old size if the new one is not smaller. -/
def sysSbrk (brk n : Nat) : Nat × Nat :=
  if n < 2 ^ 31 then (brk, (brk + n) % 2 ^ 32)
  else
    let sz := if (brk + n) % 2 ^ 32 < brk then (brk + n) % 2 ^ 32 else brk
    if sz = 0 then (2 ^ 32 - 1, brk) else (brk, sz)

/-- The pages that the process has, and those that the handler would find memory for. -/
structure Paging where
  present : Nat → Bool
  memory : Nat → Bool
  user : ∀ page, present page = true → page < kernBase

/-- A store at `a`: `trap` kills the process if the page is not there and the next page boundary is
above the break, the page is not below KERNBASE, or no memory is left. -/
def Paging.served (pages : Paging) (brk a : Nat) : Bool :=
  pages.present (pgRoundDown a) ||
    (decide (pgRoundUp a ≤ brk ∧ pgRoundDown a < kernBase) && pages.memory (pgRoundDown a))

inductive Outcome where
  | killed
  | returned (p : Nat) (h : Heap)

/-- The argument of `sbrk`. -/
def askedBytes (nu : Nat) : Nat := (if nu < 4096 then 4096 else nu) * 8 % 2 ^ 32

/-- The break after it. -/
def newBrk (brk nu : Nat) : Nat := (brk + askedBytes nu) % 2 ^ 32

def morecore (served : Nat → Nat → Bool) (turns : Nat) (h : Heap) (nu : Nat) : Option Outcome :=
  let (p, brk) := sysSbrk h.brk (askedBytes nu)
  let h := { h with brk }
  if p = 2 ^ 32 - 1 then some (.returned 0 h)
  else if served brk p then
    (free turns (h.write p { h.mem p with size := if nu < 4096 then 4096 else nu }) (plus p 1)).map
      fun h => .returned h.freep h
  else some .killed

def refill (served : Nat → Nat → Bool) (nunits turns : Nat) (h : Heap)
    (next : Heap → Nat → Option Outcome) : Option Outcome :=
  match morecore served turns h nunits with
  | none => none
  | some .killed => some .killed
  | some (.returned q h) => if q = 0 then some (.returned 0 h) else next h q

/-- A block cut from the end of a free one has its header where none was. -/
def hand (served : Nat → Nat → Bool) (r : Nat × Heap) : Outcome :=
  if served r.2.brk (minusOne r.1) then .returned r.1 r.2 else .killed

def malloc (served : Nat → Nat → Bool) (turns : Nat) (h : Heap) (nbytes : Nat) : Option Outcome :=
  let h := prepare h
  search (nunitsOf nbytes) (hand served) (refill served (nunitsOf nbytes)) turns h h.freep
    (h.mem h.freep).ptr

theorem Paging.served_low {pages : Paging} {brk a : Nat} (served : pages.served brk a = true) :
    a < kernBase := by
  have page : pgRoundDown a < kernBase := by
    rcases Bool.or_eq_true_iff.mp served with present | mapped
    · exact pages.user _ present
    · exact (of_decide_eq_true (Bool.and_eq_true_iff.mp mapped).1).2
  unfold pgRoundDown pgSize kernBase at *
  omega

section Search
variable {n : Nat} {h : Heap} {row : List Block} {served : Nat → Nat → Bool}

theorem refill_mono {turns extra : Nat} {next next' : Heap → Nat → Option Outcome} {o : Outcome}
    (onward : ∀ {t q r}, next t q = some r → next' t q = some r)
    (found : refill served n turns h next = some o) :
    refill served n (turns + extra) h next' = some o := by
  have more {o} (result : morecore served turns h n = some o) :
      morecore served (turns + extra) h n = some o := by
    unfold morecore at result ⊢
    dsimp only at result ⊢
    split at result
    · rwa [if_pos ‹_›]
    · rw [if_neg ‹_›]
      split at result
      · rw [if_pos ‹_›]
        obtain ⟨u, freed, rfl⟩ := Option.map_eq_some_iff.mp result
        exact Option.map_eq_some_iff.mpr ⟨u, free_mono freed extra, rfl⟩
      · rwa [if_neg ‹_›]
  unfold refill at found ⊢
  split at found
  · cases found
  · rename_i killed
    rw [more killed]
    exact found
  · rename_i q t grown
    rw [more grown]
    dsimp only
    split_ifs at found ⊢
    · exact found
    · exact onward found

theorem malloc_det {turns turns' nbytes : Nat} {o o' : Outcome}
    (result : malloc served turns h nbytes = some o) (result' : malloc served turns' h nbytes = some o') :
    o = o' := by
  have one := search_mono (e := turns') refill_mono result
  rw [Nat.add_comm, search_mono refill_mono result'] at one
  exact (Option.some.inj one).symm

/-- For a request that is positive as an int, `sbrk` grants it, though the header may be out of reach. -/
theorem morecore_eq (aligned : h.brk % 8 = 0) (fits : 8 * n < 2 ^ 31) (turns : Nat)
    (low : served (newBrk h.brk n) h.brk = true → h.brk < kernBase) :
    morecore served turns h n =
      if served (newBrk h.brk n) h.brk = true then
        (Malloc.morecore turns h n true).map fun r => .returned (r.1.getD 0) r.2
      else some .killed := by
  have asked : askedBytes n < 2 ^ 31 := by
    unfold askedBytes
    split <;> omega
  unfold morecore newBrk at *
  rw [sysSbrk, if_pos asked]
  dsimp only
  rw [if_neg (by omega)]
  split
  · rename_i reached
    have below := low reached
    unfold kernBase at below
    have room : h.brk + askedBytes n < 2 ^ 32 := by omega
    have granted : Malloc.sbrk h (askedBytes n) true =
        some (h.brk, { h with brk := h.brk + askedBytes n }) := if_pos ⟨rfl, room⟩
    unfold askedBytes at granted room ⊢
    unfold Malloc.morecore
    dsimp only
    rw [granted, Nat.mod_eq_of_lt room, Option.map_map]
    rfl
  · rfl

/-- Without more memory the loop gives up exactly when there is no room. -/
theorem gives_up_iff (holds : Holds h row) (nonzero : 0 < n) :
    (∃ turns t, search n id (Malloc.refill n false) turns h h.freep (h.mem h.freep).ptr =
      some (0, t)) ↔ ¬ Room h row n := by
  constructor
  · rintro ⟨turns, t, ended⟩ room
    obtain ⟨turns', p, u, row', found, taken⟩ := search_room holds nonzero room
    have same := search_mono (e := turns) HeapOps.refill_mono
      (found id (Malloc.refill n false))
    rw [Nat.add_comm, search_mono HeapOps.refill_mono ended] at same
    cases same
    obtain ⟨b, -, -, pointer, -⟩ := taken.useds
    omega
  · intro full
    obtain ⟨extra, asks⟩ := search_full holds full
    refine ⟨0 + extra, h, ?_⟩
    rw [asks, Malloc.refill, show Malloc.morecore 0 h n false = some (none, h) from rfl]

/-- The block that is handed out does not depend on which pages are there, as long as the new
memory can be given a header. -/
theorem search_hands (holds : Holds h row) (aligned : h.brk % 8 = 0) (nonzero : 0 < n)
    (fits : ¬ Room h row n → 8 * n < 2 ^ 31 ∧ h.brk < kernBase) :
    ∃ p t row', Taken h row n p t row' ∧
      ∀ served, (¬ Room h row n → served (newBrk h.brk n) h.brk = true) →
        ∃ turns, search n (hand served) (refill served n) turns h h.freep (h.mem h.freep).ptr =
          some (hand served (p, t)) := by
  by_cases room : Room h row n
  · obtain ⟨turns, p, t, row', found, taken⟩ := search_room holds nonzero room
    exact ⟨p, t, row', taken, fun served _ => ⟨turns, found _ _⟩⟩
  · obtain ⟨small, low⟩ := fits room
    obtain ⟨extra, asks⟩ := search_full holds room
    rcases search_grown true holds nonzero small with
      ⟨high, -⟩ | ⟨turns, t, turns', p, u, row', grown, nonnull, found, taken⟩
    · exact absurd (high rfl) (Nat.not_lt.mpr low.le)
    · refine ⟨p, u, row', taken, fun served reached => ⟨turns + turns' + extra, ?_⟩⟩
      rw [asks, refill, morecore_eq aligned small _ fun _ => low, if_pos (reached room),
        morecore_mono grown turns', Nat.add_comm]
      simp only [Option.map_some, Option.getD_some, if_neg nonnull]
      exact search_mono refill_mono (found _ _)

end Search

theorem width_mod (row : List Block) : width Block.bytes row % 8 = 0 := by
  induction row with
  | nil => rfl
  | cons b row ih =>
    rw [width_cons, Block.bytes]
    omega

/-- No free block is big enough: without more memory `malloc` would return 0. -/
def Asks (h : Heap) (nbytes : Nat) : Prop :=
  ∃ turns t, Malloc.malloc turns h nbytes false = some (0, t)

section Calls
variable {s : State} {nbytes : Nat} {served : Nat → Nat → Bool}

/-- After its first lines, where the break is a multiple of 8. -/
theorem prepared (good : Good s) (aligned : s.heap.start % 8 = 0) (nbytes : Nat) :
    ∃ row, Holds (prepare s.heap) row ∧ (prepare s.heap).start = s.heap.start ∧
      s.live.Perm (pointers (prepare s.heap).start row) ∧ (prepare s.heap).brk = s.heap.brk ∧
      s.heap.brk % 8 = 0 ∧ (Asks s.heap nbytes ↔ ¬ Room (prepare s.heap) row (nunitsOf nbytes)) := by
  obtain ⟨row, holds, start, live⟩ := prepare_holds good
  have brk : (prepare s.heap).brk = s.heap.brk := by
    unfold prepare
    split <;> rfl
  refine ⟨row, holds, start, start ▸ live, brk, ?_, gives_up_iff holds (Nat.succ_pos _)⟩
  have := width_mod row
  rw [← brk, holds.brk, start]
  omega

/-- The block that a call hands out does not depend on which pages are there, as long as new memory
can be given a header. -/
theorem malloc_hands (good : Good s) (aligned : s.heap.start % 8 = 0)
    (fits : Asks s.heap nbytes → 8 * nunitsOf nbytes < 2 ^ 31 ∧ s.heap.brk < kernBase) :
    ∃ p t, Good { heap := t, live := p :: s.live } ∧ t.start = s.heap.start ∧ 8 ≤ p ∧
      (t.mem (p - 8)).size = nunitsOf nbytes ∧ p - 8 + 8 * nunitsOf nbytes ≤ t.brk ∧
      ∀ served, (Asks s.heap nbytes → served (newBrk s.heap.brk (nunitsOf nbytes)) s.heap.brk = true) →
        ∃ turns, malloc served turns s.heap nbytes = some (hand served (p, t)) := by
  obtain ⟨row, holds, start, live, brk, whole, asks⟩ := prepared good aligned nbytes
  rw [← brk] at whole fits ⊢
  rw [asks] at fits ⊢
  obtain ⟨p, t, row', taken, hands⟩ := search_hands holds whole
    (show 0 < nunitsOf nbytes from Nat.succ_pos _) fits
  obtain ⟨perm, address, size, below, -⟩ := taken_live taken live
  exact ⟨p, t, .holds row' taken.holds perm, taken.start.trans start, address, size, below, hands⟩

theorem malloc_killed (good : Good s) (aligned : s.heap.start % 8 = 0) (asks : Asks s.heap nbytes)
    (fits : 8 * nunitsOf nbytes < 2 ^ 31)
    (unserved : ¬ served (newBrk s.heap.brk (nunitsOf nbytes)) s.heap.brk = true) :
    ∃ turns, malloc served turns s.heap nbytes = some .killed := by
  obtain ⟨row, holds, -, -, brk, whole, room⟩ := prepared good aligned nbytes
  rw [← brk] at whole unserved
  obtain ⟨extra, asking⟩ := search_full holds (room.mp asks)
  refine ⟨0 + extra, (asking _ _ 0).trans ?_⟩
  rw [refill, morecore_eq whole fits 0 fun reached => absurd reached unserved, if_neg unserved]

end Calls

/-- The headers that a call writes where none was can be written: that of the new memory, and that
of the block which the call hands out if no store fails. -/
structure Writable (pages : Paging) (h : Heap) (nbytes : Nat) : Prop where
  grown : Asks h nbytes → pages.served (newBrk h.brk (nunitsOf nbytes)) h.brk = true
  handed : ∀ turns p t, malloc (fun _ _ => true) turns h nbytes = some (.returned p t) →
    p ≠ 0 → pages.served t.brk (minusOne p) = true

/-- What a call of `malloc` with this size is meant to do: the units hold the bytes and a header, the
argument of `sbrk` is a positive int if it comes to that, and the call returns 0 or a pointer to that
many bytes below the break. -/
structure Sound (pages : Paging) (s : State) (nbytes : Nat) : Prop where
  units : nbytes + 8 ≤ 8 * nunitsOf nbytes
  positive : Asks s.heap nbytes →
    0 < askedBytes (nunitsOf nbytes) ∧ askedBytes (nunitsOf nbytes) < 2 ^ 31
  serves : ∃ turns p t, malloc pages.served turns s.heap nbytes = some (.returned p t) ∧
    Good { heap := t, live := if p = 0 then s.live else p :: s.live } ∧ t.start = s.heap.start ∧
    (p = 0 ∨ nbytes ≤ 8 * ((t.mem (p - 8)).size - 1) ∧ p + nbytes ≤ t.brk)

def Outcome.passes (o : Outcome) (test : Nat → Heap → Bool) : Bool :=
  match o with
  | .killed => false
  | .returned p t => test p t

theorem returned_of_test (test : Nat → Heap → Bool) (result : Option Outcome)
    (passed : result.any (fun o => o.passes test) = true) :
    ∃ p t, result = some (.returned p t) ∧ test p t = true := by
  obtain _ | _ | ⟨p, t⟩ := result
  · cases passed
  · cases passed
  · exact ⟨p, t, rfl, passed⟩

/-- A process that starts: no page of the heap is there yet, and memory is left. -/
def starting : Paging := ⟨fun _ => false, fun _ => true, fun _ present => by cases present⟩

/-- After `malloc(40000)` and `free`, a small block would be cut from the last page, and the end of
that page is above the break. -/
example : (malloc starting.served 3 (fresh (fun _ => ⟨7, 7⟩) 64 4096).heap 40000).any (fun o =>
    o.passes fun p t => (free 3 t p).any fun t => (malloc starting.served 3 t 8).any fun o =>
      !o.passes fun _ _ => true) = true := by
  decide +kernel

end ColorXv6.User.MallocSizes
