import ColorXv6.Lib.LittleEndian
import ColorXv6.Lib.Wp
import ColorXv6.Vm.Mmu

/-!
The physical page allocator of kalloc.c. A page is named by its physical
address. The intrusive list threaded through the free pages is a list of frames,
and a frame carries the conditions that `kfree` checks, so a page outside the
allocator's memory cannot be on the list.
-/
namespace ColorXv6.Vm.Kalloc
open Lib.LittleEndian Lib.Wp Mmu

/-- Where an operation on memory can stop without returning: one constructor for each
panic, and the last two for what the C source leaves undefined or never ends. -/
inductive Stop where
  | kfree
  | remap
  | physTopTooHigh
  | inituvmMoreThanAPage
  | loaduvmUnaligned
  | loaduvmMissing
  | clearpteu
  | freevmNoPgdir
  /-- A null pointer is dereferenced. -/
  | nullPointer
  /-- A loop whose counter wraps around and never meets its bound. -/
  | endless
deriving DecidableEq, Repr

/-- The symbols kernel.ld provides: `end` and `data`, in that script's order. -/
structure Link where
  kernEnd : Nat
  data : Nat
  data_aligned : data % pgSize = 0
  data_low : kernLink < data
  data_high : data < kernBase + physTop
  data_end : data ≤ kernEnd

/-- A page that `kfree` accepts. -/
structure Frame (ld : Link) where
  pa : Nat
  aligned : pa % pgSize = 0
  low : ld.kernEnd ≤ pa + kernBase
  high : pa < physTop

variable {ld : Link}

@[ext] theorem Frame.ext {f g : Frame ld} (same : f.pa = g.pa) : f = g := by
  cases f
  cases g
  simpa using same

instance : DecidableEq (Frame ld) := fun f g =>
  decidable_of_iff (f.pa = g.pa) ⟨Frame.ext, fun same => same ▸ rfl⟩

theorem Frame.pa_lt (f : Frame ld) : f.pa < 2 ^ 32 :=
  Nat.lt_trans f.high (by decide)

/-- Physical page 0 is never managed, so `pa == 0` in `deallocuvm` tells a bad entry. -/
theorem Frame.pa_pos (f : Frame ld) : 0 < f.pa := by
  have low := f.low
  have data := ld.data_end
  have link := ld.data_low
  unfold kernLink extMem at link
  omega

/-- The allocator and the contents of physical memory, page by page. -/
structure Kmem (ld : Link) where
  freelist : List (Frame ld)
  mem : Nat → Bytes

/-- The test at the head of `kfree`, on the kernel address `v`. -/
def frameOf? (v : Nat) : Option (Frame ld) :=
  if ok : v < 2 ^ 32 ∧ v % pgSize = 0 ∧ ld.kernEnd ≤ v ∧ v2p v < physTop then
    some {
      pa := v2p v
      aligned := by
        have aligned := ok.2.1
        unfold v2p word kernBase pgSize at *
        omega
      low := by
        have high := ok.2.2.2
        unfold v2p word kernBase physTop at *
        omega
      high := ok.2.2.2 }
  else none

def memset (pa : Nat) (c : UInt8) : Prog (Kmem ld) Stop Unit :=
  modify fun k => { k with mem := fun page => if page = pa then fun _ => c else k.mem page }

/-- Copy `n` bytes into the page `pa` from offset `off` on. -/
def storeBytes (pa off n : Nat) (src : Bytes) : Prog (Kmem ld) Stop Unit :=
  modify fun k => { k with
    mem := fun page => if page = pa then putBytes (k.mem pa) off n src else k.mem page }

/-- Copy a whole page. -/
def copyPage (dst src : Nat) : Prog (Kmem ld) Stop Unit :=
  modify fun k => { k with mem := fun page => if page = dst then k.mem src else k.mem page }

def kfree (v : Nat) : Prog (Kmem ld) Stop Unit := do
  match (frameOf? v : Option (Frame ld)) with
  | none => throw .kfree
  | some f =>
    -- Fill with junk to catch dangling refs.
    memset f.pa 1
    modify fun k => { k with freelist := f :: k.freelist }

def kalloc : Prog (Kmem ld) Stop (Option (Frame ld)) := do
  let k ← get
  match k.freelist with
  | [] => return none
  | f :: rest =>
    set { k with freelist := rest }
    return some f

theorem frameOf_p2v (f : Frame ld) : frameOf? (p2v f.pa) = some f := by
  have low := f.low
  have high := f.high
  have aligned := f.aligned
  have virt := p2v_of_lt high
  have back := v2p_p2v f.pa_lt
  have passes : p2v f.pa < 2 ^ 32 ∧ p2v f.pa % pgSize = 0 ∧ ld.kernEnd ≤ p2v f.pa ∧
      v2p (p2v f.pa) < physTop := by
    rw [back, virt]
    simp only [kernBase, physTop, pgSize] at low high aligned ⊢
    omega
  unfold frameOf?
  rw [dif_pos passes]
  exact congrArg some (Frame.ext back)

/-- The physical address of a page that passed the test. -/
theorem frameOf_some {pa : Nat} {f : Frame ld} (small : pa < 2 ^ 32)
    (passed : frameOf? (p2v pa) = some f) : f.pa = pa := by
  unfold frameOf? at passed
  split at passed
  · rw [← Option.some.inj passed]
    exact v2p_p2v small
  · exact absurd passed (by simp)

/-- Rule for `kfree`: it panics or puts the page, filled with junk, on the list. -/
theorem wp_kfree {v : Nat} {Q : Unit → Kmem ld → Prop} {E : Stop → Prop} {k : Kmem ld}
    (refused : (frameOf? v : Option (Frame ld)) = none → E .kfree)
    (freed : ∀ f : Frame ld, frameOf? v = some f → Q () {
      freelist := f :: k.freelist
      mem := fun page => if page = f.pa then fun _ => 1 else k.mem page }) :
    wp (kfree v) Q E k := by
  unfold kfree
  cases passed : (frameOf? v : Option (Frame ld)) with
  | none => exact wp_fail (refused passed)
  | some f =>
    simp only [memset, wp_bind, wp_modify]
    exact freed f passed

/-- Rule for `kalloc`: it returns null or takes the head of the list. -/
theorem wp_kalloc {Q : Option (Frame ld) → Kmem ld → Prop} {E : Stop → Prop} {k : Kmem ld}
    (empty : k.freelist = [] → Q none k)
    (taken : ∀ f rest, k.freelist = f :: rest → Q (some f) { k with freelist := rest }) :
    wp kalloc Q E k := by
  unfold kalloc
  rw [wp_read]
  cases list : k.freelist with
  | nil => exact wp_ret (empty list)
  | cons f rest =>
    simp only [wp_bind, wp_set, wp_pure]
    exact taken f rest list

end ColorXv6.Vm.Kalloc
