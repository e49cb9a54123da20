import ColorXv6.Lib.Cycle
import ColorXv6.Lib.Row
import ColorXv6.User.Malloc
import Mathlib.Data.List.Chain

/-!
What the free list of the allocator stands for: a row of blocks, free and used,
from the start of the heap to the break. The list goes through `base` and the free
blocks of the row in the order of their addresses, and the loops of `free` and
`malloc` find their place in it.
-/
namespace ColorXv6.User.FreeList
open Lib.Cycle Lib.Row Malloc

structure Block where
  units : Nat
  used : Bool
deriving DecidableEq

def Block.bytes (b : Block) : Nat := 8 * b.units

/-- Where the free blocks are. -/
def frees (a : Nat) (row : List Block) : List Nat :=
  ((place Block.bytes a row).filter fun x => !x.2.used).map Prod.fst

/-- The used blocks, with their addresses. -/
def useds (a : Nat) (row : List Block) : List (Nat × Block) :=
  (place Block.bytes a row).filter fun x => x.2.used

def Heap.next (h : Heap) (a : Nat) : Nat := (h.mem a).ptr

/-- No two free blocks side by side. -/
def Merged (row : List Block) : Prop := row.IsChain fun x y => x.used = true ∨ y.used = true

/-- The heap holds this row. -/
structure Holds (h : Heap) (row : List Block) : Prop where
  positive : ∀ b ∈ row, 0 < b.units
  merged : Merged row
  sizes : ∀ x ∈ place Block.bytes h.start row, (h.mem x.1).size = x.2.units
  baseSize : (h.mem h.base).size = 0
  linked : Linked (Heap.next h) h.base (h.base :: frees h.start row)
  freep : h.freep ∈ h.base :: frees h.start row
  brk : h.brk = h.start + width Block.bytes row
  low : 0 < h.base ∧ h.base + 8 ≤ h.start
  high : h.brk < 2 ^ 32

variable {x q : Nat}

section Row
variable {a : Nat} {l r row : List Block}

theorem frees_append : frees a (l ++ r) = frees a l ++ frees (a + width Block.bytes l) r := by
  simp [frees, place_append]

theorem useds_append : useds a (l ++ r) = useds a l ++ useds (a + width Block.bytes l) r := by
  simp [useds, place_append]

theorem frees_cons (b : Block) :
    frees a (b :: r) = if b.used then frees (a + b.bytes) r else a :: frees (a + b.bytes) r := by
  cases used : b.used <;> simp [frees, used]

theorem useds_cons (b : Block) :
    useds a (b :: r) = if b.used then (a, b) :: useds (a + b.bytes) r else useds (a + b.bytes) r := by
  cases used : b.used <;> simp [useds, used]

theorem mem_frees : x ∈ frees a row ↔
    ∃ b, (x, b) ∈ place Block.bytes a row ∧ b.used = false := by
  simp [frees]

theorem frees_low (member : x ∈ frees a row) : a ≤ x := by
  obtain ⟨b, placed, -⟩ := mem_frees.mp member
  exact (mem_place placed).2.1

theorem frees_high (positive : ∀ b ∈ row, 0 < b.units) (member : x ∈ frees a row) :
    x + 8 ≤ a + width Block.bytes row := by
  obtain ⟨b, placed, -⟩ := mem_frees.mp member
  obtain ⟨inside, -, high⟩ := mem_place placed
  have := positive b inside
  simp only [Block.bytes] at high
  omega

theorem frees_sorted (positive : ∀ b ∈ row, 0 < b.units) : (frees a row).Pairwise (· < ·) := by
  have apart : (place Block.bytes a row).Pairwise fun x y => x.1 + x.2.bytes ≤ y.1 := place_pairwise
  have placed := apart.filter fun x => !x.2.used
  refine List.pairwise_map.mpr (placed.imp_of_mem ?_)
  intro x y member _ apart
  have inside := (mem_place (List.mem_of_mem_filter member)).1
  have := positive x.2 inside
  simp only [Block.bytes] at apart
  omega

end Row

/-! A row in two parts. -/

/-- The lower part, from the start of the heap, whose last node leads to `exit`. -/
structure Lower (h : Heap) (l : List Block) (exit : Nat) : Prop where
  positive : ∀ b ∈ l, 0 < b.units
  merged : Merged l
  sizes : ∀ x ∈ place Block.bytes h.start l, (h.mem x.1).size = x.2.units
  baseSize : (h.mem h.base).size = 0
  linked : Linked (Heap.next h) exit (h.base :: frees h.start l)

/-- The upper part, from address `a` on. -/
structure Upper (h : Heap) (a : Nat) (r : List Block) : Prop where
  positive : ∀ b ∈ r, 0 < b.units
  merged : Merged r
  sizes : ∀ x ∈ place Block.bytes a r, (h.mem x.1).size = x.2.units
  linked : Linked (Heap.next h) h.base (frees a r)

/-- Where the list goes on from below `a`. -/
def entry (h : Heap) (a : Nat) (r : List Block) : Nat := (frees a r).headD h.base

theorem entry_congr {h t : Heap} (base : t.base = h.base) (a : Nat) (r : List Block) :
    entry t a r = entry h a r := by
  rw [entry, base, entry]

section Parts
variable {h after : Heap} {l r : List Block} {a exit : Nat}

theorem Holds.lower (holds : Holds h (l ++ r)) :
    Lower h l (entry h (h.start + width Block.bytes l) r) := by
  have linked := holds.linked
  rw [frees_append, ← List.cons_append, linked_append] at linked
  refine ⟨fun b inside => holds.positive b (by simp [inside]), (List.isChain_append.mp holds.merged).1,
    fun x placed => holds.sizes x ?_, holds.baseSize, linked.1⟩
  rw [place_append]
  exact List.mem_append_left _ placed

theorem Holds.upper (holds : Holds h (l ++ r)) : Upper h (h.start + width Block.bytes l) r := by
  have linked := holds.linked
  rw [frees_append, ← List.cons_append, linked_append] at linked
  refine ⟨fun b inside => holds.positive b (by simp [inside]), (List.isChain_append.mp holds.merged).2.1,
    fun x placed => holds.sizes x ?_, linked.2⟩
  rw [place_append]
  exact List.mem_append_right _ placed

/-- The two parts put together. -/
theorem Lower.join (lower : Lower h l (entry h a r)) (upper : Upper h a r)
    (at_ : a = h.start + width Block.bytes l)
    (between : ∀ x ∈ l.getLast?, ∀ y ∈ r.head?, x.used = true ∨ y.used = true)
    (freep : h.freep ∈ h.base :: frees h.start (l ++ r)) (brk : h.brk = a + width Block.bytes r)
    (low : 0 < h.base ∧ h.base + 8 ≤ h.start) (high : h.brk < 2 ^ 32) : Holds h (l ++ r) where
  positive := by
    intro b inside
    exact (List.mem_append.mp inside).elim (lower.positive b) (upper.positive b)
  merged := List.isChain_append.mpr ⟨lower.merged, upper.merged, between⟩
  sizes := by
    intro x placed
    rw [place_append, ← at_] at placed
    exact (List.mem_append.mp placed).elim (lower.sizes x) (upper.sizes x)
  baseSize := lower.baseSize
  linked := by
    rw [frees_append, ← List.cons_append, ← at_, linked_append]
    exact ⟨lower.linked, upper.linked⟩
  freep := freep
  brk := by
    rw [width_append, brk, at_, Nat.add_assoc]
  low := low
  high := high

section Lower
variable (lower : Lower h l exit)
include lower

/-- Every header of the lower part is below its end. -/
theorem Lower.below {x : Nat × Block}
    (placed : x ∈ place Block.bytes h.start l) : x.1 < h.start + width Block.bytes l := by
  obtain ⟨inside, -, high⟩ := mem_place placed
  have := lower.positive x.2 inside
  dsimp only [Block.bytes] at high
  omega

theorem Lower.node_below (low : h.base + 8 ≤ h.start)
    (node : x ∈ h.base :: frees h.start l) : x < h.start + width Block.bytes l := by
  rcases List.mem_cons.mp node with rfl | free
  · omega
  · obtain ⟨b, placed, -⟩ := mem_frees.mp free
    exact lower.below placed

/-- Changes above do not touch the lower part. -/
theorem Lower.frame (low : h.base + 8 ≤ h.start) (base : after.base = h.base)
    (start : after.start = h.start)
    (same : ∀ x < h.start + width Block.bytes l, after.mem x = h.mem x) : Lower after l exit where
  positive := lower.positive
  merged := lower.merged
  sizes := by
    intro x placed
    rw [start] at placed
    rw [same x.1 (lower.below placed)]
    exact lower.sizes x placed
  baseSize := by
    rw [base, same h.base (by omega)]
    exact lower.baseSize
  linked := by
    rw [base, start]
    refine lower.linked.congr fun x node => ?_
    rw [Heap.next, same x (lower.node_below low node)]
    rfl

/-- The last node is made to lead elsewhere. -/
theorem Lower.redirect {before : List Nat} {p exit' : Nat} (low : h.base + 8 ≤ h.start)
    (ends : h.base :: frees h.start l = before ++ [p]) (base : after.base = h.base)
    (start : after.start = h.start) (last : after.mem p = { h.mem p with ptr := exit' })
    (same : ∀ x < h.start + width Block.bytes l, x ≠ p → after.mem x = h.mem x) :
    Lower after l exit' := by
  have size : ∀ x < h.start + width Block.bytes l, (after.mem x).size = (h.mem x).size := by
    intro x below
    by_cases here : x = p
    · rw [here, last]
    · rw [same x below here]
  refine ⟨lower.positive, lower.merged, ?_, ?_, ?_⟩
  · intro x placed
    rw [start] at placed
    rw [size x.1 (lower.below placed)]
    exact lower.sizes x placed
  · rw [base, size h.base (by omega)]
    exact lower.baseSize
  · have sorted : (before ++ [p]).Pairwise (· < ·) := by
      rw [← ends]
      refine List.Pairwise.cons ?_ (frees_sorted lower.positive)
      intro x member
      have := frees_low member
      omega
    have linked := lower.linked
    rw [ends, linked_append] at linked
    rw [base, start, ends, linked_append]
    refine ⟨linked.1.congr fun x node => ?_, ?_, trivial⟩
    · have apart : x < p := (List.pairwise_append.mp sorted).2.2 x node p (by simp)
      have inside : x ∈ h.base :: frees h.start l := by simp [ends, node]
      rw [Heap.next, same x (lower.node_below low inside) (by omega)]
      rfl
    · rw [Heap.next, last]
      rfl

end Lower

/-- Changes below do not touch the upper part. -/
theorem Upper.frame (upper : Upper h a r) (base : after.base = h.base)
    (same : ∀ x, a ≤ x → after.mem x = h.mem x) : Upper after a r where
  positive := upper.positive
  merged := upper.merged
  sizes := by
    intro x placed
    rw [same x.1 (mem_place placed).2.1]
    exact upper.sizes x placed
  linked := by
    rw [base]
    refine upper.linked.congr fun x node => ?_
    rw [Heap.next, same x (frees_low node)]
    rfl

theorem Upper.tail {b : Block} (upper : Upper h a (b :: r)) : Upper h (a + b.bytes) r where
  positive := fun x inside => upper.positive x (by simp [inside])
  merged := upper.merged.tail
  sizes := fun x placed => upper.sizes x (by simp [placed])
  linked := by
    have linked := upper.linked
    rw [frees_cons] at linked
    split at linked
    · exact linked
    · exact linked.2

/-- A block in front. A free one is in the list, and the next one must not be free. -/
theorem Upper.cons {b : Block} (upper : Upper h (a + b.bytes) r) (positive : 0 < b.units)
    (size : (h.mem a).size = b.units)
    (free : b.used = false →
      (h.mem a).ptr = entry h (a + b.bytes) r ∧ ∀ y ∈ r.head?, y.used = true) : Upper h a (b :: r) where
  positive := by
    intro x inside
    rcases List.mem_cons.mp inside with rfl | later
    · exact positive
    · exact upper.positive x later
  merged := by
    refine List.isChain_cons.mpr ⟨fun y next => ?_, upper.merged⟩
    cases used : b.used with
    | true => exact Or.inl rfl
    | false => exact Or.inr ((free used).2 y next)
  sizes := by
    intro x placed
    rcases List.mem_cons.mp placed with rfl | later
    · exact size
    · exact upper.sizes x later
  linked := by
    rw [frees_cons]
    cases used : b.used with
    | true => exact upper.linked
    | false => exact ⟨(free used).1, upper.linked⟩

end Parts

/-! The loop of `free`. -/

variable {front rest : List Nat}

section FindPlace
variable {h : Heap} {bp p : Nat} {before later : List Nat}

theorem findPlace_next {turns : Nat} (first : ¬ (bp > q ∧ bp < Heap.next h q))
    (second : ¬ (q ≥ Heap.next h q ∧ (bp > q ∨ bp < Heap.next h q))) :
    findPlace h.mem bp (turns + 1) q = findPlace h.mem bp turns (Heap.next h q) := by
  rw [findPlace]
  exact (if_neg first).trans (if_neg second)

theorem findPlace_stop {turns : Nat}
    (here : (bp > q ∧ bp < Heap.next h q) ∨ (q ≥ Heap.next h q ∧ (bp > q ∨ bp < Heap.next h q))) :
    findPlace h.mem bp (turns + 1) q = some q := by
  rw [findPlace]
  by_cases first : bp > q ∧ bp < Heap.next h q
  · exact if_pos first
  · exact (if_neg first).trans (if_pos (here.resolve_left first))

/-- The nodes in order, those below `bp` first; `p` is the last of them. -/
structure Around (h : Heap) (bp : Nat) (before : List Nat) (p : Nat) (later : List Nat) : Prop where
  linked : Linked (Heap.next h) h.base (before ++ p :: later)
  sorted : (before ++ p :: later).Pairwise (· < ·)
  home : (before ++ [p]).head? = some h.base
  below : ∀ x ∈ before ++ [p], x < bp
  above : ∀ x ∈ later, bp < x

theorem Around.base_le (around : Around h bp before p later) : h.base ≤ p := by
  cases before with
  | nil =>
    cases around.home
    exact Nat.le_refl _
  | cons a before =>
    cases around.home
    exact Nat.le_of_lt (List.rel_of_pairwise_cons around.sorted (by simp))

theorem Around.nodes (later : List Nat) (split : before ++ [p] = front ++ q :: rest) :
    before ++ p :: later = front ++ q :: (rest ++ later) := by
  have longer := congrArg (· ++ later) split
  simpa using longer

section Around
variable (around : Around h bp before p later)
include around

/-- Between two nodes on one side of `bp` the loop goes on. -/
theorem Around.step {c : Nat} (nodes : before ++ p :: later = front ++ q :: c :: rest)
    (side : c < bp ∨ bp < q) (found : ∃ turns, findPlace h.mem bp turns c = some p) :
    ∃ turns, findPlace h.mem bp turns q = some p := by
  have next : Heap.next h q = c := (nodes ▸ around.linked).next_eq
  have rises : q < c := by
    have sorted := nodes ▸ around.sorted
    exact List.rel_of_pairwise_cons (List.pairwise_append.mp sorted).2.1 (by simp)
  obtain ⟨turns, found⟩ := found
  refine ⟨turns + 1, ?_⟩
  rw [findPlace_next (by rw [next]; omega) (by rw [next]; omega), next]
  exact found

/-- From a node below `bp`, by induction on the nodes between it and `p`. -/
theorem Around.find_below
    (split : before ++ [p] = front ++ q :: rest) : ∃ turns, findPlace h.mem bp turns q = some p := by
  induction rest generalizing q front with
  | nil =>
    obtain ⟨-, same⟩ := List.append_inj' split rfl
    cases same
    have below : p < bp := around.below p (by simp)
    have follows := around.linked.next_eq
    refine ⟨1, findPlace_stop ?_⟩
    rw [follows]
    cases later with
    | nil => exact Or.inr ⟨around.base_le, Or.inl below⟩
    | cons b later => exact Or.inl ⟨below, around.above b (by simp)⟩
  | cons c rest ih =>
    have after : c < bp := around.below c (by rw [split]; simp)
    have further : before ++ [p] = (front ++ [q]) ++ c :: rest := by simp [split]
    exact around.step (Around.nodes later split) (.inl after) (ih further)

/-- From a node above `bp` to the last one, and then from `base` on. -/
theorem Around.find_above
    (split : later = front ++ q :: rest) : ∃ turns, findPlace h.mem bp turns q = some p := by
  have above : bp < q := around.above q (by rw [split]; simp)
  induction rest generalizing q front with
  | nil =>
    obtain ⟨tail, first⟩ : ∃ tail, before ++ [p] = [] ++ h.base :: tail :=
      List.head?_eq_some_iff.mp around.home
    obtain ⟨turns, found⟩ := around.find_below first
    have base : h.base < bp := around.below h.base (by rw [first]; simp)
    have next : Heap.next h q = h.base := by
      have linked := around.linked
      rw [split, show before ++ p :: (front ++ [q]) = (before ++ p :: front) ++ [q] by simp] at linked
      exact linked.next_eq
    refine ⟨turns + 1, ?_⟩
    rw [findPlace_next (by rw [next]; omega) (by rw [next]; omega), next]
    exact found
  | cons c rest ih =>
    have nodes : before ++ p :: later = (before ++ p :: front) ++ q :: c :: rest := by simp [split]
    have further : later = (front ++ [q]) ++ c :: rest := by simp [split]
    exact around.step nodes (.inr above) (ih further (around.above c (by rw [further]; simp)))

/-- Wherever it starts in the list, the loop comes to an end at the last node below `bp`. -/
theorem Around.find (member : q ∈ before ++ p :: later) :
    ∃ turns, findPlace h.mem bp turns q = some p := by
  have cases : q ∈ before ++ [p] ∨ q ∈ later := by simpa [or_assoc] using member
  rcases cases with below | above
  · obtain ⟨front, rest, split⟩ := List.append_of_mem below
    exact around.find_below split
  · obtain ⟨front, rest, split⟩ := List.append_of_mem above
    exact around.find_above split

end Around

end FindPlace

end ColorXv6.User.FreeList
