import ColorXv6.Lib.Runs
import Mathlib.Data.List.Basic
import Mathlib.Logic.Function.Basic
import Mathlib.Tactic.Ring

/-!
user/umalloc.c. Memory is seen as headers at their addresses: `s.ptr` and `s.size`
of the header that starts there. Pointers and sizes are 32-bit. A loop of the
source takes its number of turns as an argument, and has no result when it needs
more.
-/
namespace ColorXv6.User.Malloc
open Lib.Runs

/-- `union header`, 8 bytes; the size is in units of 8 bytes. -/
structure Header where
  ptr : Nat
  size : Nat
deriving DecidableEq

/-- `base` is the address of the static header. `sbrk` has given out `start` to `brk`. -/
structure Heap where
  mem : Nat → Header
  base : Nat
  freep : Nat
  start : Nat
  brk : Nat

/-- `p + n` for a `Header *`. -/
def plus (p n : Nat) : Nat := (p + 8 * n) % 2 ^ 32

/-- `p - 1` for a `Header *`. -/
def minusOne (p : Nat) : Nat := (p + (2 ^ 32 - 8)) % 2 ^ 32

def Heap.write (h : Heap) (a : Nat) (header : Header) : Heap :=
  { h with mem := Function.update h.mem a header }

/-- The loop of `free`: the node to insert after. -/
def findPlace (mem : Nat → Header) (bp : Nat) : Nat → Nat → Option Nat
  | 0, _ => none
  | turns + 1, p =>
    let next := (mem p).ptr
    if bp > p ∧ bp < next then some p
    else if p ≥ next ∧ (bp > p ∨ bp < next) then some p
    else findPlace mem bp turns next

/-- The first `if` of `free`: join with the block above, or point to it. -/
def joinUpper (h : Heap) (bp p : Nat) : Heap :=
  let next := (h.mem p).ptr
  if plus bp (h.mem bp).size = next then
    h.write bp
      { size := ((h.mem bp).size + (h.mem next).size) % 2 ^ 32
        ptr := (h.mem next).ptr }
  else h.write bp { h.mem bp with ptr := next }

/-- The second: join with the block below, or let it point here. -/
def joinLower (h : Heap) (bp p : Nat) : Heap :=
  if plus p (h.mem p).size = bp then
    h.write p { size := ((h.mem p).size + (h.mem bp).size) % 2 ^ 32, ptr := (h.mem bp).ptr }
  else h.write p { h.mem p with ptr := bp }

def free (turns : Nat) (h : Heap) (ap : Nat) : Option Heap :=
  let bp := minusOne ap
  (findPlace h.mem bp turns h.freep).map fun p => { joinLower (joinUpper h bp p) bp p with freep := p }

/-- `sbrk` gives the old break, if it grants the request. The new one is an address too. -/
def sbrk (h : Heap) (n : Nat) (grant : Bool) : Option (Nat × Heap) :=
  if grant ∧ h.brk + n < 2 ^ 32 then some (h.brk, { h with brk := h.brk + n }) else none

/-- The result is `freep`, or nothing when `sbrk` fails. -/
def morecore (turns : Nat) (h : Heap) (nu : Nat) (grant : Bool) : Option (Option Nat × Heap) :=
  let nu := if nu < 4096 then 4096 else nu
  match sbrk h (nu * 8 % 2 ^ 32) grant with
  | none => some (none, h)
  | some (hp, h) =>
    (free turns (h.write hp { h.mem hp with size := nu }) (plus hp 1)).map fun h => (some h.freep, h)

/-- The block `p` after `prevp` is big enough: take it, or its end. -/
def take (h : Heap) (nunits prevp p : Nat) : Nat × Heap :=
  if (h.mem p).size = nunits then
    (plus p 1, { h.write prevp { h.mem prevp with ptr := (h.mem p).ptr } with freep := prevp })
  else
    let smaller := h.write p { h.mem p with size := (h.mem p).size - nunits }
    let tail := plus p ((h.mem p).size - nunits)
    (plus tail 1, { smaller.write tail { smaller.mem tail with size := nunits } with freep := prevp })

/-- The loop of `malloc`. A block that is big enough goes to `hand`; where the list has none, `more`
calls `morecore` and goes on from the block that it returns. -/
def search {α : Type} (nunits : Nat) (hand : Nat × Heap → α)
    (more : Nat → Heap → (Heap → Nat → Option α) → Option α) : Nat → Heap → Nat → Nat → Option α
  | 0, _, _, _ => none
  | turns + 1, h, prevp, p =>
    if (h.mem p).size ≥ nunits then some (hand (take h nunits prevp p))
    else if p = h.freep then
      more turns h fun h q => search nunits hand more turns h q (h.mem q).ptr
    else search nunits hand more turns h p (h.mem p).ptr

/-- Without more memory the loop ends with 0. -/
def refill (nunits : Nat) (grant : Bool) (turns : Nat) (h : Heap)
    (next : Heap → Nat → Option (Nat × Heap)) : Option (Nat × Heap) :=
  match morecore turns h nunits grant with
  | none => none
  | some (none, h) => some (0, h)
  | some (some q, h) => next h q

def nunitsOf (nbytes : Nat) : Nat := (nbytes + 8 - 1) % 2 ^ 32 / 8 + 1

/-- The empty list, made by the first call. -/
def prepare (h : Heap) : Heap :=
  if h.freep = 0 then { h.write h.base { ptr := h.base, size := 0 } with freep := h.base } else h

/-- The pointer returned, 0 for none. -/
def malloc (turns : Nat) (h : Heap) (nbytes : Nat) (grant : Bool) : Option (Nat × Heap) :=
  let h := prepare h
  search (nunitsOf nbytes) id (refill (nunitsOf nbytes) grant) turns h h.freep (h.mem h.freep).ptr

/-! A program that uses the allocator. -/

/-- `live` are the pointers that `malloc` returned and that were not freed. -/
structure State where
  heap : Heap
  live : List Nat

inductive Act where
  | malloc (nbytes : Nat) (grant : Bool)
  | free (ap : Nat)
  /-- the program writes in a block it was given -/
  | store (a : Nat) (header : Header)
deriving DecidableEq

/-- The bytes of a block, after its header, where a header would fit. -/
def Owns (s : State) (a : Nat) : Prop :=
  ∃ ap ∈ s.live, ap ≤ a ∧ a + 8 ≤ ap + 8 * ((s.heap.mem (ap - 8)).size - 1)

instance (s : State) (a : Nat) : Decidable (Owns s a) := inferInstanceAs (Decidable (∃ _ ∈ _, _))

/-- Only live blocks are freed, and the size that `malloc` rounds the request to, or the 4096
units that are asked for at least, fit in an `int`. -/
def Allowed (s : State) : Act → Prop
  | .malloc nbytes _ => 8 * ((nbytes + 7) / 8 + 1) < 2 ^ 31
  | .free ap => ap ∈ s.live
  | .store a _ => Owns s a

instance (s : State) (act : Act) : Decidable (Allowed s act) := by
  cases act <;> unfold Allowed <;> infer_instance

def perform (turns : Nat) (s : State) : Act → Option State
  | .malloc nbytes grant =>
    (malloc turns s.heap nbytes grant).map fun result =>
      { heap := result.2, live := if result.1 = 0 then s.live else result.1 :: s.live }
  | .free ap => (free turns s.heap ap).map fun heap => { heap, live := s.live.erase ap }
  | .store a header => some { s with heap := s.heap.write a header }

def Step (s : State) (act : Act) (t : State) : Prop :=
  Allowed s act ∧ ∃ turns, perform turns s act = some t

end ColorXv6.User.Malloc
