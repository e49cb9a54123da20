import ColorXv6.Lib.LittleEndian
import Mathlib.Data.List.Count
import Mathlib.Logic.Function.Basic

/-!
mp.c: the search for the MP configuration table and the walk over its entries.
Addresses are physical; the kernel maps memory from KERNBASE on up to PHYSTOP, so no pointer
of the walk wraps. The break of an entry of unknown type leaves the switch and not
the loop, and the pointer stays where it is.
-/
namespace ColorXv6.MpTable
open Function Lib.LittleEndian

def nCpu : Nat := 8

inductive EntryType where
  | proc
  | bus
  | ioapic
  | iointr
  | lintr
deriving DecidableEq

def entryType (b : UInt8) : Option EntryType :=
  match b with
  | 0 => some .proc
  | 1 => some .bus
  | 2 => some .ioapic
  | 3 => some .iointr
  | 4 => some .lintr
  | _ => none

/-- sizeof(struct mpproc), sizeof(struct mpioapic) and the 8 of the other entries. -/
def EntryType.size : EntryType → Nat
  | .proc => 20
  | _ => 8

/-- The low byte of an int sum. -/
def sum (mem : Bytes) (addr : Nat) : Nat → UInt8
  | 0 => 0
  | len + 1 => sum mem addr len + mem (addr + len)

def signed (mem : Bytes) (p : Nat) (signature : List UInt8) : Bool :=
  (List.range 4).map (fun k => mem (p + k)) = signature

def mpsearch1 (mem : Bytes) (a len : Nat) : Option Nat :=
  ((List.range (len / 16)).map (a + 16 * ·)).find? fun p =>
    signed mem p [0x5F, 0x4D, 0x50, 0x5F] && sum mem p 16 = 0

def mpsearch (mem : Bytes) : Option Nat :=
  let ebda := getLE mem 0x40E 2 * 16
  let near :=
    if ebda ≠ 0 then mpsearch1 mem ebda 1024
    else mpsearch1 mem ((getLE mem 0x413 2 * 1024 + 2 ^ 32 - 1024) % 2 ^ 32) 1024
  near.or (mpsearch1 mem 0xF0000 0x10000)

def tableLength (mem : Bytes) (conf : Nat) : Nat := getLE mem (conf + 4) 2

/-- The floating pointer structure and the table. -/
def mpconfig (mem : Bytes) : Option (Nat × Nat) := do
  let mp ← mpsearch mem
  let conf := getLE mem (mp + 4) 4
  if conf = 0 then none
  else if !signed mem conf [0x50, 0x43, 0x4D, 0x50] then none
  else if mem (conf + 6) ≠ 1 ∧ mem (conf + 6) ≠ 4 then none
  else if sum mem conf (tableLength mem conf) ≠ 0 then none
  else some (mp, conf)

/-- The variables of the loop. -/
structure Walk where
  p : Nat
  ismp : Bool := true
  ncpu : Nat := 0
  apicid : Nat → UInt8 := fun _ => 0
  ioapicid : UInt8 := 0

/-- One turn of the loop, at an entry. -/
def turn (mem : Bytes) (w : Walk) : Walk :=
  match entryType (mem w.p) with
  | some .proc =>
    let w' := if w.ncpu < nCpu then
      { w with apicid := update w.apicid w.ncpu (mem (w.p + 1)), ncpu := w.ncpu + 1 } else w
    { w' with p := w.p + 20 }
  | some .ioapic => { w with ioapicid := mem (w.p + 1), p := w.p + 8 }
  | some _ => { w with p := w.p + 8 }
  | none => { w with ismp := false }

/-- The loop up to the end `e` of the table, for at most `n` turns. -/
def walk (mem : Bytes) (e : Nat) : Nat → Walk → Option Walk
  | 0, w => if w.p < e then none else some w
  | n + 1, w => if w.p < e then walk mem e n (turn mem w) else some w

inductive Panic where
  | expectSmp
  | noSuitableMachine
deriving DecidableEq

/-- What `mpinit` leaves behind: `lapic`, the variables of the loop, and whether the IMCR
was written. -/
structure Found where
  lapic : Nat
  table : Walk
  imcr : Bool

/-- `none`: not at its end after `n` turns of the loop. -/
def mpinit (mem : Bytes) (n : Nat) : Option (Except Panic Found) :=
  match mpconfig mem with
  | none => some (.error .expectSmp)
  | some (mp, conf) =>
    (walk mem (conf + tableLength mem conf) n { p := conf + 44 }).map fun w =>
      if w.ismp then .ok ⟨getLE mem (conf + 36) 4, w, mem (mp + 12) ≠ 0⟩
      else .error .noSuitableMachine

/-- The entries from `p` to the end `e` of the table or to the first one of unknown type, that one
included. An entry has at least one byte, so that `e` turns are enough. -/
def met (mem : Bytes) (e : Nat) : Nat → Nat → List Nat
  | 0, _ => []
  | n + 1, p =>
    if p < e then
      match entryType (mem p) with
      | some t => p :: met mem e n (p + t.size)
      | none => [p]
    else []

def entries (mem : Bytes) (conf : Nat) : List Nat :=
  met mem (conf + tableLength mem conf) (conf + tableLength mem conf) (conf + 44)

def isProc (mem : Bytes) (p : Nat) : Bool := entryType (mem p) = some .proc

section Turns
variable {mem : Bytes} {e : Nat}

theorem EntryType.size_pos (t : EntryType) : 0 < t.size := by
  cases t <;> decide

theorem turn_known {w : Walk} {t : EntryType} (known : entryType (mem w.p) = some t) :
    (turn mem w).p = w.p + t.size ∧
      (w.ncpu ≤ nCpu → (turn mem w).ncpu = min nCpu (w.ncpu + if isProc mem w.p then 1 else 0)) := by
  unfold turn isProc
  rw [known]
  cases t with
  | proc =>
    dsimp only
    split
    · exact ⟨rfl, fun _ => by simp only [decide_true, if_true]; omega⟩
    · exact ⟨rfl, fun _ => by simp only [decide_true, if_true]; omega⟩
  | _ => exact ⟨rfl, fun le => (Nat.min_eq_right le).symm⟩

/-- The pointer stays at an entry of unknown type for good. -/
theorem walk_stuck {w : Walk} (inside : w.p < e) (unknown : entryType (mem w.p) = none) (n : Nat) :
    walk mem e n w = none := by
  induction n generalizing w with
  | zero => exact if_pos inside
  | succ n ih =>
    have same : (turn mem w).p = w.p := by
      unfold turn
      rw [unknown]
    rw [walk, if_pos inside]
    exact ih (same ▸ inside) (same ▸ unknown)

theorem walk_unknown {k : Nat} {w : Walk}
    (unknown : ∃ p ∈ met mem e k w.p, entryType (mem p) = none) (n : Nat) :
    walk mem e n w = none := by
  induction k generalizing w n with
  | zero =>
    obtain ⟨p, listed, -⟩ := unknown
    cases listed
  | succ k ih =>
    unfold met at unknown
    split at unknown
    · rename_i inside
      split at unknown
      · rename_i t known
        cases n with
        | zero => exact if_pos inside
        | succ n =>
          rw [walk, if_pos inside]
          apply ih
          obtain ⟨p, listed, none⟩ := unknown
          rcases List.mem_cons.mp listed with rfl | later
          · rw [known] at none
            cases none
          · exact ⟨p, (turn_known known).1 ▸ later, none⟩
      · exact walk_stuck inside ‹_› n
    · obtain ⟨p, listed, -⟩ := unknown
      cases listed

theorem walk_known {k : Nat} {w : Walk} (enough : e ≤ w.p + k) (few : w.ncpu ≤ nCpu)
    (known : ∀ p ∈ met mem e k w.p, entryType (mem p) ≠ none) :
    ∃ w', walk mem e k w = some w' ∧
      w'.ncpu = min nCpu (w.ncpu + (met mem e k w.p).countP (isProc mem)) := by
  induction k generalizing w with
  | zero => exact ⟨w, if_neg (by omega), (Nat.min_eq_right few).symm⟩
  | succ k ih =>
    unfold met at known ⊢
    unfold walk
    split
    · rename_i inside
      rw [if_pos inside] at known
      split at known
      · rename_i t type
        obtain ⟨moves, count⟩ := turn_known type
        have positive := t.size_pos
        have count := count few
        obtain ⟨w', ended, total⟩ := @ih (turn mem w) (by omega) (by omega) (by
          rw [moves]
          exact fun p later => known p (List.mem_cons_of_mem _ later))
        refine ⟨w', ended, ?_⟩
        rw [total, count, moves, List.countP_cons]
        omega
      · rename_i unknown
        exact absurd unknown (known w.p (List.mem_singleton_self _))
    · exact ⟨w, rfl, (Nat.min_eq_right few).symm⟩

end Turns

/-- With an accepted table the loop of `mpinit` comes to its end, with the processors counted up to
NCPU and whatever `mpinit` then makes of `ismp`, exactly if it meets no entry of unknown type. -/
theorem mpinit_loop_ends_iff (mem : Bytes) (mp conf : Nat) (accepted : mpconfig mem = some (mp, conf)) :
    (∃ n w result, walk mem (conf + tableLength mem conf) n { p := conf + 44 } = some w ∧
      mpinit mem n = some result ∧ w.ncpu = min nCpu ((entries mem conf).countP (isProc mem))) ↔
    ∀ p ∈ entries mem conf, entryType (mem p) ≠ none := by
  unfold mpinit entries
  rw [accepted]
  dsimp only
  constructor
  · rintro ⟨n, w, -, ended, -⟩ p listed unknown
    rw [@walk_unknown mem _ _ { p := conf + 44 } ⟨p, listed, unknown⟩] at ended
    cases ended
  · intro known
    obtain ⟨w, ended, count⟩ := @walk_known mem _ _ { p := conf + 44 }
      (Nat.le_add_left _ _) (Nat.zero_le _) known
    rw [Nat.zero_add] at count
    exact ⟨_, w, _, ended, by rw [ended, Option.map_some], count⟩

/-- The floating pointer in the EBDA at 0x1000 and a table at 0x2000 with two entries, an I/O APIC
and one of type `last`. -/
def firmware (last check : UInt8) : Bytes := fun a =>
  match a with
  | 0x40F => 0x01
  | 0x1000 => 0x5F | 0x1001 => 0x4D | 0x1002 => 0x50 | 0x1003 => 0x5F
  | 0x1005 => 0x20 | 0x1008 => 1 | 0x1009 => 4 | 0x100A => 0x80
  | 0x2000 => 0x50 | 0x2001 => 0x43 | 0x2002 => 0x4D | 0x2003 => 0x50
  | 0x2004 => 72 | 0x2006 => 4 | 0x2007 => check
  | 0x202C => 2 | 0x2034 => last
  | _ => 0

theorem mpinit_loop_ends_iff_one : ∃ n w result, walk (firmware 0 130) 0x2048 n { p := 0x202C } = some w ∧
    mpinit (firmware 0 130) n = some result ∧ w.ncpu = 1 := by
  have accepted : mpconfig (firmware 0 130) = some (0x1000, 0x2000) := by decide +kernel
  have listed : entries (firmware 0 130) 0x2000 = [0x202C, 0x2034] := by decide +kernel
  have ends := (mpinit_loop_ends_iff _ _ _ accepted).mpr (by rw [listed]; decide)
  rw [listed] at ends
  exact ends

theorem mpinit_unknown_entry : mpconfig (firmware 5 125) = some (0x1000, 0x2000) ∧
    ∀ n, mpinit (firmware 5 125) n = none := by
  have accepted : mpconfig (firmware 5 125) = some (0x1000, 0x2000) := by decide +kernel
  have listed : entries (firmware 5 125) 0x2000 = [0x202C, 0x2034] := by decide +kernel
  refine ⟨accepted, fun n => ?_⟩
  unfold mpinit
  rw [accepted]
  have stuck := @walk_unknown (firmware 5 125) _ _ { p := 0x202C }
    ⟨0x2034, by exact listed ▸ List.mem_cons_of_mem _ (List.mem_singleton_self _), rfl⟩ n
  dsimp only
  rw [stuck]
  rfl

end ColorXv6.MpTable
