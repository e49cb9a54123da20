import ColorXv6.Param
import ColorXv6.Lib.LittleEndian

/-!
# log.c: the redo log, commit and recovery

`commit` and `recover_from_log` as the sequences of single-block disk writes
they issue. A block write reaches the disk whole (iderw transfers one block);
a crash loses the memory and keeps the disk after some prefix of the writes.
`Store.pinned` holds the buffers that log_write marked B_DIRTY: bget never
recycles those, so reading a pinned block gives its cached contents, and every
other block reads as the disk has it.
-/
namespace ColorXv6.Logging.Commit
open Param Lib.LittleEndian

abbrev Block := Bytes
abbrev Disk := Nat → Block

/-- struct logheader: `block` lists the first `n` entries of the array of
LOGSIZE block numbers, each a 32-bit word. -/
structure LogHeader where
  block : List Nat
  fits : block.length ≤ logSize
  bounded : ∀ b ∈ block, b < 2 ^ 32

def LogHeader.n (lh : LogHeader) : Nat := lh.block.length

def LogHeader.empty : LogHeader := ⟨[], by simp, by simp⟩

/-- The fields of struct log that commit and recovery use. -/
structure Log where
  start : Nat
  size : Nat
  lh : LogHeader

structure Store where
  disk : Disk
  pinned : Nat → Option Block
  /-- Disk writes issued so far, oldest first. -/
  issued : List (Nat × Block)

def diskWrite (d : Disk) (w : Nat × Block) : Disk := fun b => if b = w.1 then w.2 else d b

@[simp] theorem diskWrite_same (d : Disk) (b : Nat) (data : Block) :
    diskWrite d (b, data) b = data := if_pos rfl

theorem diskWrite_other (d : Disk) (w : Nat × Block) (b : Nat) (h : b ≠ w.1) :
    diskWrite d w b = d b := if_neg h

def applyWrites (d : Disk) (ws : List (Nat × Block)) : Disk := ws.foldl diskWrite d

def bread (m : Store) (b : Nat) : Block := (m.pinned b).getD (m.disk b)

/-- iderw clears B_DIRTY, so the written buffer is no longer pinned. -/
def bwrite (m : Store) (b : Nat) (data : Block) : Store where
  disk := diskWrite m.disk (b, data)
  pinned := fun k => if k = b then none else m.pinned k
  issued := m.issued ++ [(b, data)]

/-- The loop of write_log from iteration `tail` on, `rest` being the entries
of log.lh.block not yet copied. -/
def writeLogFrom (l : Log) (m : Store) : Nat → List Nat → Store
  | _, [] => m
  | tail, b :: rest =>
    let from_ := bread m b
    writeLogFrom l (bwrite m (l.start + tail + 1) from_) (tail + 1) rest

def writeLog (l : Log) (m : Store) : Store := writeLogFrom l m 0 l.lh.block

/-- The loop of install_trans from iteration `tail` on. -/
def installTransFrom (l : Log) (m : Store) : Nat → List Nat → Store
  | _, [] => m
  | tail, b :: rest =>
    let lbuf := bread m (l.start + tail + 1)
    installTransFrom l (bwrite m b lbuf) (tail + 1) rest

def installTrans (l : Log) (m : Store) : Store := installTransFrom l m 0 l.lh.block

/-- write_head stores n and the first n entries and keeps the other bytes. -/
def headerBlock (buf : Block) (lh : LogHeader) : Block :=
  putWords (putLE buf 0 4 lh.n) 4 (fun i => lh.block.getD i 0) lh.n

def writeHead (l : Log) (m : Store) : Store :=
  bwrite m l.start (headerBlock (bread m l.start) l.lh)

/-- The on-disk count, an int: a negative one runs no loop iteration. -/
def headerCount (buf : Block) : Nat :=
  let n := getLE buf 0 4
  if n < 2 ^ 31 then n else 0

/-- The entries that the loop of read_head copies out of the header block. -/
def headerEntries (buf : Block) : List Nat :=
  (List.range (headerCount buf)).map fun i => getLE buf (4 + 4 * i) 4

theorem headerEntries_bounded (buf : Block) : ∀ b ∈ headerEntries buf, b < 2 ^ 32 := by
  intro b member
  obtain ⟨i, _, rfl⟩ := List.mem_map.mp member
  exact getLE_lt buf (4 + 4 * i) 4

/-- read_head; a count above LOGSIZE would overrun log.lh.block. -/
def readHead (l : Log) (m : Store) : Option Log :=
  let buf := bread m l.start
  if fits : (headerEntries buf).length ≤ logSize then
    some { l with lh := ⟨headerEntries buf, fits, headerEntries_bounded buf⟩ }
  else none

def commit (l : Log) (m : Store) : Log × Store :=
  if l.lh.n > 0 then
    let m := writeLog l m
    let m := writeHead l m
    let m := installTrans l m
    let l := { l with lh := LogHeader.empty }
    (l, writeHead l m)
  else (l, m)

def recoverFromLog (l : Log) (m : Store) : Option (Log × Store) := do
  let l ← readHead l m
  let m := installTrans l m
  let l := { l with lh := LogHeader.empty }
  return (l, writeHead l m)

/-- The machine after a crash or at boot: only the disk survives. -/
def boot (d : Disk) : Store := ⟨d, fun _ => none, []⟩

def commitWrites (l : Log) (m : Store) : List (Nat × Block) :=
  (commit l { m with issued := [] }).2.issued

def recoverWrites (l : Log) (d : Disk) : List (Nat × Block) :=
  match recoverFromLog l (boot d) with
  | some (_, m) => m.issued
  | none => []

/-- The disk when the machine stops after `k` of the writes. -/
def crashAfter (d : Disk) (ws : List (Nat × Block)) (k : Nat) : Disk := applyWrites d (ws.take k)

/-- Successive recoveries, each cut short after the given number of writes. -/
def interrupted (l : Log) : List Nat → Disk → Disk
  | [], d => d
  | k :: rest, d => interrupted l rest (crashAfter d (recoverWrites l d) k)

/-- The disk left by a recovery that runs to its end. -/
def recovered (l : Log) (d : Disk) : Option Disk :=
  (recoverFromLog l (boot d)).map fun r => r.2.disk

def InLog (l : Log) (b : Nat) : Prop := l.start ≤ b ∧ b < l.start + l.size

/-- What end_op hands to commit: distinct home blocks outside the log area,
with room for them in the log, and an erased on-disk header. The new contents
of home block `b` are what the cache holds, `bread m b`. -/
structure Ready (l : Log) (m : Store) : Prop where
  nonempty : 0 < l.lh.n
  room : l.lh.n ≤ l.size - 1
  distinct : l.lh.block.Nodup
  home : ∀ b ∈ l.lh.block, ¬ InLog l b
  erased : headerCount (m.disk l.start) = 0

end ColorXv6.Logging.Commit
