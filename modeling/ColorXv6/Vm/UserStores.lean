import ColorXv6.Fs.Inode
import ColorXv6.Vm.UserPointers

/-!
The system calls that store results through a pointer of the process, with the addresses they store
to. Each call passes a size of its own to `argptr`; the stores come later, in other files.
-/
namespace ColorXv6.Vm.UserStores
open Lib.LittleEndian Lib.Wp Param Mmu Process Kernel UserPointers

/-- What a file is to `fileread` and `filestat`. -/
inductive Source where
  | pipe (queued : Nat)
  | file (size off : Nat)
  /-- the bytes that come before the process is killed -/
  | console (input : List UInt8)
  | noDriver
deriving DecidableEq

structure File where
  readable : Bool
  source : Source
deriving DecidableEq

/-- The process: its size, its stack pointer, its memory and its open files. -/
structure User where
  sz : Nat
  esp : Nat
  mem : Bytes
  ofile : Nat → Option File

/-! Arguments, as the uints they are on the stack. -/

def User.argint (u : User) (n : Nat) : Option Nat :=
  let addr := word (u.esp + 4 + 4 * n)
  if fetchint u.sz addr then some (getLE u.mem addr 4) else none

def User.argptr (u : User) (n : Nat) (size : Int) : Option Nat :=
  (u.argint n).bind fun i => if Kernel.argptr u.sz i size then some i else none

def User.argfd (u : User) (n : Nat) : Option File :=
  (u.argint n).bind fun fd => if fd < nofile then u.ofile fd else none

/-- The addresses of `n` bytes. -/
def bytesFrom (addr n : Nat) : List Nat := (List.range n).map fun i => word (addr + i)

/-! The stores of `fileread`. -/

/-- The copy loop of `piperead`: `left` turns to go, `queued` bytes in the pipe. -/
def piperead (addr : Nat) : Nat → Nat → Nat → List Nat
  | 0, _, _ => []
  | _ + 1, 0, _ => []
  | left + 1, queued + 1, i => word (addr + i) :: piperead addr left queued (i + 1)

/-- The loop of `readi`, a `memmove` for each block; the fuel is for the turns. -/
def readBlocks : Nat → Nat → Nat → Nat → List Nat
  | 0, _, _, _ => []
  | fuel + 1, dst, off, left =>
    if left = 0 then []
    else
      let m := min left (bsize - off % bsize)
      bytesFrom dst m ++ readBlocks fuel (word (dst + m)) (off + m) (left - m)

def readi (size off dst n : Nat) : List Nat :=
  if off > size ∨ word (off + n) < off then []
  else
    let n := if word (off + n) > size then size - off else n
    readBlocks n dst off n

/-- `C('D')`. -/
def eof : UInt8 := 4

def newline : UInt8 := 10

def consoleread : List UInt8 → Nat → Nat → List Nat
  | _, _, 0 => []
  | [], _, _ + 1 => []
  | c :: rest, dst, n + 1 =>
    if c = eof then []
    else word dst :: if c = newline then [] else consoleread rest (dst + 1) n

def fileread (f : File) (addr n : Nat) : List Nat :=
  if f.readable then
    match f.source with
    | .pipe queued => piperead addr n queued 0
    | .file size off => readi size off addr n
    | .console input => consoleread input addr n
    | .noDriver => []
  else []

/-! `struct stat` and `struct rtcdate`. -/

def statSize : Nat := 20

def rtcdateSize : Nat := 24

/-- The fields of `struct stat` in the order in which `stati` stores them. -/
def stati (st : Nat) : List Nat :=
  bytesFrom (st + 4) 4 ++ bytesFrom (st + 8) 4 ++ bytesFrom st 2 ++ bytesFrom (st + 12) 2 ++
    bytesFrom (st + 16) 4

def filestat (f : File) (st : Nat) : List Nat :=
  match f.source with
  | .pipe _ => []
  | _ => stati st

/-- The whole struct, and then the year again. -/
def cmostime (r : Nat) : List Nat := bytesFrom r rtcdateSize ++ bytesFrom (r + 20) 4

/-- `*status = p->ret` for a child that is found. -/
def waitStore (status : Nat) : List Nat := if status ≠ 0 then bytesFrom status 4 else []

/-! The calls. -/

def sysRead (u : User) : List Nat :=
  match u.argfd 0, u.argint 2 with
  | some f, some n =>
    match u.argptr 1 (toInt n) with
    | some p => fileread f p n
    | none => []
  | _, _ => []

def sysFstat (u : User) : List Nat :=
  match u.argfd 0, u.argptr 1 statSize with
  | some f, some st => filestat f st
  | _, _ => []

/-- `made` says whether the pipe and two descriptors were to be had. -/
def sysPipe (u : User) (made : Bool) : List Nat :=
  match u.argptr 0 8 with
  | some fd => if made then bytesFrom fd 4 ++ bytesFrom (fd + 4) 4 else []
  | none => []

def sysDate (u : User) : List Nat :=
  match u.argptr 0 rtcdateSize with
  | some r => cmostime r
  | none => []

/-- `sizeof(int*) < 0` is the size that `sys_wait` passes. `found` says whether there is a child to
return. -/
def sysWait (u : User) (found : Bool) : List Nat :=
  match u.argptr 0 (if 4 < 0 then 1 else 0) with
  | some pstatus => if found then waitStore pstatus else []
  | none => []

inductive Call where
  | read
  | fstat
  | pipe (made : Bool)
  | date
  | wait (found : Bool)
deriving DecidableEq

/-- The bytes that a call stores to. -/
def stores (u : User) : Call → List Nat
  | .read => sysRead u
  | .fstat => sysFstat u
  | .pipe made => sysPipe u made
  | .date => sysDate u
  | .wait found => sysWait u found

/-- For `wait` with a child to return: no pointer, or one with four bytes below the size. -/
def Covered (u : User) : Call → Prop
  | .wait found => ∀ p, found = true → u.argptr 0 0 = some p → p = 0 ∨ p + 4 ≤ u.sz
  | _ => True

section Bounds
variable {u : User} {addr n lo hi : Nat}

theorem mem_bytesFrom {a : Nat} (mem : a ∈ bytesFrom addr n) : ∃ i < n, a = word (addr + i) := by
  obtain ⟨i, inside, rfl⟩ := List.mem_map.mp mem
  exact ⟨i, List.mem_range.mp inside, rfl⟩

theorem bytesFrom_append (m : Nat) :
    bytesFrom addr m ++ bytesFrom (word (addr + m)) n = bytesFrom addr (m + n) := by
  unfold bytesFrom
  rw [List.range_add, List.map_append, List.map_map]
  congr 2
  funext i
  simp [word, Nat.add_assoc]

/-- The turns of `readi` store to consecutive bytes. -/
theorem readBlocks_eq {fuel off : Nat} (enough : n ≤ fuel) :
    readBlocks fuel addr off n = bytesFrom addr n := by
  induction fuel generalizing addr off n with
  | zero =>
    rw [Nat.le_zero.mp enough]
    rfl
  | succ fuel ih =>
    unfold readBlocks
    split
    · rename_i done
      rw [done]
      rfl
    · have some : off % bsize < bsize := Nat.mod_lt _ (by decide)
      dsimp only
      rw [ih (by omega), bytesFrom_append]
      congr 1
      omega

/-- `readi` stores as many bytes as it returns. -/
theorem readi_stores {s : Fs.Inode.Fs} {ip off : Nat} (file : (s.inode ip).din.type ≠ Fs.Layout.tDev) :
    wp (Fs.Inode.readi ip off n) (fun r _ =>
      readi (s.inode ip).din.size off addr n = bytesFrom addr r.1.toNat) (fun _ => True) s := by
  unfold Fs.Inode.readi readi word
  rw [wp_read, if_neg file]
  split
  · exact wp_ret rfl
  · apply wp_seq (wp_true _ s fun _ => True.intro)
    intro _ _ _
    exact wp_ret (readBlocks_eq (le_refl _))

/-- Addresses between two bounds. -/
def Within (lo hi : Nat) (addrs : List Nat) : Prop := ∀ a ∈ addrs, lo ≤ a ∧ a < hi

theorem Within.append {xs ys : List Nat} (first : Within lo hi xs) (second : Within lo hi ys) :
    Within lo hi (xs ++ ys) := by
  intro a mem
  obtain left | right := List.mem_append.mp mem
  · exact first a left
  · exact second a right

theorem within_nil : Within lo hi [] := nofun

section Stores
variable (low : lo ≤ addr)
include low

theorem within_bytesFrom (high : addr + n ≤ hi) (small : hi ≤ kernBase) :
    Within lo hi (bytesFrom addr n) := by
  intro a mem
  obtain ⟨i, inside, rfl⟩ := mem_bytesFrom mem
  unfold word
  unfold kernBase at small
  omega

theorem within_piperead {queued i : Nat} (high : addr + i + n ≤ hi) (small : hi ≤ kernBase) :
    Within lo hi (piperead addr n queued i) := by
  induction n generalizing queued i with
  | zero => exact within_nil
  | succ n ih =>
    cases queued with
    | zero => exact within_nil
    | succ queued =>
      intro a mem
      obtain rfl | later := List.mem_cons.mp mem
      · unfold word
        unfold kernBase at small
        omega
      · exact ih (by omega) a later

theorem within_readi {size off : Nat} (high : addr + n ≤ hi) (small : hi ≤ kernBase) :
    Within lo hi (readi size off addr n) := by
  unfold readi
  split
  · exact within_nil
  · rename_i inside
    rw [readBlocks_eq (le_refl _)]
    refine within_bytesFrom low ?_ small
    split
    · rename_i past
      unfold word at inside past
      omega
    · exact high

theorem within_consoleread {input : List UInt8} (high : addr + n ≤ hi)
    (small : hi ≤ kernBase) : Within lo hi (consoleread input addr n) := by
  induction input generalizing addr n with
  | nil =>
    cases n with
    | zero => exact within_nil
    | succ n => exact within_nil
  | cons c rest ih =>
    cases n with
    | zero => exact within_nil
    | succ n =>
      unfold consoleread
      split
      · exact within_nil
      · intro a mem
        obtain rfl | later := List.mem_cons.mp mem
        · unfold word
          unfold kernBase at small
          omega
        · split at later
          · cases later
          · exact ih (by omega) (by omega) a later

theorem within_fileread {f : File} (high : addr + n ≤ hi) (small : hi ≤ kernBase) :
    Within lo hi (fileread f addr n) := by
  unfold fileread
  split
  · split
    · exact within_piperead low (by omega) small
    · exact within_readi low high small
    · exact within_consoleread low high small
    · exact within_nil
  · exact within_nil

end Stores

theorem argint_lt {w : Nat} (fetched : u.argint n = some w) : w < 2 ^ 32 := by
  unfold User.argint at fetched
  dsimp only at fetched
  split at fetched
  · rw [← Option.some.inj fetched]
    exact getLE_lt u.mem _ 4
  · cases fetched

/-- A pointer that `argptr` gives out has its size below that of the process. -/
theorem argptr_below {size : Int} {p : Nat} (small : u.sz ≤ kernBase) (int : size < 2 ^ 31)
    (given : u.argptr n size = some p) : 0 ≤ size ∧ p + size.toNat ≤ u.sz ∧ p < u.sz := by
  obtain ⟨i, fetched, ok⟩ := Option.bind_eq_some_iff.mp given
  split at ok
  · rename_i accepted
    rw [← Option.some.inj ok]
    have below := accepted_below small (.argptr i size (argint_lt fetched) int accepted)
    simp only [Kernel.argptr, Bool.not_eq_true', Bool.or_eq_false_iff, decide_eq_false_iff_not] at accepted
    omega
  · cases ok

theorem toInt_lt {w : Nat} (small : w < 2 ^ 32) : toInt w < 2 ^ 31 := by
  unfold toInt
  split
  · omega
  · omega

section Calls
variable (small : u.sz ≤ kernBase)
include small

/-- `read` checks as many bytes as it is asked for. -/
theorem within_sysRead : Within 0 u.sz (sysRead u) := by
  unfold sysRead
  split
  · rename_i f w _ count
    split
    · rename_i p given
      have word := argint_lt count
      obtain ⟨positive, below, -⟩ := argptr_below small (toInt_lt word) given
      refine within_fileread (Nat.zero_le p) ?_ small
      unfold toInt at below positive
      split at below
      · omega
      · omega
    · exact within_nil
  · exact within_nil

theorem within_sysFstat : Within 0 u.sz (sysFstat u) := by
  unfold sysFstat
  split
  · rename_i f st _ given
    obtain ⟨-, below, -⟩ := argptr_below small (by decide) given
    have room : st + 20 ≤ u.sz := below
    unfold filestat
    split
    · exact within_nil
    · unfold stati
      refine ((((within_bytesFrom ?_ ?_ small).append (within_bytesFrom ?_ ?_ small)).append
        (within_bytesFrom ?_ ?_ small)).append (within_bytesFrom ?_ ?_ small)).append
        (within_bytesFrom ?_ ?_ small)
      all_goals omega
  · exact within_nil

theorem within_sysPipe (made : Bool) : Within 0 u.sz (sysPipe u made) := by
  unfold sysPipe
  split
  · rename_i fd given
    obtain ⟨-, below, -⟩ := argptr_below small (by decide) given
    split
    · exact (within_bytesFrom (Nat.zero_le _) (by omega) small).append
        (within_bytesFrom (Nat.zero_le _) (by omega) small)
    · exact within_nil
  · exact within_nil

theorem within_sysDate : Within 0 u.sz (sysDate u) := by
  unfold sysDate
  split
  · rename_i r given
    obtain ⟨-, below, -⟩ := argptr_below small (by decide) given
    have room : r + 24 ≤ u.sz := below
    exact (within_bytesFrom (Nat.zero_le _) room small).append
      (within_bytesFrom (Nat.zero_le _) (by omega) small)
  · exact within_nil

end Calls

theorem sysWait_eq (found : Bool) : sysWait u found =
    match u.argptr 0 0 with
    | some p => if found then waitStore p else []
    | none => [] := rfl

/-- `wait` checks no byte but the first. -/
theorem within_sysWait_iff (small : u.sz ≤ kernBase) (found : Bool) :
    Within 0 u.sz (sysWait u found) ↔ Covered u (.wait found) := by
  rw [sysWait_eq]
  unfold Covered
  cases given : u.argptr 0 0 with
  | none => exact ⟨fun _ => nofun, fun _ => within_nil⟩
  | some p =>
    obtain ⟨-, -, below⟩ := argptr_below small (by decide) given
    dsimp only
    unfold waitStore
    cases found with
    | false => exact ⟨fun _ => nofun, fun _ => within_nil⟩
    | true =>
      rw [if_pos rfl]
      constructor
      · intro within p' _ same
        cases same
        by_cases null : p = 0
        · exact .inl null
        rw [if_pos null] at within
        have last := (within (word (p + 3)) (List.mem_map.mpr ⟨3, by decide, rfl⟩)).2
        unfold word at last
        unfold kernBase at small
        omega
      · intro covered
        obtain null | room := covered p rfl rfl
        · rw [if_neg (not_not.mpr null)]
          exact within_nil
        · split
          · exact within_bytesFrom (Nat.zero_le p) room small
          · exact within_nil

end Bounds

/-- Every byte a call stores to is below the size of the process, if and only if `wait` is not given
a pointer to less than four such bytes. -/
theorem stores_below_iff {u : User} (small : u.sz ≤ kernBase) (call : Call) :
    (∀ a ∈ stores u call, a < u.sz) ↔ Covered u call := by
  have within : (∀ a ∈ stores u call, a < u.sz) ↔ Within 0 u.sz (stores u call) :=
    ⟨fun below a mem => ⟨Nat.zero_le a, below a mem⟩, fun both a mem => (both a mem).2⟩
  rw [within]
  cases call with
  | read => exact iff_of_true (within_sysRead small) trivial
  | fstat => exact iff_of_true (within_sysFstat small) trivial
  | pipe made => exact iff_of_true (within_sysPipe small made) trivial
  | date => exact iff_of_true (within_sysDate small) trivial
  | wait found => exact within_sysWait_iff small found

/-- A process of one page whose first argument is `p`. -/
def onePage (p : Nat) : User where
  sz := pgSize
  esp := 0
  mem := putLE (fun _ => 0) 4 4 p
  ofile := fun _ => none

/-- A pointer to the last four bytes. -/
theorem stores_below_iff_last_word : (onePage 4092).sz ≤ kernBase ∧
    ∀ a ∈ stores (onePage 4092) (.wait true), a < (onePage 4092).sz := by
  have small : (onePage 4092).sz ≤ kernBase := by decide
  refine ⟨small, (stores_below_iff small (.wait true)).mpr ?_⟩
  rintro p - given
  have here : (onePage 4092).argptr 0 0 = some 4092 := by decide +kernel
  rw [here] at given
  rw [← Option.some.inj given]
  exact .inr (by decide)

/-- A pointer to the last byte: three bytes of the status go past the end. -/
theorem wait_stores_past_end : stores (onePage 4095) (.wait true) = [4095, 4096, 4097, 4098] := by
  decide +kernel

end ColorXv6.Vm.UserStores
