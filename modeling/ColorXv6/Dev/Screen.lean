import Mathlib.Logic.Function.Basic
import Mathlib.Tactic.Ring

/-!
console.c: the CGA screen. `cgaputc` keeps the cursor in two registers of the controller and text
in the cells of the buffer; colour codes come in the text itself.
-/
namespace ColorXv6.Dev.Screen
open Function

def backspace : Nat := 0x100
def newline : Nat := 10

/-! Bytes of graphics.h that stand for colours. -/

def red : Nat := 0xe0
def lred : Nat := 0xe1
def magenta : Nat := 0x10
def dmagenta : Nat := 0x11
def cyan : Nat := 0x1e
def dcyan : Nat := 0x1f
def blue : Nat := 0xe6
def dblue : Nat := 0xe7
def green : Nat := 0xe8
def dgreen : Nat := 0xe9
def yellow : Nat := 0xea
def white : Nat := 0xeb
def grey : Nat := 0xec
def lgrey : Nat := 0xed
def black : Nat := 0xee
def bred : Nat := 0xc0
def blred : Nat := 0xc1
def bmagenta : Nat := 0xc2
def bdmagenta : Nat := 0xc3
def bcyan : Nat := 0xc4
def bdcyan : Nat := 0xc5
def bblue : Nat := 0xc6
def bdblue : Nat := 0xc7
def bgreen : Nat := 0xc8
def bdgreen : Nat := 0xc9
def byellow : Nat := 0xca
def bwhite : Nat := 0xcb
def bgrey : Nat := 0xcc
def blgrey : Nat := 0xcd
def bblack : Nat := 0xce

def getcolorcode (bytecolor : Nat) : Nat :=
  if bytecolor = red ∨ bytecolor = bred then 0x4
  else if bytecolor = lred ∨ bytecolor = blred then 0xc
  else if bytecolor = magenta ∨ bytecolor = bmagenta then 0xd
  else if bytecolor = dmagenta ∨ bytecolor = bdmagenta then 0x5
  else if bytecolor = cyan ∨ bytecolor = bcyan then 0xb
  else if bytecolor = dcyan ∨ bytecolor = bdcyan then 0x3
  else if bytecolor = blue ∨ bytecolor = bblue then 0x9
  else if bytecolor = dblue ∨ bytecolor = bdblue then 0x1
  else if bytecolor = green ∨ bytecolor = bgreen then 0xa
  else if bytecolor = dgreen ∨ bytecolor = bdgreen then 0x2
  else if bytecolor = yellow ∨ bytecolor = byellow then 0xe
  else if bytecolor = white ∨ bytecolor = bwhite then 0xf
  else if bytecolor = grey ∨ bytecolor = bgrey then 0x8
  else if bytecolor = lgrey ∨ bytecolor = blgrey then 0x7
  else if bytecolor = black ∨ bytecolor = bblack then 0x0
  else 0x6

/-- The cells of the text buffer, the two cursor registers of the controller, and the colours.
`stores` lists the cells that were stored to, first of all. -/
structure Cga where
  crt : Nat → BitVec 16
  high : UInt8
  low : UInt8
  foreground : Nat
  background : Nat
  stores : List Nat

def Cga.cursor (s : Cga) : Nat := s.high.toNat <<< 8 ||| s.low.toNat

/-- `outb` of both halves. -/
def Cga.setCursor (s : Cga) (pos : Nat) : Cga :=
  { s with high := UInt8.ofNat (pos >>> 8), low := UInt8.ofNat pos }

def Cga.store (s : Cga) (i : Nat) (x : BitVec 16) : Cga :=
  { s with crt := update s.crt i x, stores := s.stores ++ [i] }

/-- `memmove` of `n` cells. -/
def Cga.memmove (s : Cga) (dst src n : Nat) : Cga :=
  { s with
    crt := fun i => if dst ≤ i ∧ i < dst + n then s.crt (src + (i - dst)) else s.crt i
    stores := s.stores ++ List.range' dst n }

/-- `memset` of `n` cells to zero. -/
def Cga.memset (s : Cga) (dst n : Nat) : Cga :=
  { s with
    crt := fun i => if dst ≤ i ∧ i < dst + n then 0 else s.crt i
    stores := s.stores ++ List.range' dst n }

def IsForeground (c : Nat) : Prop :=
  (0xe6 ≤ c ∧ c ≤ 0xef) ∨ c = red ∨ c = lred ∨ c = 0x10 ∨ c = 0x11 ∨ c = 0x1e ∨ c = 0x1f

def IsBackground (c : Nat) : Prop := 0xc0 ≤ c ∧ c ≤ 0xcf

instance (c : Nat) : Decidable (IsForeground c) := inferInstanceAs (Decidable (_ ∨ _))

instance (c : Nat) : Decidable (IsBackground c) := inferInstanceAs (Decidable (_ ∧ _))

/-- A character in the current colours. -/
def Cga.glyph (s : Cga) (c : Nat) : BitVec 16 :=
  BitVec.ofNat 16 (c &&& 0xff ||| (s.foreground ||| s.background <<< 4) <<< 8)

/-- The first half of `cgaputc`: what the code does, and where the cursor goes. -/
def putCode (c : Nat) (s : Cga) : Cga × Nat :=
  let pos := s.cursor
  if c = newline then (s, pos + (80 - pos % 80))
  else if c = backspace then (s, if pos > 0 then pos - 1 else pos)
  else if IsForeground c then ({ s with foreground := getcolorcode c }, pos)
  else if IsBackground c then ({ s with background := getcolorcode c }, pos)
  else (s.store pos (s.glyph c), pos + 1)

/-- `' ' | 0x0700`. -/
def blank : BitVec 16 := 0x0720

/-- The second half; `none` is `panic("pos under/overflow")`. -/
def finish (s : Cga) (pos : Nat) : Option Cga :=
  if pos > 25 * 80 then none
  else if pos / 80 ≥ 24 then
    let pos' := pos - 80
    some (((((s.memmove 0 80 (23 * 80)).memset pos' (24 * 80 - pos'))).setCursor pos').store pos' blank)
  else some ((s.setCursor pos).store pos blank)

def cgaputc (c : Nat) (s : Cga) : Option Cga := finish (putCode c s).1 (putCode c s).2

def run (s : Cga) : List Nat → Option Cga
  | [] => some s
  | c :: codes => (cgaputc c s).bind fun t => run t codes

/-! Where text goes. -/

/-- A code that is written as a character. -/
def Printable (c : Nat) : Prop :=
  c ≠ newline ∧ c ≠ backspace ∧ ¬ IsForeground c ∧ ¬ IsBackground c

/-- The code moves the cursor past the last row. -/
def Scrolls (c : Nat) (s : Cga) : Prop := 24 * 80 ≤ (putCode c s).2

instance (c : Nat) (s : Cga) : Decidable (Scrolls c s) := inferInstanceAs (Decidable (_ ≤ _))

/-- The cell of a character that the code has written. -/
def placed (c : Nat) (s : Cga) : Nat := if Scrolls c s then s.cursor - 80 else s.cursor

/-- The cell of an earlier character, if it is not backspaced over or scrolled off the top. -/
def moved (c : Nat) (s : Cga) (q : Nat) : Option Nat :=
  if c = backspace ∧ q + 1 = s.cursor then none
  else if Scrolls c s then if q < 80 then none else some (q - 80)
  else some q

def follow (s : Cga) (q : Nat) : List Nat → Option Nat
  | [] => some q
  | c :: codes => (cgaputc c s).bind fun t => (moved c s q).bind fun q => follow t q codes

section Calls
variable {s t : Cga} {c pos : Nat}

theorem cursor_setCursor (small : pos < 2 ^ 16) : (s.setCursor pos).cursor = pos := by
  unfold Cga.setCursor Cga.cursor
  rw [UInt8.toNat_ofNat', UInt8.toNat_ofNat',
    ← Nat.shiftLeft_add_eq_or_of_lt (Nat.mod_lt _ (by decide) : pos % 2 ^ 8 < 2 ^ 8), Nat.shiftLeft_eq,
    Nat.shiftRight_eq_div_pow]
  omega

@[simp] theorem cursor_store (i : Nat) (x : BitVec 16) : (s.store i x).cursor = s.cursor := rfl

/-- The cursor before the screen is scrolled. -/
theorem putCode_le (start : s.cursor < 24 * 80) : (putCode c s).2 ≤ 24 * 80 := by
  unfold putCode
  split
  · dsimp only
    omega
  · split
    · dsimp only
      split <;> omega
    · split
      · dsimp only
        omega
      · split
        · dsimp only
          omega
        · dsimp only
          omega

theorem finish_above (inside : pos < 24 * 80) : finish s pos = some ((s.setCursor pos).store pos blank) := by
  unfold finish
  rw [if_neg (by omega), if_neg (by omega)]

/-- The screen is scrolled by one row, and the last row is cleared. -/
theorem finish_bottom : finish s (24 * 80) =
    some ((((s.memmove 0 80 (23 * 80)).memset (23 * 80) 80).setCursor (23 * 80)).store (23 * 80) blank) := rfl

/-- What a call does once the cursor has moved. -/
inductive Put (c : Nat) (s t : Cga) : Prop where
  | above (inside : ¬ Scrolls c s)
      (after : t = ((putCode c s).1.setCursor (putCode c s).2).store (putCode c s).2 blank)
  | bottom (scrolls : Scrolls c s) (full : (putCode c s).2 = 24 * 80)
      (after : t = (((((putCode c s).1.memmove 0 80 (23 * 80)).memset (23 * 80) 80).setCursor
        (23 * 80)).store (23 * 80) blank))

theorem cgaputc_put (c : Nat) (start : s.cursor < 24 * 80) : ∃ t, cgaputc c s = some t ∧ Put c s t := by
  have le := putCode_le (c := c) start
  unfold cgaputc
  by_cases scrolls : Scrolls c s
  · have full : (putCode c s).2 = 24 * 80 := Nat.le_antisymm le scrolls
    refine ⟨_, ?_, .bottom scrolls full rfl⟩
    rw [full]
    exact finish_bottom
  · exact ⟨_, finish_above (Nat.lt_of_not_le scrolls), .above scrolls rfl⟩

theorem Put.full (put : Put c s t) (scrolls : Scrolls c s) : (putCode c s).2 = 24 * 80 := by
  cases put with
  | above inside _ => exact absurd scrolls inside
  | bottom _ full _ => exact full

theorem Put.cursor (put : Put c s t) : t.cursor = if Scrolls c s then 23 * 80 else (putCode c s).2 := by
  cases put with
  | above inside after =>
    have small := Nat.lt_of_not_le inside
    rw [after, cursor_store, cursor_setCursor (by omega), if_neg inside]
  | bottom scrolls full after =>
    rw [after, cursor_store, cursor_setCursor (by decide), if_pos scrolls]

theorem Put.cursor_lt (put : Put c s t) : t.cursor < 24 * 80 := by
  rw [put.cursor]
  split
  · decide
  · rename_i inside
    exact Nat.lt_of_not_le inside

theorem putCode_stores (start : s.cursor < 24 * 80) :
    ∀ i ∈ (putCode c s).1.stores, i ∈ s.stores ∨ i < 25 * 80 := by
  intro i mem
  unfold putCode at mem
  split at mem
  · exact .inl mem
  · split at mem
    · exact .inl mem
    · split at mem
      · exact .inl mem
      · split at mem
        · exact .inl mem
        · rcases List.mem_append.mp mem with before | here
          · exact .inl before
          · rw [List.mem_singleton.mp here]
            exact .inr (by omega)

theorem Put.stores (put : Put c s t) (start : s.cursor < 24 * 80) :
    ∀ i ∈ t.stores, i ∈ s.stores ∨ i < 25 * 80 := by
  have first := putCode_stores (c := c) start
  intro i mem
  cases put with
  | above inside after =>
    rw [after] at mem
    rcases List.mem_append.mp mem with before | here
    · exact first i before
    · have small := Nat.lt_of_not_le inside
      rw [List.mem_singleton.mp here]
      exact .inr (by omega)
  | bottom _ _ after =>
    rw [after] at mem
    rcases List.mem_append.mp mem with before | here
    · rcases List.mem_append.mp before with before | here
      · rcases List.mem_append.mp before with before | here
        · exact first i before
        · obtain ⟨k, small, rfl⟩ := List.mem_range'.mp here
          exact .inr (by omega)
      · obtain ⟨k, small, rfl⟩ := List.mem_range'.mp here
        exact .inr (by omega)
    · rw [List.mem_singleton.mp here]
      exact .inr (by decide)

/-- Text before the cursor is not stored to. -/
theorem putCode_crt {q : Nat} (left : q < s.cursor) : (putCode c s).1.crt q = s.crt q := by
  unfold putCode
  split
  · rfl
  · split
    · rfl
    · split
      · rfl
      · split
        · rfl
        · exact update_of_ne (by omega) _ _

theorem putCode_past {q : Nat} (left : q < s.cursor) (kept : ¬ (c = backspace ∧ q + 1 = s.cursor)) :
    q < (putCode c s).2 := by
  unfold putCode
  split
  · dsimp only
    omega
  · split
    · rename_i back
      dsimp only
      split <;> omega
    · split
      · exact left
      · split
        · exact left
        · dsimp only
          omega

/-- A cell above the row of the cursor, after the call. -/
theorem Put.crt_eq (put : Put c s t) {q : Nat} (past : q < (putCode c s).2) :
    if Scrolls c s then 80 ≤ q → t.crt (q - 80) = (putCode c s).1.crt q
    else t.crt q = (putCode c s).1.crt q := by
  cases put with
  | above inside after =>
    rw [if_neg inside, after]
    exact update_of_ne (by omega) _ _
  | bottom scrolls full after =>
    rw [if_pos scrolls, after]
    intro low
    unfold Cga.store Cga.setCursor Cga.memset Cga.memmove
    dsimp only
    rw [update_of_ne (by omega), if_neg (by omega), if_pos (by omega)]
    congr 1
    omega

/-- A character that is neither backspaced over nor scrolled off is where `moved` says. -/
theorem Put.survives (put : Put c s t) {q r : Nat} (left : q < s.cursor) (still : moved c s q = some r) :
    r < t.cursor ∧ t.crt r = s.crt q := by
  unfold moved at still
  split at still
  · cases still
  · rename_i kept
    have past := putCode_past left kept
    have cell := put.crt_eq past
    rw [putCode_crt left] at cell
    rw [put.cursor]
    split at still
    · rename_i scrolls
      rw [if_pos scrolls] at cell ⊢
      split at still
      · cases still
      · rename_i low
        rw [← Option.some.inj still]
        have full := put.full scrolls
        exact ⟨by omega, cell (by omega)⟩
    · rename_i stays
      rw [if_neg stays] at cell ⊢
      rw [← Option.some.inj still]
      exact ⟨past, cell⟩

theorem putCode_printable (printable : Printable c) :
    putCode c s = (s.store s.cursor (s.glyph c), s.cursor + 1) := by
  obtain ⟨line, back, fore, ground⟩ := printable
  unfold putCode
  rw [if_neg line, if_neg back, if_neg fore, if_neg ground]

theorem Put.prints (put : Put c s t) (printable : Printable c) :
    placed c s < t.cursor ∧ t.crt (placed c s) = s.glyph c := by
  have code := putCode_printable (s := s) printable
  have cell := put.crt_eq (q := s.cursor) (by rw [code]; exact Nat.lt_succ_self _)
  have stored : (putCode c s).1.crt s.cursor = s.glyph c := by
    rw [code]
    exact update_self ..
  rw [stored] at cell
  unfold placed
  rw [put.cursor]
  split
  · rename_i scrolls
    rw [if_pos scrolls] at cell
    have full := put.full scrolls
    rw [code] at full
    exact ⟨by omega, cell (by omega)⟩
  · rename_i stays
    rw [if_neg stays] at cell
    rw [code]
    exact ⟨Nat.lt_succ_self _, cell⟩

/-- The colours after a code. -/
def colours (c : Nat) (s : Cga) : Nat × Nat :=
  if IsForeground c then (getcolorcode c, s.background)
  else if IsBackground c then (s.foreground, getcolorcode c)
  else (s.foreground, s.background)

/-- A colour code changes a colour and blanks the cell of the cursor. -/
theorem Put.recolours (put : Put c s t) (start : s.cursor < 24 * 80)
    (colour : IsForeground c ∨ IsBackground c) :
    t.crt = update s.crt s.cursor blank ∧ t.cursor = s.cursor ∧
      (t.foreground, t.background) = colours c s := by
  have other : c ≠ newline ∧ c ≠ backspace := by
    unfold IsForeground IsBackground red lred at colour
    unfold newline backspace
    omega
  have code : putCode c s =
      ({ s with foreground := (colours c s).1, background := (colours c s).2 }, s.cursor) := by
    unfold putCode colours
    rw [if_neg other.1, if_neg other.2]
    split
    · rfl
    · rename_i not
      have ground := colour.resolve_left not
      rw [if_pos ground, if_pos ground]
  have stays : ¬ Scrolls c s := by
    unfold Scrolls
    rw [code]
    exact Nat.not_le_of_lt start
  cases put with
  | above inside after =>
    rw [code] at after
    rw [after]
    exact ⟨rfl, by rw [cursor_store, cursor_setCursor (by omega)], rfl⟩
  | bottom scrolls _ _ => exact absurd scrolls stays

theorem run_put (start : s.cursor < 24 * 80) (codes : List Nat) :
    ∃ t, run s codes = some t ∧ t.cursor < 24 * 80 ∧ ∀ i ∈ t.stores, i ∈ s.stores ∨ i < 25 * 80 := by
  induction codes generalizing s with
  | nil => exact ⟨s, rfl, start, fun i mem => .inl mem⟩
  | cons c codes ih =>
    obtain ⟨t, call, put⟩ := cgaputc_put c start
    obtain ⟨u, later, inside, stores⟩ := ih put.cursor_lt
    refine ⟨u, by rw [run, call]; exact later, inside, fun i mem => ?_⟩
    rcases stores i mem with before | small
    · exact put.stores start i before
    · exact .inr small

theorem run_append (s : Cga) (codes more : List Nat) :
    run s (codes ++ more) = (run s codes).bind fun t => run t more := by
  induction codes generalizing s with
  | nil => rfl
  | cons c codes ih =>
    rw [List.cons_append, run, run]
    cases cgaputc c s with
    | none => rfl
    | some t => exact ih t

/-- Text stays where it is followed to. -/
theorem run_survives (start : s.cursor < 24 * 80) {q r : Nat} {codes : List Nat} (left : q < s.cursor)
    (done : run s codes = some t) (still : follow s q codes = some r) : t.crt r = s.crt q := by
  induction codes generalizing s q with
  | nil => rw [← Option.some.inj done, ← Option.some.inj still]
  | cons c codes ih =>
    obtain ⟨u, call, put⟩ := cgaputc_put c start
    rw [run, call] at done
    rw [follow, call, Option.bind_some] at still
    obtain ⟨p, step, later⟩ := Option.bind_eq_some_iff.mp still
    obtain ⟨before, cell⟩ := put.survives left step
    rw [ih put.cursor_lt before done later, cell]

/-- Every sequence of codes keeps the cursor and the stores on the screen and never panics; a
colour code changes a colour and blanks the cell of the cursor; a character stays in its cell in
its colours, up one row with every scroll, until it is backspaced over or scrolled off the top. -/
theorem screen_run (start : s.cursor < 24 * 80) (codes : List Nat) :
    ∃ t, run s codes = some t ∧ t.cursor < 24 * 80 ∧ (∀ i ∈ t.stores, i ∈ s.stores ∨ i < 25 * 80) ∧
      ∀ before c after, codes = before ++ c :: after →
        ∃ u v, run s before = some u ∧ cgaputc c u = some v ∧
          (IsForeground c ∨ IsBackground c → v.crt = update u.crt u.cursor blank ∧ v.cursor = u.cursor ∧
            (v.foreground, v.background) = colours c u) ∧
          (Printable c → ∀ q, follow v (placed c u) after = some q → t.crt q = u.glyph c) := by
  obtain ⟨t, done, inside, stores⟩ := run_put start codes
  refine ⟨t, done, inside, stores, ?_⟩
  rintro before c after rfl
  obtain ⟨u, first, start', -⟩ := run_put start before
  obtain ⟨v, call, put⟩ := cgaputc_put c start'
  refine ⟨u, v, first, call, put.recolours start', fun printable q still => ?_⟩
  obtain ⟨left, cell⟩ := put.prints printable
  rw [run_append, first, Option.bind_some, run, call, Option.bind_some] at done
  rw [run_survives put.cursor_lt left done still, cell]

end Calls

/-- An empty screen. -/
def cleared : Cga where
  crt := fun _ => 0
  high := 0
  low := 0
  foreground := 7
  background := 0
  stores := []

/-- A red letter, 30 newlines, which scroll it off the screen, and a backspace. -/
theorem screen_run_cleared : cleared.cursor < 24 * 80 ∧ ∃ t,
    run cleared ([0xe0, 65] ++ List.replicate 30 10 ++ [0x100]) = some t ∧ t.cursor < 24 * 80 :=
  have start : cleared.cursor < 24 * 80 := by decide
  have ⟨t, done, inside, _⟩ := screen_run start ([0xe0, 65] ++ List.replicate 30 10 ++ [0x100])
  ⟨start, t, done, inside⟩

end ColorXv6.Dev.Screen
