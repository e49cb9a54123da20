import Mathlib.Algebra.Order.Ring.Abs
import Mathlib.Data.List.Range
import Mathlib.Tactic.LinearCombination
import ColorXv6.Lib.Rounding

/-!
console.c: `drawline`. Coordinates are C ints; an int operation whose result is not an int has no
defined meaning, and the model stops there. The loop ends when the pen comes to column `bx`, which
is tested after each cell.
-/
namespace ColorXv6.Dev.DrawLine
open Lib.Rounding

inductive Stop where
  /-- signed overflow -/
  | overflow
  /-- the loop has not ended yet -/
  | endless
deriving DecidableEq

def InInt (x : Int) : Prop := -2 ^ 31 ≤ x ∧ x < 2 ^ 31

instance (x : Int) : Decidable (InInt x) := inferInstanceAs (Decidable (_ ∧ _))

/-- The result of an int operation. -/
def int (x : Int) : Except Stop Int := if InInt x then .ok x else .error .overflow

/-- The endpoints. -/
structure Ends where
  ax : Int
  ay : Int
  bx : Int
  by' : Int
deriving DecidableEq

/-- Increments of the pen: `incrementoXi`, `incrementoYi`, `incrementoXr`, `incrementoYr`, `avR`
and `avI`. -/
structure Slope where
  xi : Int
  yi : Int
  xr : Int
  yr : Int
  avR : Int
  avI : Int
deriving DecidableEq

structure Pen where
  x : Int
  y : Int
  av : Int
deriving DecidableEq

/-- A difference, made positive, and its direction. -/
def direction (d : Int) : Except Stop (Int × Int) :=
  if d ≥ 0 then return (d, 1)
  else do
    let d ← int (-d)
    return (d, -1)

/-- Everything before the loop. -/
def setup (e : Ends) : Except Stop (Slope × Pen) := do
  let dx ← int (e.bx - e.ax)
  let dy ← int (e.by' - e.ay)
  let (dy, yi) ← direction dy
  let (dx, xi) ← direction dx
  let (xr, yr, dx, dy) := if dx ≥ dy then (xi, 0, dx, dy) else (0, yi, dy, dx)
  let avR ← int (2 * dy)
  let av ← int (avR - dx)
  let avI ← int (av - dx)
  return ({ xi, yi, xr, yr, avR, avI }, { x := e.ax, y := e.ay, av })

/-- `80*(y-1) + x`. -/
def cellIndex (x y : Int) : Except Stop Int := do
  let above ← int (y - 1)
  let start ← int (80 * above)
  int (start + x)

/-- `x += xStep; y += yStep; av += avStep`. -/
def move (p : Pen) (xStep yStep avStep : Int) : Except Stop Pen := do
  let x ← int (p.x + xStep)
  let y ← int (p.y + yStep)
  let av ← int (p.av + avStep)
  return { x, y, av }

/-- The end of the body of the loop. -/
def advance (m : Slope) (p : Pen) : Except Stop Pen :=
  if p.av ≥ 0 then move p m.xi m.yi m.avI else move p m.xr m.yr m.avR

/-- A store to the text buffer. -/
structure Cell where
  x : Int
  y : Int
  index : Int
  value : BitVec 16
deriving DecidableEq

/-- The loop. The cells are those that are stored to, in order. -/
def drawLoop (m : Slope) (bx : Int) (value : BitVec 16) : Nat → Pen → Except Stop (List Cell)
  | 0, _ => throw .endless
  | fuel + 1, p => do
    let index ← cellIndex p.x p.y
    let q ← advance m p
    if q.x ≠ bx then
      let rest ← drawLoop m bx value fuel q
      return { x := p.x, y := p.y, index, value } :: rest
    else
      return [{ x := p.x, y := p.y, index, value }]

/-- `(pixel & 0xff) | (linecolor << 8)` as the cell keeps it. -/
def cellValue (color pixel : Int) (background : Nat) : BitVec 16 :=
  let linecolor := BitVec.ofInt 32 color ||| BitVec.ofNat 32 background <<< 4
  ((BitVec.ofInt 32 pixel &&& 0xff) ||| linecolor <<< 8).truncate 16

def drawline (fuel : Nat) (e : Ends) (color pixel : Int) (background : Nat) : Except Stop (List Cell) := do
  let (m, pen) ← setup e
  drawLoop m e.bx (cellValue color pixel background) fuel pen

/-! The line, by rounding. -/

/-- The larger of the two differences. -/
def Ends.run (e : Ends) : Int := max |e.bx - e.ax| |e.by' - e.ay|

/-- The smaller one. -/
def Ends.rise (e : Ends) : Int := min |e.bx - e.ax| |e.by' - e.ay|

def Ends.steep (e : Ends) : Prop := |e.bx - e.ax| < |e.by' - e.ay|

instance (e : Ends) : Decidable e.steep := inferInstanceAs (Decidable (_ < _))

def sign (d : Int) : Int := if d ≥ 0 then 1 else -1

/-- Steps along x after `k` steps of the pen: `k` along the longer axis, and the rounded number
along the other. -/
def Ends.alongX (e : Ends) (k : Int) : Int := if e.steep then rounded e.run e.rise k else k

def Ends.alongY (e : Ends) (k : Int) : Int := if e.steep then k else rounded e.run e.rise k

def Ends.xAt (e : Ends) (k : Int) : Int := e.ax + sign (e.bx - e.ax) * e.alongX k

def Ends.yAt (e : Ends) (k : Int) : Int := e.ay + sign (e.by' - e.ay) * e.alongY k

/-- The differences and the error terms are ints. -/
def Ends.Fits (e : Ends) : Prop := e.run < 2 ^ 31 ∧ e.rise < 2 ^ 30 ∧ e.run - e.rise ≤ 2 ^ 30

def Ends.slope (e : Ends) : Slope where
  xi := sign (e.bx - e.ax)
  yi := sign (e.by' - e.ay)
  xr := if e.steep then 0 else sign (e.bx - e.ax)
  yr := if e.steep then sign (e.by' - e.ay) else 0
  avR := 2 * e.rise
  avI := 2 * e.rise - e.run - e.run

def Ends.pen (e : Ends) (k : Int) : Pen where
  x := e.xAt k
  y := e.yAt k
  av := excess e.run e.rise k

section Int
variable {x y : Int}

theorem bind_ok {α β : Type} {m : Except Stop α} {f : α → Except Stop β} {b : β} :
    (m >>= f) = .ok b ↔ ∃ a, m = .ok a ∧ f a = .ok b := by
  cases m with
  | error e => exact ⟨nofun, fun ⟨_, no, _⟩ => nomatch no⟩
  | ok a => exact ⟨fun same => ⟨a, rfl, same⟩, fun ⟨_, here, same⟩ => by rw [Except.ok.inj here]; exact same⟩

section Bind
variable {α : Type} {f : Int → Except Stop α} {b : α}

theorem pure_ok {a : α} : (pure a : Except Stop α) = .ok b ↔ b = a :=
  ⟨fun same => (Except.ok.inj same).symm, fun same => by rw [same]; rfl⟩

/-- An int operation whose result is used. -/
theorem int_bind : (int x >>= f) = .ok b ↔ InInt x ∧ f x = .ok b := by
  unfold int
  split
  · rename_i inside
    exact ⟨fun done => ⟨inside, done⟩, fun done => done.2⟩
  · rename_i outside
    exact ⟨nofun, fun done => absurd done.1 outside⟩

theorem direction_bind {f : Int × Int → Except Stop α} {d : Int} (inside : InInt d) :
    (direction d >>= f) = .ok b ↔ |d| < 2 ^ 31 ∧ f (|d|, sign d) = .ok b := by
  unfold direction sign
  split
  · rename_i up
    rw [abs_of_nonneg up]
    exact ⟨fun done => ⟨inside.2, done⟩, fun done => done.2⟩
  · rename_i down
    rw [abs_of_nonpos (by omega), bind_assoc, int_bind]
    exact and_congr_left fun _ => ⟨fun small => small.2, fun small => ⟨by omega, small⟩⟩

end Bind

theorem move_eq_ok {p q : Pen} {xStep yStep avStep : Int} : move p xStep yStep avStep = .ok q ↔
    InInt (p.x + xStep) ∧ InInt (p.y + yStep) ∧ InInt (p.av + avStep) ∧
      q = { x := p.x + xStep, y := p.y + yStep, av := p.av + avStep } := by
  unfold move
  rw [int_bind, int_bind, int_bind, pure_ok]

theorem cellIndex_eq_ok {x y i : Int} : cellIndex x y = .ok i ↔
    InInt (y - 1) ∧ InInt (80 * (y - 1)) ∧ InInt (80 * (y - 1) + x) ∧ i = 80 * (y - 1) + x := by
  unfold cellIndex
  rw [int_bind, int_bind, ← bind_pure (int _), int_bind, pure_ok]

end Int

section Setup
variable {e : Ends}

theorem Ends.rise_nonneg : 0 ≤ e.rise := le_min (abs_nonneg _) (abs_nonneg _)

theorem Ends.rise_le_run : e.rise ≤ e.run := min_le_max

/-- The swap of the differences. -/
theorem swap_eq : (if |e.bx - e.ax| ≥ |e.by' - e.ay| then
      (sign (e.bx - e.ax), (0 : Int), |e.bx - e.ax|, |e.by' - e.ay|)
    else (0, sign (e.by' - e.ay), |e.by' - e.ay|, |e.bx - e.ax|)) =
    (e.slope.xr, e.slope.yr, e.run, e.rise) := by
  unfold Ends.slope Ends.run Ends.rise
  by_cases flat : |e.bx - e.ax| ≥ |e.by' - e.ay|
  · have level : ¬ e.steep := not_lt.mpr flat
    rw [if_pos flat, max_eq_left flat, min_eq_right flat, if_neg level, if_neg level]
  · have steep : e.steep := not_le.mp flat
    rw [if_neg flat, max_eq_right steep.le, min_eq_left steep.le, if_pos steep, if_pos steep]

/-- Everything before the loop is done without overflow if and only if the ends fit. -/
theorem setup_eq_ok {r : Slope × Pen} :
    setup e = .ok r ↔ e.Fits ∧ r = (e.slope, { x := e.ax, y := e.ay, av := 2 * e.rise - e.run }) := by
  have low := e.rise_nonneg
  have flat := e.rise_le_run
  unfold setup
  rw [int_bind, int_bind]
  constructor
  · rintro ⟨dxInt, dyInt, done⟩
    rw [direction_bind dyInt, direction_bind dxInt] at done
    obtain ⟨dySmall, dxSmall, done⟩ := done
    dsimp only at done
    rw [swap_eq] at done
    dsimp only at done
    rw [int_bind, int_bind, int_bind, pure_ok] at done
    obtain ⟨avRInt, avInt, avIInt, rfl⟩ := done
    unfold InInt at *
    exact ⟨⟨max_lt dxSmall dySmall, by omega, by omega⟩, rfl⟩
  · rintro ⟨⟨runSmall, riseSmall, near⟩, rfl⟩
    obtain ⟨dxSmall, dySmall⟩ := max_lt_iff.mp runSmall
    have dxInt : InInt (e.bx - e.ax) := ⟨(abs_lt.mp dxSmall).1.le, (abs_lt.mp dxSmall).2⟩
    have dyInt : InInt (e.by' - e.ay) := ⟨(abs_lt.mp dySmall).1.le, (abs_lt.mp dySmall).2⟩
    rw [direction_bind dyInt, direction_bind dxInt]
    dsimp only
    rw [swap_eq]
    dsimp only
    rw [int_bind, int_bind, int_bind]
    unfold InInt
    exact ⟨dxInt, dyInt, dySmall, dxSmall, by omega, by omega, by omega, rfl⟩

end Setup

section Walk
variable {e : Ends} {k : Int}

theorem alongX_succ (moves : 0 < e.run) : e.alongX (k + 1) =
    if 0 ≤ excess e.run e.rise k then e.alongX k + 1
    else e.alongX k + if e.steep then 0 else 1 := by
  unfold Ends.alongX
  by_cases steep : e.steep
  · simp only [if_pos steep, rounded_succ moves e.rise_nonneg e.rise_le_run, Int.add_zero]
  · simp only [if_neg steep, ite_self]

theorem alongY_succ (moves : 0 < e.run) : e.alongY (k + 1) =
    if 0 ≤ excess e.run e.rise k then e.alongY k + 1
    else e.alongY k + if e.steep then 1 else 0 := by
  unfold Ends.alongY
  by_cases steep : e.steep
  · simp only [if_pos steep, ite_self]
  · simp only [if_neg steep, rounded_succ moves e.rise_nonneg e.rise_le_run, Int.add_zero]

/-- The pen takes the next step of the line, if its place can be an int. -/
theorem advance_eq_ok (moves : 0 < e.run) (fits : e.Fits) {q : Pen} :
    advance e.slope (e.pen k) = .ok q ↔
      InInt (e.xAt (k + 1)) ∧ InInt (e.yAt (k + 1)) ∧ q = e.pen (k + 1) := by
  have avInt : InInt (excess e.run e.rise (k + 1)) := by
    obtain ⟨low, high⟩ := @excess_bounds e.run e.rise (k + 1) moves
    obtain ⟨-, riseSmall, near⟩ := fits
    exact ⟨by omega, by omega⟩
  -- both branches of the code move to the next point
  have next : advance e.slope (e.pen k) = move (e.pen k) (e.xAt (k + 1) - e.xAt k)
      (e.yAt (k + 1) - e.yAt k) (excess e.run e.rise (k + 1) - excess e.run e.rise k) := by
    unfold advance Ends.xAt Ends.yAt
    rw [alongX_succ moves, alongY_succ moves, excess_succ moves e.rise_nonneg e.rise_le_run]
    change (if 0 ≤ excess e.run e.rise k then _ else _) = _
    unfold Ends.slope
    split
    · congr 1 <;> ring
    · by_cases steep : e.steep
      · simp only [if_pos steep]
        congr 1 <;> ring
      · simp only [if_neg steep]
        congr 1 <;> ring
  rw [next, move_eq_ok]
  unfold Ends.pen
  simp only [add_sub_cancel, avInt, true_and]

theorem sign_mul_abs (d : Int) : sign d * |d| = d := by
  unfold sign
  split
  · rename_i up
    rw [abs_of_nonneg up, Int.one_mul]
  · rename_i down
    rw [abs_of_neg (by omega)]
    omega

section Moves
variable (moves : 0 < e.run)
include moves

theorem along_run :
    e.alongX e.run = |e.bx - e.ax| ∧ e.alongY e.run = |e.by' - e.ay| := by
  unfold Ends.alongX Ends.alongY
  rw [rounded_run moves]
  by_cases steep : e.steep
  · rw [if_pos steep, if_pos steep]
    exact ⟨min_eq_left steep.le, max_eq_right steep.le⟩
  · rw [if_neg steep, if_neg steep]
    exact ⟨max_eq_left (not_lt.mp steep), min_eq_right (not_lt.mp steep)⟩

theorem xAt_run : e.xAt e.run = e.bx := by
  unfold Ends.xAt
  rw [(along_run moves).1, sign_mul_abs]
  omega

theorem yAt_run : e.yAt e.run = e.by' := by
  unfold Ends.yAt
  rw [(along_run moves).2, sign_mul_abs]
  omega

theorem xAt_zero : e.xAt 0 = e.ax := by
  unfold Ends.xAt Ends.alongX
  rw [rounded_zero moves, ite_self]
  omega

theorem yAt_zero : e.yAt 0 = e.ay := by
  unfold Ends.yAt Ends.alongY
  rw [rounded_zero moves, ite_self]
  omega

/-- Up to the end the steps stay within the differences. -/
theorem along_le (start : 0 ≤ k) (inside : k ≤ e.run) :
    (0 ≤ e.alongX k ∧ e.alongX k ≤ |e.bx - e.ax|) ∧ 0 ≤ e.alongY k ∧ e.alongY k ≤ |e.by' - e.ay| := by
  have low := e.rise_nonneg
  have nonneg := rounded_nonneg moves low start
  have le := rounded_le moves low inside
  obtain ⟨xEnd, yEnd⟩ := along_run moves
  rw [← xEnd, ← yEnd]
  unfold Ends.alongX Ends.alongY
  rw [rounded_run moves]
  by_cases steep : e.steep
  · simp only [if_pos steep]
    exact ⟨⟨nonneg, le⟩, start, inside⟩
  · simp only [if_neg steep]
    exact ⟨⟨start, inside⟩, nonneg, le⟩

end Moves

theorem sign_mul_between {a b j : Int} (low : 0 ≤ j) (high : j ≤ |b - a|) :
    min a b ≤ a + sign (b - a) * j ∧ a + sign (b - a) * j ≤ max a b := by
  unfold sign
  split
  · rename_i up
    rw [abs_of_nonneg up] at high
    omega
  · rename_i down
    rw [abs_of_neg (by omega)] at high
    omega

/-- The points of the line are between the ends. -/
theorem at_between (moves : 0 < e.run) (start : 0 ≤ k) (inside : k ≤ e.run) :
    (min e.ax e.bx ≤ e.xAt k ∧ e.xAt k ≤ max e.ax e.bx) ∧
      min e.ay e.by' ≤ e.yAt k ∧ e.yAt k ≤ max e.ay e.by' := by
  obtain ⟨⟨xLow, xHigh⟩, yLow, yHigh⟩ := along_le moves start inside
  exact ⟨sign_mul_between xLow xHigh, sign_mul_between yLow yHigh⟩

end Walk

/-! Where the loop ends. -/

/-- The pen comes to column `bx` after `n` steps, for the first time. -/
structure Ends.Stops (e : Ends) (n : Nat) : Prop where
  moved : 0 < n
  arrived : e.xAt n = e.bx
  first : ∀ i : Nat, 0 < i → i < n → e.xAt i ≠ e.bx

/-- The four coordinates are ints. -/
def Ends.Ints (e : Ends) : Prop := (InInt e.ax ∧ InInt e.ay) ∧ InInt e.bx ∧ InInt e.by'

def Ends.cell (e : Ends) (value : BitVec 16) (k : Nat) : Cell where
  x := e.xAt k
  y := e.yAt k
  index := 80 * (e.yAt k - 1) + e.xAt k
  value := value

/-- The index of a cell is computed without overflow. -/
def Cell.Fits (c : Cell) : Prop := InInt (c.y - 1) ∧ InInt (80 * (c.y - 1)) ∧ InInt c.index

section Loop
variable {e : Ends} {value : BitVec 16} {k n : Nat}

theorem stops_of_moves (moves : 0 < e.run) : ∃ n, e.Stops n ∧ (n : Int) ≤ e.run := by
  have some : ∃ i : Nat, 0 < i ∧ e.xAt i = e.bx :=
    ⟨e.run.toNat, by omega, by rw [Int.toNat_of_nonneg moves.le]; exact xAt_run moves⟩
  classical
  obtain ⟨moved, arrived⟩ := Nat.find_spec some
  refine ⟨Nat.find some, ⟨moved, arrived, fun i positive early there => ?_⟩, ?_⟩
  · exact Nat.find_min some early ⟨positive, there⟩
  · have least : Nat.find some ≤ e.run.toNat :=
      Nat.find_min' some ⟨by omega, by rw [Int.toNat_of_nonneg moves.le]; exact xAt_run moves⟩
    omega

theorem at_ints (ints : e.Ints) (moves : 0 < e.run) (inside : (k : Int) ≤ e.run) :
    InInt (e.xAt k) ∧ InInt (e.yAt k) := by
  obtain ⟨⟨ax, ay⟩, bx, by'⟩ := ints
  obtain ⟨x, y⟩ := at_between moves (Int.natCast_nonneg k) inside
  unfold InInt at *
  omega

/-- From the `k`th point the loop draws the points before the one where it stops, if their indexes
are ints. -/
theorem drawLoop_eq_ok (ints : e.Ints) (moves : 0 < e.run) (fits : e.Fits) (stops : e.Stops n)
    (inside : (n : Int) ≤ e.run) {fuel : Nat} {cells : List Cell} (before : k < n) :
    drawLoop e.slope e.bx value fuel (e.pen k) = .ok cells ↔
      n - k ≤ fuel ∧ (∀ i, k ≤ i → i < n → (e.cell value i).Fits) ∧
        cells = (List.range' k (n - k)).map (e.cell value) := by
  -- induction on the fuel: the remaining points are the ones from `k` to `n`
  induction fuel generalizing k cells with
  | zero => exact ⟨nofun, fun ⟨enough, _⟩ => by omega⟩
  | succ fuel ih =>
    obtain ⟨nextX, nextY⟩ := at_ints ints moves (by omega : ((k + 1 : Nat) : Int) ≤ e.run)
    have split : List.range' k (n - k) = k :: List.range' (k + 1) (n - (k + 1)) := by
      rw [show n - k = n - (k + 1) + 1 by omega, List.range'_succ]
    have fits_iff : (∀ i, k ≤ i → i < n → (e.cell value i).Fits) ↔
        (e.cell value k).Fits ∧ ∀ i, k + 1 ≤ i → i < n → (e.cell value i).Fits := by
      constructor
      · exact fun all => ⟨all k (le_refl k) before, fun i after => all i (by omega)⟩
      · rintro ⟨here, rest⟩ i after early
        obtain rfl | later := Nat.eq_or_lt_of_le after
        · exact here
        · exact rest i later early
    have advanced : advance e.slope (e.pen k) = .ok (e.pen (k + 1 : Nat)) :=
      (advance_eq_ok moves fits).mpr ⟨nextX, nextY, rfl⟩
    have unfolded : drawLoop e.slope e.bx value (fuel + 1) (e.pen k) = .ok cells ↔
        (e.cell value k).Fits ∧ (if e.xAt (k + 1 : Nat) ≠ e.bx then do
            let rest ← drawLoop e.slope e.bx value fuel (e.pen (k + 1 : Nat))
            return e.cell value k :: rest
          else return [e.cell value k]) = .ok cells := by
      rw [drawLoop, bind_ok]
      constructor
      · rintro ⟨index, first, done⟩
        obtain ⟨aboveInt, startInt, indexInt, rfl⟩ := cellIndex_eq_ok.mp first
        rw [advanced] at done
        exact ⟨⟨aboveInt, startInt, indexInt⟩, done⟩
      · rintro ⟨⟨aboveInt, startInt, indexInt⟩, done⟩
        refine ⟨_, cellIndex_eq_ok.mpr ⟨aboveInt, startInt, indexInt, rfl⟩, ?_⟩
        rw [advanced]
        exact done
    rw [split, List.map_cons, fits_iff, unfolded]
    by_cases last : k + 1 = n
    · subst last
      rw [if_neg (not_not.mpr stops.arrived), Nat.sub_self]
      constructor
      · rintro ⟨here, done⟩
        exact ⟨by omega, ⟨here, fun i after early => by omega⟩, (Except.ok.inj done).symm⟩
      · rintro ⟨-, ⟨here, -⟩, rfl⟩
        exact ⟨here, rfl⟩
    · rw [if_pos (stops.first (k + 1) (by omega) (by omega)), bind_ok]
      constructor
      · rintro ⟨here, rest, drawn, done⟩
        obtain ⟨enough, later, rfl⟩ := (ih (by omega)).mp drawn
        exact ⟨by omega, ⟨here, later⟩, (Except.ok.inj done).symm⟩
      · rintro ⟨enough, ⟨here, later⟩, rfl⟩
        exact ⟨here, _, (ih (by omega)).mpr ⟨by omega, later, rfl⟩, rfl⟩

/-- From a single point the pen goes away from its column for ever. -/
theorem drawLoop_away {m : Slope} {bx : Int} (right : m.xi = 1) (level : m.avI = 0) {fuel : Nat} {p : Pen}
    (turned : 0 ≤ p.av) (past : bx ≤ p.x) (cells : List Cell) : drawLoop m bx value fuel p ≠ .ok cells := by
  induction fuel generalizing p cells with
  | zero => exact nofun
  | succ fuel ih =>
    intro done
    rw [drawLoop] at done
    obtain ⟨index, -, done⟩ := bind_ok.mp done
    obtain ⟨q, step, done⟩ := bind_ok.mp done
    rw [advance, if_pos turned, right, level] at step
    obtain ⟨-, -, -, rfl⟩ := move_eq_ok.mp step
    rw [if_pos (by dsimp only; omega)] at done
    obtain ⟨rest, drawn, -⟩ := bind_ok.mp done
    exact ih (by dsimp only; omega) (by dsimp only; omega) rest drawn

end Loop

section Draw
variable {e : Ends} {color pixel : Int} {background n : Nat}

theorem Ends.run_nonneg : 0 ≤ e.run := le_trans e.rise_nonneg e.rise_le_run

theorem run_eq_zero_iff : e.run = 0 ↔ (e.ax, e.ay) = (e.bx, e.by') := by
  have x := abs_nonneg (e.bx - e.ax)
  have y := abs_nonneg (e.by' - e.ay)
  unfold Ends.run
  constructor
  · intro none
    have xZero : e.bx - e.ax = 0 := abs_eq_zero.mp (by omega)
    have yZero : e.by' - e.ay = 0 := abs_eq_zero.mp (by omega)
    rw [show e.ax = e.bx by omega, show e.ay = e.by' by omega]
  · intro same
    obtain ⟨xSame, ySame⟩ := Prod.mk.inj same
    rw [xSame, ySame, Int.sub_self, Int.sub_self]
    rfl

/-- A single point is never done. -/
theorem drawline_point (same : e.run = 0) (fuel : Nat) (cells : List Cell) :
    drawline fuel e color pixel background ≠ .ok cells := by
  intro done
  obtain ⟨⟨m, p⟩, first, done⟩ := bind_ok.mp done
  obtain ⟨fits, whole⟩ := setup_eq_ok.mp first
  obtain ⟨rfl, rfl⟩ := Prod.mk.inj whole
  have low := e.rise_nonneg
  have flat := e.rise_le_run
  obtain ⟨xSame, -⟩ := Prod.mk.inj (run_eq_zero_iff.mp same)
  refine drawLoop_away ?_ ?_ ?_ ?_ cells done
  · unfold Ends.slope sign
    exact if_pos (by omega)
  · unfold Ends.slope
    dsimp only
    omega
  · dsimp only
    omega
  · dsimp only
    omega

/-- What `drawline` does: it stores to the points of the line before column `bx`. -/
theorem drawline_eq_ok (ints : e.Ints) (moves : 0 < e.run) (stops : e.Stops n) (inside : (n : Int) ≤ e.run)
    {fuel : Nat} {cells : List Cell} : drawline fuel e color pixel background = .ok cells ↔
      e.Fits ∧ n ≤ fuel ∧ (∀ i < n, (e.cell (cellValue color pixel background) i).Fits) ∧
        cells = (List.range n).map (e.cell (cellValue color pixel background)) := by
  have pen : (⟨e.ax, e.ay, 2 * e.rise - e.run⟩ : Pen) = e.pen (0 : Nat) := by
    unfold Ends.pen
    rw [Nat.cast_zero, xAt_zero moves, yAt_zero moves, excess_zero moves]
  have loop := fun fits : e.Fits => @drawLoop_eq_ok e (cellValue color pixel background) 0 n ints moves fits
    stops inside fuel cells stops.moved
  simp only [Nat.sub_zero, Nat.zero_le, true_implies, ← List.range_eq_range'] at loop
  constructor
  · intro done
    obtain ⟨⟨m, p⟩, first, done⟩ := bind_ok.mp done
    obtain ⟨fits, whole⟩ := setup_eq_ok.mp first
    obtain ⟨rfl, rfl⟩ := Prod.mk.inj whole
    rw [pen] at done
    exact ⟨fits, (loop fits).mp done⟩
  · rintro ⟨fits, drawn⟩
    refine bind_ok.mpr ⟨_, setup_eq_ok.mpr ⟨fits, rfl⟩, ?_⟩
    rw [pen]
    exact (loop fits).mpr drawn

/-- Some `n` ends the walk, and the points before it are those that come before column `bx`. -/
theorem Ends.Stops.lt_iff (stops : e.Stops n) (k : Nat) :
    k < n ↔ ∀ i : Nat, 0 < i → i ≤ k → e.xAt i ≠ e.bx := by
  constructor
  · exact fun early i positive le => stops.first i positive (by omega)
  · intro before
    by_contra late
    exact before n stops.moved (by omega) stops.arrived

end Draw

/-- `drawline` comes back and stores on the screen only, if and only if the ends are two points, no
difference overflows, and the line is on the screen until it comes to column `bx`. -/
theorem drawline_safe_iff {e : Ends} (ints : e.Ints) (color pixel : Int) (background : Nat) :
    (∃ fuel cells, drawline fuel e color pixel background = .ok cells ∧
        ∀ c ∈ cells, 0 ≤ c.index ∧ c.index < 25 * 80) ↔
      (e.ax, e.ay) ≠ (e.bx, e.by') ∧ e.Fits ∧
        ∀ k : Nat, (∀ i : Nat, 0 < i → i ≤ k → e.xAt i ≠ e.bx) →
          InInt (80 * (e.yAt k - 1)) ∧ 0 ≤ 80 * (e.yAt k - 1) + e.xAt k ∧
            80 * (e.yAt k - 1) + e.xAt k < 25 * 80 := by
  obtain same | moves := (Ends.run_nonneg (e := e)).eq_or_lt
  · constructor
    · rintro ⟨fuel, cells, done, -⟩
      exact absurd done (drawline_point same.symm fuel cells)
    · rintro ⟨two, -⟩
      exact absurd (run_eq_zero_iff.mp same.symm) two
  obtain ⟨n, stops, inside⟩ := stops_of_moves moves
  simp only [← stops.lt_iff]
  constructor
  · rintro ⟨fuel, cells, done, onScreen⟩
    obtain ⟨fits, -, indexes, rfl⟩ := (drawline_eq_ok ints moves stops inside).mp done
    refine ⟨fun same => moves.ne' (run_eq_zero_iff.mpr same), fits, fun k early => ?_⟩
    have here := onScreen _ (List.mem_map_of_mem (List.mem_range.mpr early))
    exact ⟨(indexes k early).2.1, here⟩
  · rintro ⟨-, fits, all⟩
    refine ⟨n, _, (drawline_eq_ok ints moves stops inside).mpr ⟨fits, le_refl n, fun i early => ?_, rfl⟩, ?_⟩
    · obtain ⟨startInt, low, high⟩ := all i early
      unfold Cell.Fits Ends.cell
      unfold InInt at *
      dsimp only
      omega
    · intro c mem
      obtain ⟨k, early, rfl⟩ := List.mem_map.mp mem
      exact (all k (List.mem_range.mp early)).2

/-- Two cells and the one that is left out. -/
def short : Ends := { ax := 3, ay := 2, bx := 5, by' := 3 }

theorem drawline_safe_iff_short : short.Ints ∧ ∃ fuel cells, drawline fuel short 7 42 0 = .ok cells ∧
    ∀ c ∈ cells, 0 ≤ c.index ∧ c.index < 25 * 80 := by
  have ints : short.Ints := by unfold Ends.Ints; decide
  refine ⟨ints, (drawline_safe_iff ints 7 42 0).mpr ⟨by decide, by unfold Ends.Fits; decide, ?_⟩⟩
  intro k before
  have early : k < 2 := by
    by_contra late
    exact before 2 (by decide) (by omega) (by decide)
  obtain rfl | rfl : k = 0 ∨ k = 1 := by omega
  all_goals decide

/-- Below the last row. -/
def below : Ends := { ax := 0, ay := 26, bx := 1, by' := 26 }

def point : Ends := { ax := 3, ay := 2, bx := 3, by' := 2 }

/-- A store past the buffer, and a call that does not come back. -/
theorem drawline_unsafe : (∃ cells, drawline 1 below 7 42 0 = .ok cells ∧ ∃ c ∈ cells, c.index = 25 * 80) ∧
    ∀ fuel cells, drawline fuel point 7 42 0 ≠ .ok cells :=
  ⟨⟨[⟨0, 26, 2000, 0x072a⟩], by decide, _, List.mem_singleton_self _, rfl⟩, drawline_point (by decide)⟩

/-! Segments of the screen. -/

def Ends.OnScreen (e : Ends) : Prop :=
  (0 ≤ e.ax ∧ e.ax < 80 ∧ 1 ≤ e.ay ∧ e.ay ≤ 25) ∧ 0 ≤ e.bx ∧ e.bx < 80 ∧ 1 ≤ e.by' ∧ e.by' ≤ 25

def Cell.place (c : Cell) : Int × Int := (c.x, c.y)

/-- Cells from the first end on, step by step along the segment. Half a cell is the distance along
the shorter axis. -/
structure Ends.Follows (e : Ends) (cells : List Cell) : Prop where
  start : cells.head?.map Cell.place = some (e.ax, e.ay)
  steps : cells.IsChain fun c d => |d.x - c.x| ≤ 1 ∧ |d.y - c.y| ≤ 1
  near : ∀ c ∈ cells, 2 * |(c.y - e.ay) * (e.bx - e.ax) - (c.x - e.ax) * (e.by' - e.ay)| ≤
    max |e.bx - e.ax| |e.by' - e.ay|

/-- All cells of the segment. -/
structure Ends.Whole (e : Ends) (cells : List Cell) : Prop extends e.Follows cells where
  finish : cells.getLast?.map Cell.place = some (e.bx, e.by')
  count : (cells.length : Int) = max |e.bx - e.ax| |e.by' - e.ay| + 1

section Segment
variable {e : Ends} {value : BitVec 16} {k n : Nat}

theorem Ends.OnScreen.ints (onScreen : e.OnScreen) : e.Ints := by
  unfold Ends.OnScreen at onScreen
  unfold Ends.Ints InInt
  omega

theorem Ends.OnScreen.fits (onScreen : e.OnScreen) : e.Fits := by
  unfold Ends.OnScreen at onScreen
  have low := e.rise_nonneg
  have flat := e.rise_le_run
  have x : |e.bx - e.ax| < 80 := abs_lt.mpr ⟨by omega, by omega⟩
  have y : |e.by' - e.ay| < 80 := abs_lt.mpr ⟨by omega, by omega⟩
  have small : e.run < 80 := max_lt x y
  unfold Ends.Fits
  omega

theorem Ends.OnScreen.cell_fits (onScreen : e.OnScreen) (moves : 0 < e.run) (inside : (k : Int) ≤ e.run) :
    (e.cell value k).Fits := by
  obtain ⟨x, y⟩ := at_between moves (Int.natCast_nonneg k) inside
  unfold Ends.OnScreen at onScreen
  unfold Cell.Fits InInt Ends.cell
  dsimp only
  omega

/-- One step of the pen. -/
theorem at_succ (moves : 0 < e.run) (i : Int) :
    |e.xAt (i + 1) - e.xAt i| ≤ 1 ∧ |e.yAt (i + 1) - e.yAt i| ≤ 1 := by
  unfold Ends.xAt Ends.yAt sign
  rw [alongX_succ moves, alongY_succ moves]
  constructor
  all_goals
    refine abs_le.mpr ?_
    split_ifs <;> omega

theorem abs_sign (d : Int) : |sign d| = 1 := by
  unfold sign
  split <;> rfl

/-- The rounded steps are at most a half away from the segment. -/
theorem at_near (moves : 0 < e.run) (i : Int) :
    2 * |(e.yAt i - e.ay) * (e.bx - e.ax) - (e.xAt i - e.ax) * (e.by' - e.ay)| ≤ e.run := by
  have unsigned : |(e.yAt i - e.ay) * (e.bx - e.ax) - (e.xAt i - e.ax) * (e.by' - e.ay)| =
      |(e.alongY i * |e.bx - e.ax| - e.alongX i * |e.by' - e.ay|)| := by
    have x := sign_mul_abs (e.bx - e.ax)
    have y := sign_mul_abs (e.by' - e.ay)
    calc |(e.yAt i - e.ay) * (e.bx - e.ax) - (e.xAt i - e.ax) * (e.by' - e.ay)|
      _ = |sign (e.bx - e.ax) * sign (e.by' - e.ay) *
            (e.alongY i * |e.bx - e.ax| - e.alongX i * |e.by' - e.ay|)| := by
          unfold Ends.xAt Ends.yAt
          congr 1
          linear_combination -(sign (e.by' - e.ay) * e.alongY i) * x + sign (e.bx - e.ax) * e.alongX i * y
      _ = |(e.alongY i * |e.bx - e.ax| - e.alongX i * |e.by' - e.ay|)| := by
          rw [abs_mul, abs_mul, abs_sign, abs_sign, Int.one_mul, Int.one_mul]
  obtain ⟨under, upper⟩ := @rounded_near e.run e.rise i moves
  obtain ⟨xEnd, yEnd⟩ := along_run moves
  rw [unsigned, ← xEnd, ← yEnd]
  unfold Ends.alongX Ends.alongY
  rw [rounded_run moves]
  have half : 2 * |rounded e.run e.rise i * e.run - i * e.rise| ≤ e.run := by
    obtain pos | neg := abs_cases (rounded e.run e.rise i * e.run - i * e.rise)
    · linarith
    · linarith
  by_cases steep : e.steep
  · rw [if_pos steep, if_pos steep, if_pos steep, if_pos steep, abs_sub_comm]
    exact half
  · rw [if_neg steep, if_neg steep, if_neg steep, if_neg steep]
    exact half

/-- The points of the line up to its end follow the segment. -/
theorem follows_range (moves : 0 < e.run) (n : Nat) : e.Follows ((List.range (n + 1)).map (e.cell value)) where
  start := by
    rw [List.range_succ_eq_map]
    simp only [List.map_cons, List.head?_cons, Option.map_some, Cell.place, Ends.cell, Nat.cast_zero,
      xAt_zero moves, yAt_zero moves]
  steps := by
    rw [List.isChain_map, List.isChain_range_succ]
    intro m early
    exact at_succ moves m
  near := by
    intro c mem
    obtain ⟨i, -, rfl⟩ := List.mem_map.mp mem
    exact at_near moves i

theorem whole_range (moves : 0 < e.run) (all : (n : Int) = e.run) :
    e.Whole ((List.range (n + 1)).map (e.cell value)) where
  toFollows := follows_range moves n
  finish := by
    rw [List.range_succ, List.map_append, List.map_singleton, List.getLast?_concat, Option.map_some]
    unfold Cell.place Ends.cell
    rw [all, xAt_run moves, yAt_run moves]
  count := by
    rw [List.length_map, List.length_range]
    unfold Ends.run at all
    omega

theorem xAt_eq_bx_iff : e.xAt k = e.bx ↔ e.alongX k = |e.bx - e.ax| := by
  have whole := sign_mul_abs (e.bx - e.ax)
  have unit : sign (e.bx - e.ax) ≠ 0 := fun zero => by
    have one := abs_sign (e.bx - e.ax)
    rw [zero] at one
    exact absurd one (by decide)
  unfold Ends.xAt
  constructor
  · intro there
    exact Int.eq_of_mul_eq_mul_left unit (by omega)
  · intro there
    rw [there, whole]
    omega

/-- The pen comes to column `bx` before the end if and only if the segment is steep enough. -/
theorem stops_eq_run_iff (moves : 0 < e.run) (stops : e.Stops n) (inside : (n : Int) ≤ e.run) :
    (n : Int) = e.run ↔ |e.by' - e.ay| < 2 * |e.bx - e.ax| ∨ |e.by' - e.ay| = 1 := by
  have low := abs_nonneg (e.bx - e.ax)
  obtain ⟨xEnd, yEnd⟩ := along_run moves
  by_cases steep : e.steep
  · -- along x there are only the rounded steps
    have alongX : ∀ i, e.alongX i = rounded e.run e.rise i := fun i => if_pos steep
    rw [alongX, rounded_run moves] at xEnd
    have run : e.run = |e.by' - e.ay| := max_eq_right steep.le
    rw [← run, ← xEnd]
    have positive := stops.moved
    constructor
    · intro all
      by_contra far
      obtain ⟨steeper, long⟩ := not_or.mp far
      have before : e.xAt (n - 1 : Nat) = e.bx := by
        rw [xAt_eq_bx_iff, alongX, ← xEnd, Int.natCast_pred_of_pos positive, all]
        exact (rounded_eq_iff moves).mpr ⟨by nlinarith, by nlinarith⟩
      exact stops.first (n - 1) (by omega) (by omega) before
    · intro gentle
      have there := xAt_eq_bx_iff.mp stops.arrived
      rw [alongX, ← xEnd] at there
      obtain ⟨under, -⟩ := (rounded_eq_iff moves).mp there
      by_contra less
      have early : (n : Int) ≤ e.run - 1 := by omega
      have bound : e.rise * n ≤ e.rise * (e.run - 1) := mul_le_mul_of_nonneg_left early e.rise_nonneg
      have tight : 2 * e.rise ≤ e.run := by linarith
      omega
  · have alongX : ∀ i, e.alongX i = i := fun i => if_neg steep
    have there := xAt_eq_bx_iff.mp stops.arrived
    rw [alongX, ← xEnd, alongX] at there
    have level := not_lt.mp steep
    rw [alongX] at xEnd
    exact ⟨fun _ => .inl (by omega), fun _ => there⟩

end Segment

/-- `drawline` comes back from every segment of two ends; it follows the segment but never stores to
its last cell, and it stores to all others if and only if the segment is not too steep. -/
theorem drawline_segment {e : Ends} (onScreen : e.OnScreen) (color pixel : Int) (background : Nat) :
    (∀ fuel cells, drawline fuel e color pixel background = .ok cells →
        e.Follows cells ∧ (e.bx, e.by') ∉ cells.map Cell.place ∧ ¬ e.Whole cells) ∧
      ((∃ fuel cells, drawline fuel e color pixel background = .ok cells) ↔ (e.ax, e.ay) ≠ (e.bx, e.by')) ∧
      ((∃ fuel cells last, drawline fuel e color pixel background = .ok cells ∧ e.Whole (cells ++ [last])) ↔
        |e.by' - e.ay| < 2 * |e.bx - e.ax| ∨ |e.by' - e.ay| = 1) := by
  obtain same | moves := (Ends.run_nonneg (e := e)).eq_or_lt
  · have never := @drawline_point e color pixel background same.symm
    have ends := run_eq_zero_iff.mp same.symm
    obtain ⟨x, y⟩ := Prod.mk.inj ends
    refine ⟨fun fuel cells done => absurd done (never fuel cells), ?_, ?_⟩
    · exact ⟨fun ⟨fuel, cells, done⟩ => absurd done (never fuel cells), fun two => absurd ends two⟩
    · rw [x, y, Int.sub_self, Int.sub_self]
      exact ⟨fun ⟨fuel, cells, _, done, _⟩ => absurd done (never fuel cells), fun no => absurd no (by decide)⟩
  obtain ⟨n, stops, inside⟩ := stops_of_moves moves
  have done_iff : ∀ fuel cells, drawline fuel e color pixel background = .ok cells ↔
      n ≤ fuel ∧ cells = (List.range n).map (e.cell (cellValue color pixel background)) := by
    intro fuel cells
    rw [drawline_eq_ok onScreen.ints moves stops inside]
    constructor
    · exact fun ⟨_, enough, _, drawn⟩ => ⟨enough, drawn⟩
    · exact fun ⟨enough, drawn⟩ =>
        ⟨onScreen.fits, enough, fun i early => onScreen.cell_fits moves (by omega), drawn⟩
  have two : (e.ax, e.ay) ≠ (e.bx, e.by') := fun same => moves.ne' (run_eq_zero_iff.mpr same)
  have missing : (e.bx, e.by') ∉
      ((List.range n).map (e.cell (cellValue color pixel background))).map Cell.place := by
    intro mem
    obtain ⟨c, mem, there⟩ := List.mem_map.mp mem
    obtain ⟨i, early, rfl⟩ := List.mem_map.mp mem
    obtain ⟨x, y⟩ := Prod.mk.inj there
    obtain rfl | positive := i.eq_zero_or_pos
    · exact two (by rw [← xAt_zero moves, ← yAt_zero moves]; exact there)
    · exact stops.first i positive (List.mem_range.mp early) x
  refine ⟨fun fuel cells done => ?_, ?_, ?_⟩
  · obtain ⟨-, rfl⟩ := (done_iff fuel cells).mp done
    refine ⟨?_, missing, fun whole => missing ?_⟩
    · rw [← Nat.succ_pred_eq_of_pos stops.moved]
      exact follows_range moves _
    · obtain ⟨c, last, there⟩ := Option.map_eq_some_iff.mp whole.finish
      exact List.mem_map.mpr ⟨c, List.mem_of_getLast? last, there⟩
  · exact ⟨fun _ => two, fun _ => ⟨n, _, (done_iff n _).mpr ⟨le_refl n, rfl⟩⟩⟩
  · rw [← stops_eq_run_iff moves stops inside]
    constructor
    · rintro ⟨fuel, cells, last, done, whole⟩
      obtain ⟨-, rfl⟩ := (done_iff fuel cells).mp done
      have count := whole.count
      rw [List.length_append, List.length_map, List.length_range, List.length_singleton] at count
      unfold Ends.run
      omega
    · intro all
      refine ⟨n, _, e.cell (cellValue color pixel background) n, (done_iff n _).mpr ⟨le_refl n, rfl⟩, ?_⟩
      rw [← List.map_singleton, ← List.map_append, ← List.range_succ]
      exact whole_range moves all

/-- Two cells of three. -/
theorem drawline_segment_short : short.OnScreen ∧
    ∃ fuel cells last, drawline fuel short 7 42 0 = .ok cells ∧ short.Whole (cells ++ [last]) :=
  have onScreen : short.OnScreen := by unfold Ends.OnScreen; decide
  ⟨onScreen, (drawline_segment onScreen 7 42 0).2.2.mpr (.inl (by decide))⟩

/-- The left edge of the screen. -/
def edge : Ends := { ax := 0, ay := 1, bx := 0, by' := 25 }

/-- A vertical line of 25 cells: one is drawn. -/
theorem drawline_edge : edge.OnScreen ∧ drawline 1 edge 7 42 0 = .ok [⟨0, 1, 0, 0x072a⟩] ∧
    ¬ edge.Whole [⟨0, 1, 0, 0x072a⟩] :=
  ⟨by unfold Ends.OnScreen; decide, by decide, fun whole => absurd whole.count (by decide)⟩

end ColorXv6.Dev.DrawLine
