import ColorXv6.User.GrepMatch
import Mathlib.Data.List.Basic
import Mathlib.Logic.Function.Basic

/-!
grep.c: the loop over the input. Lines are matched in a fixed buffer, and what comes after the
last newline is moved to the front of it before the next `read`. The buffer is a function of the
offset; the list of chunks is what successive calls of `read` return.
-/
namespace ColorXv6.User.Grep
open Function GrepMatch

def newline : UInt8 := 10

/-- `sizeof(buf)`. -/
def bufSize : Nat := 1024

/-- `strchr` of ulib.c from offset `p` on, within so many bytes. -/
def strchr (buf : Nat → UInt8) (c : UInt8) (p : Nat) : Nat → Option Nat
  | 0 => none
  | n + 1 => if buf p = 0 then none else if buf p = c then some p else strchr buf c (p + 1) n

/-- The string at offset `p`, within so many bytes. -/
def stringAt (buf : Nat → UInt8) (p : Nat) : Nat → List UInt8
  | 0 => []
  | n + 1 => if buf p = 0 then [] else buf p :: stringAt buf (p + 1) n

/-- The `n` bytes at offset `p`. -/
def bytesAt (buf : Nat → UInt8) (p : Nat) : Nat → List UInt8
  | 0 => []
  | n + 1 => buf p :: bytesAt buf (p + 1) n

/-- The buffer after bytes were stored at offset `p`. -/
def storeAt (buf : Nat → UInt8) (p : Nat) : List UInt8 → Nat → UInt8
  | [] => buf
  | c :: bytes => storeAt (update buf p c) (p + 1) bytes

/-- `memmove` of ulib.c within the buffer. -/
def memmove (buf : Nat → UInt8) (dst src : Nat) : Nat → Nat → UInt8
  | 0 => buf
  | n + 1 => memmove (update buf dst (buf src)) (dst + 1) (src + 1) n

structure Io where
  buf : Nat → UInt8
  out : List UInt8

/-- The loop over the lines in the buffer; returns where the rest starts. -/
def lineLoop (pattern : List UInt8) (io : Io) (p : Nat) : Nat → Option (Io × Nat)
  | 0 => none
  | fuel + 1 =>
    match strchr io.buf newline p bufSize with
    | none => some (io, p)
    | some q =>
      let cut := update io.buf q 0
      if matchText pattern (stringAt cut p bufSize) then
        let buf := update cut q newline
        lineLoop pattern { buf, out := io.out ++ bytesAt buf p (q + 1 - p) } (q + 1) fuel
      else
        lineLoop pattern { io with buf := cut } (q + 1) fuel

/-- The loop of `grep`. An empty chunk ends the input; a chunk that is longer than the call of
`read` allows is not a result of it. -/
def grepLoop (pattern : List UInt8) (io : Io) (m : Nat) : List (List UInt8) → Option Io
  | [] => some io
  | chunk :: chunks =>
    if chunk = [] then some io
    else if chunk.length > bufSize - m - 1 then none
    else
      let buf := storeAt io.buf m chunk
      let m := m + chunk.length
      match lineLoop pattern { io with buf := update buf m 0 } 0 bufSize with
      | none => none
      | some (io, p) =>
        let m := if p = 0 then 0 else m
        if m > 0 then grepLoop pattern { io with buf := memmove io.buf 0 p (m - p) } (m - p) chunks
        else grepLoop pattern io m chunks

def grep (pattern : List UInt8) (chunks : List (List UInt8)) : Option (List UInt8) :=
  (grepLoop pattern { buf := fun _ => 0, out := [] } 0 chunks).map Io.out

/-! Lines of a text. -/

/-- The complete lines of a text, without their newlines, and the rest. -/
def lines : List UInt8 → List (List UInt8) × List UInt8
  | [] => ([], [])
  | c :: text =>
    if c = newline then ([] :: (lines text).1, (lines text).2)
    else
      match (lines text).1 with
      | [] => ([], c :: (lines text).2)
      | line :: more => ((c :: line) :: more, (lines text).2)

/-- What grep should write for these lines. -/
def shown (pattern : List UInt8) (ls : List (List UInt8)) : List UInt8 :=
  (ls.filter (matchText pattern)).flatMap (· ++ [newline])

/-- With `m` bytes in the buffer, each chunk is a possible result of `read`: it is not empty, and no
longer than there is room. After a chunk with a newline, the bytes behind the last one stay. -/
def Reads (m : Nat) : List (List UInt8) → Prop
  | [] => True
  | chunk :: chunks => chunk ≠ [] ∧ chunk.length ≤ bufSize - m - 1 ∧
    Reads (if newline ∈ chunk then (lines chunk).2.length else 0) chunks

instance decReads : (m : Nat) → (chunks : List (List UInt8)) → Decidable (Reads m chunks)
  | _, [] => .isTrue trivial
  | _, _ :: chunks => @instDecidableAnd _ _ _ (@instDecidableAnd _ _ _ (decReads _ chunks))

section Lines

theorem lines_none {text : List UInt8} (none : newline ∉ text) : lines text = ([], text) := by
  induction text with
  | nil => rfl
  | cons c text ih =>
    rw [List.mem_cons, not_or] at none
    rw [lines, if_neg (Ne.symm none.1), ih none.2]

/-- The first line. -/
theorem lines_line {line : List UInt8} (none : newline ∉ line) (text : List UInt8) :
    lines (line ++ newline :: text) = (line :: (lines text).1, (lines text).2) := by
  induction line with
  | nil => rw [List.nil_append, lines, if_pos rfl]
  | cons c line ih =>
    rw [List.mem_cons, not_or] at none
    rw [List.cons_append, lines, if_neg (Ne.symm none.1), ih none.2]

/-- A text without a newline, or with a first line. -/
theorem line_cases (text : List UInt8) :
    newline ∉ text ∨ ∃ line rest, newline ∉ line ∧ text = line ++ newline :: rest := by
  induction text with
  | nil => exact .inl (List.not_mem_nil)
  | cons c text ih =>
    by_cases here : c = newline
    · exact .inr ⟨[], text, List.not_mem_nil, by rw [here]; rfl⟩
    · rcases ih with none | ⟨line, rest, none, rfl⟩
      · exact .inl (List.not_mem_cons_of_ne_of_not_mem (Ne.symm here) none)
      · exact .inr ⟨c :: line, rest, List.not_mem_cons_of_ne_of_not_mem (Ne.symm here) none, rfl⟩

/-- The lines of a text go on from its rest. -/
theorem lines_append (text more : List UInt8) :
    lines (text ++ more) =
      ((lines text).1 ++ (lines ((lines text).2 ++ more)).1, (lines ((lines text).2 ++ more)).2) := by
  induction text with
  | nil => rfl
  | cons c text ih =>
    rw [List.cons_append, lines, lines]
    by_cases here : c = newline
    · rw [if_pos here, if_pos here, ih]
      rfl
    · rw [if_neg here, if_neg here, ih]
      cases before : (lines text).1 with
      | nil =>
        rw [List.nil_append, List.nil_append, List.cons_append, lines, if_neg here]
      | cons line rest => rfl

theorem rest_none (text : List UInt8) : newline ∉ (lines text).2 := by
  induction text with
  | nil => exact List.not_mem_nil
  | cons c text ih =>
    rw [lines]
    split
    · exact ih
    · rename_i other
      split
      · exact List.not_mem_cons_of_ne_of_not_mem (Ne.symm other) ih
      · exact ih

theorem mem_of_rest {text : List UInt8} {c : UInt8} (mem : c ∈ (lines text).2) : c ∈ text := by
  induction text with
  | nil => exact mem
  | cons d text ih =>
    rw [lines] at mem
    split at mem
    · exact List.mem_cons_of_mem d (ih mem)
    · split at mem
      · rcases List.mem_cons.mp mem with rfl | later
        · exact List.mem_cons_self
        · exact List.mem_cons_of_mem d (ih later)
      · exact List.mem_cons_of_mem d (ih mem)

theorem rest_of_carry {carry chunk : List UInt8} (none : newline ∉ carry) (some : newline ∈ chunk) :
    (lines (carry ++ chunk)).2 = (lines chunk).2 ∧ (lines (carry ++ chunk)).1 ≠ [] := by
  rcases line_cases chunk with other | ⟨line, rest, before, rfl⟩
  · exact absurd some other
  · have both : newline ∉ carry ++ line := by
      rw [List.mem_append, not_or]
      exact ⟨none, before⟩
    rw [← List.append_assoc, lines_line both, lines_line before]
    exact ⟨rfl, nofun⟩

/-- Nothing is lost by cutting a text into lines. -/
theorem length_lines (text : List UInt8) :
    ((lines text).1.flatMap (· ++ [newline])).length + (lines text).2.length = text.length := by
  induction text with
  | nil => rfl
  | cons c text ih =>
    rw [lines]
    split
    · simp only [List.flatMap_cons, List.nil_append, List.length_append, List.length_cons,
        List.length_nil] at ih ⊢
      omega
    · cases before : (lines text).1 with
      | nil =>
        rw [before] at ih
        simp only [List.flatMap_nil, List.length_nil, List.length_cons] at ih ⊢
        omega
      | cons line rest =>
        rw [before] at ih
        simp only [List.flatMap_cons, List.length_append, List.length_cons] at ih ⊢
        omega

theorem lines_count (text : List UInt8) :
    (lines text).1.length ≤ ((lines text).1.flatMap (· ++ [newline])).length := by
  induction (lines text).1 with
  | nil => exact Nat.le_refl 0
  | cons line rest ih =>
    rw [List.flatMap_cons, List.length_append, List.length_append, List.length_cons, List.length_singleton]
    omega

end Lines

/-! The buffer. -/

/-- The bytes at offset `p`. -/
def Holds (buf : Nat → UInt8) (p : Nat) : List UInt8 → Prop
  | [] => True
  | c :: text => buf p = c ∧ Holds buf (p + 1) text

section Buffer
variable {buf buf' : Nat → UInt8} {p n : Nat} {text : List UInt8}

theorem holds_append {more : List UInt8} :
    Holds buf p (text ++ more) ↔ Holds buf p text ∧ Holds buf (p + text.length) more := by
  induction text generalizing p with
  | nil => exact (iff_of_eq (true_and _)).symm
  | cons c text ih =>
    rw [List.cons_append, Holds, Holds, ih, List.length_cons, and_assoc, Nat.add_right_comm, Nat.add_assoc]

theorem holds_congr (same : ∀ i, p ≤ i → i < p + text.length → buf' i = buf i) (holds : Holds buf p text) :
    Holds buf' p text := by
  induction text generalizing p with
  | nil => trivial
  | cons c text ih =>
    rw [List.length_cons] at same
    exact ⟨(same p (Nat.le_refl p) (by omega)).trans holds.1,
      ih (fun i low high => same i (by omega) (by omega)) holds.2⟩

theorem storeAt_other {i : Nat} (outside : i < p ∨ p + text.length ≤ i) : storeAt buf p text i = buf i := by
  induction text generalizing p buf with
  | nil => rfl
  | cons c text ih =>
    rw [List.length_cons] at outside
    rw [storeAt, ih (by omega), update_of_ne (by omega)]

theorem holds_storeAt (buf : Nat → UInt8) (p : Nat) (text : List UInt8) :
    Holds (storeAt buf p text) p text := by
  induction text generalizing p buf with
  | nil => trivial
  | cons c text ih => exact ⟨by rw [storeAt, storeAt_other (by omega), update_self], ih _ _⟩

theorem strchr_none (holds : Holds buf p text) (nul : buf (p + text.length) = 0)
    (plain : newline ∉ text) : strchr buf newline p n = none := by
  induction n generalizing p text with
  | zero => rfl
  | succ n ih =>
    rw [strchr]
    cases text with
    | nil => rw [if_pos (by exact nul)]
    | cons c text =>
      rw [List.mem_cons, not_or] at plain
      rw [List.length_cons] at nul
      split
      · rfl
      · rw [holds.1, if_neg (Ne.symm plain.1)]
        exact ih holds.2 (by rw [← nul]; congr 1; omega) plain.2

theorem strchr_some {line : List UInt8} (holds : Holds buf p (line ++ newline :: text))
    (none : newline ∉ line) (clean : 0 ∉ line) (within : line.length < n) :
    strchr buf newline p n = some (p + line.length) := by
  induction line generalizing p n with
  | nil =>
    obtain ⟨n, rfl⟩ := Nat.exists_eq_succ_of_ne_zero (Nat.ne_zero_of_lt within)
    rw [List.nil_append] at holds
    rw [strchr, holds.1, if_neg (by decide), if_pos rfl]
    rfl
  | cons c line ih =>
    obtain ⟨n, rfl⟩ := Nat.exists_eq_succ_of_ne_zero (Nat.ne_zero_of_lt within)
    rw [List.cons_append] at holds
    rw [List.mem_cons, not_or] at none clean
    rw [List.length_cons] at within
    rw [strchr, holds.1, if_neg (Ne.symm clean.1), if_neg (Ne.symm none.1),
      ih holds.2 none.2 clean.2 (by omega), List.length_cons]
    congr 1
    omega

theorem stringAt_eq (holds : Holds buf p text) (nul : buf (p + text.length) = 0) (clean : 0 ∉ text)
    (within : text.length < n) : stringAt buf p n = text := by
  induction text generalizing p n with
  | nil =>
    obtain ⟨n, rfl⟩ := Nat.exists_eq_succ_of_ne_zero (Nat.ne_zero_of_lt within)
    rw [stringAt, if_pos (by exact nul)]
  | cons c text ih =>
    obtain ⟨n, rfl⟩ := Nat.exists_eq_succ_of_ne_zero (Nat.ne_zero_of_lt within)
    rw [List.mem_cons, not_or] at clean
    rw [List.length_cons] at within nul
    rw [stringAt, holds.1, if_neg (Ne.symm clean.1),
      ih holds.2 (by rw [← nul]; congr 1; omega) clean.2 (by omega)]

theorem bytesAt_eq (holds : Holds buf p text) : bytesAt buf p text.length = text := by
  induction text generalizing p with
  | nil => rfl
  | cons c text ih => rw [List.length_cons, bytesAt, holds.1, ih holds.2]

theorem memmove_below {dst src i : Nat} (below : i < dst) : memmove buf dst src n i = buf i := by
  induction n generalizing buf dst src with
  | zero => rfl
  | succ n ih => rw [memmove, ih (by omega), update_of_ne (by omega)]

/-- Moving bytes to the front, where they may overlap. -/
theorem holds_memmove {dst src : Nat} (front : dst ≤ src) (holds : Holds buf src text) :
    Holds (memmove buf dst src text.length) dst text := by
  induction text generalizing buf dst src with
  | nil => trivial
  | cons c text ih =>
    rw [List.length_cons, memmove]
    refine ⟨by rw [memmove_below (by omega), update_self, holds.1], ih (by omega) ?_⟩
    exact holds_congr (fun i low _ => update_of_ne (by omega) _ _) holds.2

end Buffer

theorem shown_cons (pattern line : List UInt8) (ls : List (List UInt8)) :
    shown pattern (line :: ls) =
      (if matchText pattern line then line ++ [newline] else []) ++ shown pattern ls := by
  unfold shown
  rw [List.filter_cons]
  split
  · rw [List.flatMap_cons]
  · rw [List.nil_append]

section Pattern
variable (pattern : List UInt8) {carry : List UInt8} {chunks : List (List UInt8)}

/-- The loop over the lines writes those that match and stops at the rest. -/
theorem lineLoop_eq {io : Io} {p fuel : Nat} {text : List UInt8} (holds : Holds io.buf p text)
    (nul : io.buf (p + text.length) = 0) (clean : 0 ∉ text) (fits : text.length < bufSize)
    (enough : (lines text).1.length < fuel) :
    ∃ buf, lineLoop pattern io p fuel = some ({ buf, out := io.out ++ shown pattern (lines text).1 },
        p + (text.length - (lines text).2.length)) ∧
      Holds buf (p + (text.length - (lines text).2.length)) (lines text).2 := by
  induction fuel generalizing io p text with
  | zero => exact absurd enough (Nat.not_lt_zero _)
  | succ fuel ih =>
    rw [lineLoop]
    rcases line_cases text with none | ⟨line, rest, none, rfl⟩
    · rw [strchr_none holds nul none, lines_none none]
      refine ⟨io.buf, ?_, ?_⟩
      · unfold shown
        simp
      · rwa [Nat.sub_self]
    · rw [List.mem_append, List.mem_cons, not_or, not_or] at clean
      obtain ⟨cleanLine, -, cleanRest⟩ := clean
      rw [List.length_append, List.length_cons] at fits nul
      rw [lines_line none] at enough ⊢
      rw [List.length_cons] at enough
      have shorter := length_lines rest
      obtain ⟨holdsLine, -, holdsRest⟩ := holds_append.mp holds
      rw [strchr_some holds none cleanLine (by omega)]
      obtain ⟨cut, here⟩ : ∃ cut, update io.buf (p + line.length) 0 = cut := ⟨_, rfl⟩
      have other : ∀ i, i ≠ p + line.length → cut i = io.buf i := fun i away => by
        rw [← here, update_of_ne away]
      have found : stringAt cut p bufSize = line :=
        stringAt_eq (holds_congr (fun i _ high => other i (by omega)) holdsLine)
          (by rw [← here, update_self]) cleanLine (by omega)
      -- whatever the line does, the loop goes on after it with these bytes
      have later : ∀ (buf : Nat → UInt8) (out : List UInt8), (∀ i, p + line.length < i → buf i = io.buf i) →
          out = io.out ++ (if matchText pattern line then line ++ [newline] else []) →
          ∃ after, lineLoop pattern { buf, out } (p + line.length + 1) fuel =
              some ({ buf := after, out := io.out ++ shown pattern (line :: (lines rest).1) },
                p + ((line ++ newline :: rest).length - (lines rest).2.length)) ∧
            Holds after (p + ((line ++ newline :: rest).length - (lines rest).2.length)) (lines rest).2 := by
        intro buf out same written
        have next : Holds buf (p + line.length + 1) rest :=
          holds_congr (fun i low _ => same i (by omega)) holdsRest
        have nul' : buf (p + line.length + 1 + rest.length) = 0 := by
          rw [same _ (by omega), ← nul]
          congr 1
          omega
        have step := @ih ⟨buf, out⟩ _ rest next nul' cleanRest (by omega) (by omega)
        have place : p + line.length + 1 + (rest.length - (lines rest).2.length) =
            p + ((line ++ newline :: rest).length - (lines rest).2.length) := by
          rw [List.length_append, List.length_cons]
          omega
        have all : out ++ shown pattern (lines rest).1 = io.out ++ shown pattern (line :: (lines rest).1) := by
          rw [written, List.append_assoc, ← shown_cons]
        rw [place, all] at step
        exact step
      dsimp only
      rw [here, found]
      split
      · rename_i yes
        refine later _ _ (fun i above => ?_) ?_
        · rw [update_of_ne (by omega), other i (by omega)]
        · have copied : Holds (update cut (p + line.length) newline) p (line ++ [newline]) := by
            refine holds_append.mpr ⟨holds_congr (fun i _ high => ?_) holdsLine, update_self .., trivial⟩
            rw [update_of_ne (by omega), other i (by omega)]
          have bytes := bytesAt_eq copied
          rw [List.length_append, List.length_singleton] at bytes
          rw [show p + line.length + 1 - p = line.length + 1 by omega, bytes, if_pos yes]
      · rename_i no
        refine later _ _ (fun i above => other i (by omega)) ?_
        rw [if_neg no, List.append_nil]

/-- What the loop writes: at a chunk without a newline, the bytes so far are given up. -/
def written (pattern carry : List UInt8) : List (List UInt8) → List UInt8
  | [] => []
  | chunk :: chunks =>
    if newline ∈ chunk then
      shown pattern (lines (carry ++ chunk)).1 ++ written pattern (lines chunk).2 chunks
    else written pattern [] chunks

theorem grepLoop_eq {io : Io} (holds : Holds io.buf 0 carry) (none : newline ∉ carry) (clean : 0 ∉ carry)
    (reads : Reads carry.length chunks) (cleanAll : 0 ∉ chunks.flatten) :
    ∃ buf, grepLoop pattern io carry.length chunks =
      some { buf, out := io.out ++ written pattern carry chunks } := by
  induction chunks generalizing io carry with
  | nil => exact ⟨io.buf, by rw [grepLoop, written, List.append_nil]⟩
  | cons chunk chunks ih =>
    obtain ⟨nonempty, fits, later⟩ := reads
    rw [List.flatten_cons, List.mem_append, not_or] at cleanAll
    obtain ⟨cleanChunk, cleanLater⟩ := cleanAll
    have cleanText : 0 ∉ carry ++ chunk := by
      rw [List.mem_append, not_or]
      exact ⟨clean, cleanChunk⟩
    have length : (carry ++ chunk).length = carry.length + chunk.length := List.length_append
    have positive : 0 < chunk.length := List.length_pos_iff.mpr nonempty
    obtain ⟨loaded, here⟩ : ∃ loaded, update (storeAt io.buf carry.length chunk)
      (carry.length + chunk.length) 0 = loaded := ⟨_, rfl⟩
    have text : Holds loaded 0 (carry ++ chunk) := by
      rw [holds_append, Nat.zero_add, ← here]
      constructor
      · refine holds_congr (fun i _ high => ?_) holds
        rw [update_of_ne (by omega), storeAt_other (by omega)]
      · refine holds_congr (fun i _ high => ?_) (holds_storeAt io.buf carry.length chunk)
        rw [update_of_ne (by omega)]
    have nul : loaded (0 + (carry ++ chunk).length) = 0 := by
      rw [Nat.zero_add, length, ← here, update_self]
    have count := length_lines (carry ++ chunk)
    have lineCount := lines_count (carry ++ chunk)
    obtain ⟨buf, loop, rest⟩ := @lineLoop_eq pattern ⟨loaded, io.out⟩ 0 bufSize _ text nul cleanText
      (by unfold bufSize at *; omega) (by unfold bufSize at *; omega)
    rw [Nat.zero_add] at loop rest
    rw [grepLoop, if_neg nonempty, if_neg (by omega), written]
    dsimp only
    rw [here, loop]
    dsimp only
    by_cases some : newline ∈ chunk
    · obtain ⟨left, full⟩ := rest_of_carry none some
      rw [if_pos some] at later ⊢
      have first : 0 < (lines (carry ++ chunk)).1.length := List.length_pos_iff.mpr full
      rw [left] at loop rest count ⊢
      have moves : ¬ (carry ++ chunk).length - (lines chunk).2.length = 0 := by omega
      have more : carry.length + chunk.length > 0 := by omega
      rw [if_neg moves, if_pos more,
        show carry.length + chunk.length - ((carry ++ chunk).length - (lines chunk).2.length) =
          (lines chunk).2.length by omega]
      have moved := holds_memmove (Nat.zero_le _) rest
      obtain ⟨after, loop⟩ := @ih _ ⟨_, _⟩ moved (rest_none chunk)
        (fun zero => cleanChunk (mem_of_rest zero)) later cleanLater
      rw [loop]
      exact ⟨after, by rw [List.append_assoc]⟩
    · rw [if_neg some] at later ⊢
      have plain : newline ∉ carry ++ chunk := by
        rw [List.mem_append, not_or]
        exact ⟨none, some⟩
      rw [lines_none plain] at loop rest ⊢
      rw [if_pos (Nat.sub_self _), if_neg (Nat.lt_irrefl 0)]
      obtain ⟨after, loop⟩ := @ih [] ⟨buf, io.out ++ shown pattern []⟩ trivial
        List.not_mem_nil List.not_mem_nil later cleanLater
      rw [List.length_nil] at loop
      rw [loop]
      exact ⟨after, by rw [show shown pattern [] = [] from rfl, List.append_nil]⟩

theorem grep_eq (reads : Reads 0 chunks) (clean : 0 ∉ chunks.flatten) :
    grep pattern chunks = some (written pattern [] chunks) := by
  obtain ⟨buf, loop⟩ := @grepLoop_eq pattern [] chunks ⟨fun _ => 0, []⟩ trivial List.not_mem_nil
    List.not_mem_nil reads clean
  unfold grep
  rw [List.length_nil] at loop
  rw [loop]
  rfl

theorem shown_append (ls more : List (List UInt8)) :
    shown pattern (ls ++ more) = shown pattern ls ++ shown pattern more := by
  unfold shown
  rw [List.filter_append, List.flatMap_append]

/-- As long as every chunk ends a line, nothing is given up. -/
theorem written_of_newlines (none : newline ∉ carry) (each : ∀ chunk ∈ chunks, newline ∈ chunk) :
    written pattern carry chunks = shown pattern (lines (carry ++ chunks.flatten)).1 := by
  induction chunks generalizing carry with
  | nil =>
    rw [List.flatten_nil, List.append_nil, lines_none none]
    rfl
  | cons chunk chunks ih =>
    obtain ⟨here, later⟩ := List.forall_mem_cons.mp each
    rw [written, if_pos here, ih (rest_none chunk) later, List.flatten_cons, ← List.append_assoc,
      lines_append (carry ++ chunk), (rest_of_carry none here).1, shown_append]

end Pattern

/-- The empty pattern is found in every line. -/
theorem shown_all (ls : List (List UInt8)) : shown [] ls = ls.flatMap (· ++ [newline]) := by
  unfold shown
  rw [List.filter_eq_self.mpr]
  intro line _
  cases line <;> rfl

/-- With the empty pattern, what is given up is missing from the output. -/
theorem length_written {carry : List UInt8} {chunks : List (List UInt8)} {m : Nat} (none : newline ∉ carry)
    (reads : Reads m chunks) :
    (written [] carry chunks).length ≤ carry.length + chunks.flatten.length ∧
      ((∃ chunk ∈ chunks, newline ∉ chunk) →
        (written [] carry chunks).length < carry.length + chunks.flatten.length) := by
  induction chunks generalizing carry m with
  | nil => exact ⟨Nat.zero_le _, fun ⟨_, mem, _⟩ => absurd mem List.not_mem_nil⟩
  | cons chunk chunks ih =>
    obtain ⟨nonempty, -, later⟩ := reads
    have positive : 0 < chunk.length := List.length_pos_iff.mpr nonempty
    rw [written, List.flatten_cons, List.length_append]
    by_cases here : newline ∈ chunk
    · obtain ⟨le, lt⟩ := ih (rest_none chunk) later
      have count := length_lines (carry ++ chunk)
      rw [(rest_of_carry none here).1, List.length_append] at count
      rw [if_pos here, shown_all, List.length_append]
      refine ⟨by omega, fun ⟨other, mem, lacks⟩ => ?_⟩
      rcases List.mem_cons.mp mem with rfl | mem
      · exact absurd here lacks
      · have short := lt ⟨other, mem, lacks⟩
        omega
    · obtain ⟨le, -⟩ := ih List.not_mem_nil later
      rw [List.length_nil] at le
      rw [if_neg here]
      exact ⟨by omega, fun _ => by omega⟩

/-- grep writes exactly the matching lines, whatever the pattern, if and only if every `read`
returns the end of some line. -/
theorem grep_output_iff {chunks : List (List UInt8)} (reads : Reads 0 chunks) (clean : 0 ∉ chunks.flatten)
    (terminated : (lines chunks.flatten).2 = []) :
    (∀ pattern, grep pattern chunks = some (shown pattern (lines chunks.flatten).1)) ↔
      ∀ chunk ∈ chunks, newline ∈ chunk := by
  constructor
  · intro right
    by_contra lost
    push Not at lost
    have all := right []
    rw [grep_eq [] reads clean, shown_all] at all
    have short := (length_written List.not_mem_nil reads).2 lost
    rw [Option.some.inj all, List.length_nil, Nat.zero_add] at short
    have count := length_lines chunks.flatten
    rw [terminated, List.length_nil] at count
    omega
  · intro each pattern
    rw [grep_eq pattern reads clean, written_of_newlines pattern List.not_mem_nil each, List.nil_append]

theorem grep_output_iff_two_lines : grep [97] [[97, 10, 98], [10]] =
    some (shown [97] (lines [97, 10, 98, 10]).1) :=
  (@grep_output_iff [[97, 10, 98], [10]] (by decide) (by decide) (by decide)).mpr (by decide) [97]

/-- The line "ab" that arrives in two pieces: its first piece is given up. -/
theorem grep_loses_partial_line :
    Reads 0 [[97], [98, 10]] ∧ lines [97, 98, 10] = ([[97, 98]], []) ∧
      grep [97] [[97], [98, 10]] = some [] ∧ shown [97] [[97, 98]] = [97, 98, 10] := by
  decide +kernel

end ColorXv6.User.Grep
