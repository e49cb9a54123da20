import ColorXv6.User.Shell

/-!
The tokens of a line, and what `gettoken` and `peek` do when the cursor stands
before some of them.
-/
namespace ColorXv6.User.ShellTokens
open Shell

abbrev Text := List UInt8

inductive Mark where
  | bar | lpar | rpar | semi | amp | lt | gt | gtgt
deriving DecidableEq

/-- A word is its text. -/
inductive Tok where
  | mark (m : Mark)
  | word (w : Text)
deriving DecidableEq

def single (c : UInt8) : Option Mark :=
  if c = '|'.toUInt8 then some .bar
  else if c = '('.toUInt8 then some .lpar
  else if c = ')'.toUInt8 then some .rpar
  else if c = ';'.toUInt8 then some .semi
  else if c = '&'.toUInt8 then some .amp
  else if c = '<'.toUInt8 then some .lt
  else none

/-- Words are maximal runs of bytes that are neither white space nor symbols, and `>>`
is one token. -/
def tokenize : Text → List Tok
  | [] => []
  | c :: rest =>
    if isSpace c then tokenize rest
    else if c = '>'.toUInt8 then
      if rest.head? = some '>'.toUInt8 then .mark .gtgt :: tokenize rest.tail
      else .mark .gt :: tokenize rest
    else
      match single c with
      | some m => .mark m :: tokenize rest
      | none => .word (c :: rest.takeWhile isWord) :: tokenize (rest.dropWhile isWord)
termination_by line => line.length
decreasing_by
  all_goals simp only [List.length_cons, List.length_tail]
  any_goals omega
  exact Nat.lt_succ_of_le (List.dropWhile_sublist _).length_le

/-! ### The loops -/

theorem byteAt_eq (line : Text) (s : Nat) : byteAt line s = (line.drop s).headD 0 := by
  simp [byteAt, List.headD_eq_head?_getD, List.head?_drop]

variable {line : Text}

theorem drop_cons {s : Nat} {c : UInt8} {rest : Text} (here : line.drop s = c :: rest) :
    s < line.length ∧ byteAt line s = c ∧ line.drop (s + 1) = rest := by
  refine ⟨?_, by rw [byteAt_eq, here]; rfl, ?_⟩
  · have := congrArg List.length here
    simp only [List.length_drop, List.length_cons] at this
    omega
  · rw [← List.drop_drop, here]
    rfl

/-- The loop passes the bytes that meet the test, and the end at most. -/
theorem advance_spec (line : Text) (test : UInt8 → Bool) (left s : Nat)
    (bound : s + left = line.length) :
    s ≤ advance line test left s ∧ advance line test left s ≤ line.length ∧
      line.drop (advance line test left s) = (line.drop s).dropWhile test ∧
      (line.drop s).take (advance line test left s - s) = (line.drop s).takeWhile test := by
  induction left generalizing s with
  | zero =>
    have ended : line.drop s = [] := List.drop_eq_nil_of_le (by omega)
    rw [advance, ended]
    exact ⟨Nat.le_refl s, by omega, rfl, List.take_nil⟩
  | succ left ih =>
    obtain ⟨c, rest, here⟩ : ∃ c rest, line.drop s = c :: rest :=
      List.exists_cons_of_length_pos (by rw [List.length_drop]; omega)
    obtain ⟨-, byte, tail⟩ := drop_cons here
    rw [advance, byte]
    split
    · rename_i passed
      obtain ⟨ahead, inside, dropped, taken⟩ := ih (s + 1) (by omega)
      refine ⟨by omega, inside, ?_, ?_⟩
      · rw [dropped, tail, here, List.dropWhile_cons_of_pos passed]
      · rw [tail] at taken
        rw [here, List.takeWhile_cons_of_pos passed, ← taken,
          show advance line test left (s + 1) - s = advance line test left (s + 1) - (s + 1) + 1 by
            omega, List.take_succ_cons]
    · rename_i failed
      rw [here, List.dropWhile_cons_of_neg failed, List.takeWhile_cons_of_neg failed]
      rw [Nat.sub_self]
      exact ⟨Nat.le_refl s, by omega, rfl, rfl⟩

/-! ### The cursor before tokens -/

/-- The cursor `s` stands before the tokens `ts`. -/
structure At (line : Text) (s : Nat) (ts : List Tok) : Prop where
  inside : s ≤ line.length
  tokens : tokenize (line.drop s) = ts

/-- The span of a word in the line: all of it is word bytes, and none follows. -/
structure Placed (line : Text) (span : Span) (w : Text) : Prop where
  text : (line.drop span.q).take (span.eq - span.q) = w
  ordered : span.q ≤ span.eq
  inside : span.eq ≤ line.length
  letters : ∀ c ∈ w, isWord c = true
  ended : ∀ c ∈ (line.drop span.eq).head?, isWord c = false

theorem tokenize_dropSpace (l : Text) : tokenize (l.dropWhile isSpace) = tokenize l := by
  induction l with
  | nil => rfl
  | cons c rest ih =>
    rw [List.dropWhile_cons]
    split
    · rename_i space
      rw [ih, tokenize, if_pos space]
    · rfl

theorem skipSpace_spec {s : Nat} {ts : List Tok} (here : At line s ts) :
    At line (skipSpace line s) ts ∧
      line.drop (skipSpace line s) = (line.drop s).dropWhile isSpace := by
  have bound := here.inside
  obtain ⟨-, inside, dropped, -⟩ :=
    advance_spec line isSpace (line.length - s) s (by omega)
  refine ⟨⟨inside, ?_⟩, dropped⟩
  rw [show line.drop (skipSpace line s) = _ from dropped, tokenize_dropSpace, here.tokens]

theorem skipSpace_head {s : Nat} {ts : List Tok} (here : At line s ts) :
    ∀ c ∈ (line.drop (skipSpace line s)).head?, isSpace c = false := by
  intro c first
  rw [(skipSpace_spec here).2] at first
  have := List.head?_dropWhile_not isSpace (line.drop s)
  rw [Option.mem_def.mp first] at this
  simpa using this

/-- `ret` of a mark. -/
def Mark.ret : Mark → UInt8
  | .bar => '|'.toUInt8
  | .lpar => '('.toUInt8
  | .rpar => ')'.toUInt8
  | .semi => ';'.toUInt8
  | .amp => '&'.toUInt8
  | .lt => '<'.toUInt8
  | .gt => '>'.toUInt8
  | .gtgt => append

/-- Its first byte. -/
def Mark.lead : Mark → Char
  | .bar => '|'
  | .lpar => '('
  | .rpar => ')'
  | .semi => ';'
  | .amp => '&'
  | .lt => '<'
  | .gt => '>'
  | .gtgt => '>'

theorem single_some {c : UInt8} {m : Mark} (found : single c = some m) :
    (['|', '(', ')', ';', '&', '<'].map Char.toUInt8).contains c = true ∧ m.ret = c ∧
      m.lead.toUInt8 = c := by
  unfold single at found
  split_ifs at found <;> obtain rfl := Option.some.inj found <;> subst c <;> decide

theorem single_none {c : UInt8} (found : single c = none) (noGt : c ≠ '>'.toUInt8)
    (noSpace : isSpace c = false) :
    (['|', '(', ')', ';', '&', '<'].map Char.toUInt8).contains c = false ∧ isWord c = true := by
  unfold single at found
  split_ifs at found
  rw [isSpace] at noSpace
  refine ⟨?_, ?_⟩
  · simp_all
  · simp_all [isWord, symbols]

/-- What the switch of `gettoken` finds at `q`, after white space, when the tokens from
there are the first argument. -/
inductive Scanned (line : Text) (q : Nat) : List Tok → UInt8 × Nat → Prop
  | ended : q = line.length → Scanned line q [] (0, q)
  | mark (m : Mark) (ts : List Tok) (e : Nat) :
      q < line.length → byteAt line q = m.lead.toUInt8 → At line e ts →
      Scanned line q (.mark m :: ts) (m.ret, e)
  | word (w : Text) (ts : List Tok) (e : Nat) :
      q < line.length → isWord (byteAt line q) = true → Placed line ⟨q, e⟩ w → At line e ts →
      Scanned line q (.word w :: ts) (word, e)

theorem tokenAt_scanned (clean : 0 ∉ line) {q : Nat} (inside : q ≤ line.length)
    (noSpace : ∀ c ∈ (line.drop q).head?, isSpace c = false) :
    Scanned line q (tokenize (line.drop q)) (tokenAt line q) := by
  cases here : line.drop q with
  | nil =>
    have byte : byteAt line q = 0 := by rw [byteAt_eq, here]; rfl
    rw [tokenize, tokenAt, byte, if_pos rfl]
    exact .ended (by have := List.drop_eq_nil_iff.mp here; omega)
  | cons c rest =>
    obtain ⟨short, byte, tail⟩ := drop_cons here
    have noSpace : isSpace c = false := noSpace c (by rw [here]; rfl)
    have nonzero : c ≠ 0 := by
      rintro rfl
      exact clean (List.mem_of_mem_drop (here ▸ List.mem_cons_self))
    rw [tokenize, tokenAt, byte, if_neg (by rw [noSpace]; decide), if_neg nonzero]
    by_cases gt : c = '>'.toUInt8
    · subst gt
      have six : ¬ (['|', '(', ')', ';', '&', '<'].map Char.toUInt8).contains '>'.toUInt8 = true := by
        decide
      rw [if_pos rfl, if_neg six, if_pos rfl]
      have second : rest.head? = some '>'.toUInt8 ↔ byteAt line (q + 1) = '>'.toUInt8 := by
        rw [byteAt_eq, tail]
        cases rest with
        | nil => decide
        | cons d rest => simp
      by_cases double : byteAt line (q + 1) = '>'.toUInt8
      · rw [if_pos (second.mpr double), if_pos double]
        obtain ⟨rest, rfl⟩ := List.head?_eq_some_iff.mp (second.mpr double)
        obtain ⟨short, -, tail⟩ := drop_cons tail
        exact .mark .gtgt _ _ (by omega) byte ⟨by omega, by rw [tail]; rfl⟩
      · rw [if_neg (fun h => double (second.mp h)), if_neg double]
        exact .mark .gt _ _ short byte ⟨short, by rw [tail]⟩
    · rw [if_neg gt]
      cases found : single c with
      | some m =>
        obtain ⟨six, ret, lead⟩ := single_some found
        rw [if_pos six, ← ret]
        exact .mark m _ _ short (by rw [byte, lead]) ⟨short, by rw [tail]⟩
      | none =>
        obtain ⟨six, letter⟩ := single_none found gt noSpace
        rw [if_neg (by rw [six]; decide), if_neg gt]
        obtain ⟨ahead, within, dropped, taken⟩ :=
          advance_spec line isWord (line.length - q) q (by omega)
        rw [here, List.dropWhile_cons_of_pos letter] at dropped
        rw [here, List.takeWhile_cons_of_pos letter] at taken
        refine .word _ _ _ short (by rw [byte, letter]) ⟨by rw [here, taken], ahead, within, ?_, ?_⟩
          ⟨within, by rw [dropped]⟩
        · intro d mem
          rcases List.mem_cons.mp mem with rfl | mem
          · exact letter
          · exact List.all_eq_true.mp List.all_takeWhile d mem
        · intro d mem
          have first := List.head?_dropWhile_not isWord rest
          rw [← dropped, Option.mem_def.mp mem] at first
          simpa using first

/-- `peek` looks at the first token; a word is none of the symbols it is asked for. -/
def leads (toks : List Char) : List Tok → Bool
  | .mark m :: _ => toks.contains m.lead
  | _ => false

/-- The strings that `peek` is called with. -/
def asked : List (List Char) :=
  [['<', '>'], ['|', ')', '&', ';'], ['&'], [';'], ['|'], ['('], [')']]

theorem asked_lead (m : Mark) : ∀ toks ∈ asked,
    (m.lead.toUInt8 != 0 && (toks.map Char.toUInt8).contains m.lead.toUInt8) =
      toks.contains m.lead := by
  cases m <;> decide

theorem asked_symbols :
    (asked.all fun toks => (toks.map Char.toUInt8).all symbols.contains) = true := by
  decide

theorem Mark.ret_ne_word (m : Mark) : m.ret ≠ Shell.word := by
  cases m <;> decide

theorem Mark.ret_ne_zero (m : Mark) : m.ret ≠ 0 := by
  cases m <;> decide

section Cursor
variable {line : Text} (clean : 0 ∉ line) {s : Nat} {ts : List Tok}
include clean

theorem At.scanned (here : At line s ts) :
    Scanned line (skipSpace line s) ts (tokenAt line (skipSpace line s)) := by
  obtain ⟨⟨inside, tokens⟩, -⟩ := skipSpace_spec here
  have scanned := tokenAt_scanned clean inside (skipSpace_head here)
  rwa [tokens] at scanned

theorem gettoken_end (here : At line s []) :
    (gettoken line s).ret = 0 ∧ At line (gettoken line s).next [] := by
  have there := (skipSpace_spec here).1
  have scanned := here.scanned clean
  generalize found : tokenAt line (skipSpace line s) = t at scanned
  cases scanned with
  | ended _ =>
    rw [gettoken, found]
    exact ⟨rfl, (skipSpace_spec there).1⟩

theorem gettoken_mark {m : Mark} (here : At line s (.mark m :: ts)) :
    (gettoken line s).ret = m.ret ∧ At line (gettoken line s).next ts := by
  have scanned := here.scanned clean
  generalize found : tokenAt line (skipSpace line s) = t at scanned
  cases scanned with
  | mark _ _ e _ _ after =>
    rw [gettoken, found]
    exact ⟨rfl, (skipSpace_spec after).1⟩

theorem gettoken_word {w : Text} (here : At line s (.word w :: ts)) :
    (gettoken line s).ret = word ∧ At line (gettoken line s).next ts ∧
      Placed line (gettoken line s).span w := by
  have scanned := here.scanned clean
  generalize found : tokenAt line (skipSpace line s) = t at scanned
  cases scanned with
  | word _ _ e _ _ placed after =>
    rw [gettoken, found]
    exact ⟨rfl, (skipSpace_spec after).1, placed⟩

theorem peek_spec (toks : List Char) (known : toks ∈ asked) (here : At line s ts) :
    ∃ s', peek line toks s = (leads toks ts, s') ∧ At line s' ts := by
  have scanned := here.scanned clean
  refine ⟨_, Prod.ext ?_ rfl, (skipSpace_spec here).1⟩
  rw [peek]
  generalize tokenAt line (skipSpace line s) = t at scanned
  cases scanned with
  | ended last => simp [byteAt, last, leads]
  | mark m _ _ _ byte _ =>
    rw [byte]
    exact asked_lead m toks known
  | word _ _ _ _ letter _ _ =>
    have none : (toks.map Char.toUInt8).contains (byteAt line (skipSpace line s)) = false := by
      rw [Bool.eq_false_iff]
      intro found
      have each := List.all_eq_true.mp asked_symbols toks known
      have := List.all_eq_true.mp each _ (List.contains_iff_mem.mp found)
      rw [isWord, this] at letter
      simp at letter
    rw [none, Bool.and_false, leads]
    rintro _ _ ⟨⟩

/-- All white space after the last token. -/
theorem peek_end (here : At line s ts) : (peek line [] s).2 = line.length ↔ ts = [] := by
  have scanned := here.scanned clean
  rw [peek]
  generalize tokenAt line (skipSpace line s) = t at scanned
  cases scanned with
  | ended last => exact iff_of_true last rfl
  | mark _ _ _ short | word _ _ _ short => exact iff_of_false (Nat.ne_of_lt short) (List.cons_ne_nil _ _)

end Cursor

end ColorXv6.User.ShellTokens
