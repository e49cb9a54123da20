import ColorXv6.User.ShellTokens
import Mathlib.Data.List.Forall2
import Mathlib.Logic.Function.Iterate

/-!
The grammar of the shell over tokens, and what the loops of the parser find in it.
-/
namespace ColorXv6.User.ShellGrammar
open Shell ShellTokens

/-- The three redirections. -/
inductive Op where
  | lt | gt | gtgt
deriving DecidableEq

def Op.mark : Op → Mark
  | .lt => .lt
  | .gt => .gt
  | .gtgt => .gtgt

/-- `redir := ('<' | '>' | '>>') word`. -/
structure Redirection where
  op : Op
  file : Text

def Redirection.tokens (r : Redirection) : List Tok := [.mark r.op.mark, .word r.file]

def Redirection.node (r : Redirection) : Redir Text :=
  match r.op with
  | .lt => ⟨r.file, rdonly, 0⟩
  | .gt => ⟨r.file, wronlyCreate, 1⟩
  | .gtgt => ⟨r.file, wronlyCreate, 1⟩

/-- `word redir*`. -/
structure Argument where
  word : Text
  redirs : List Redirection

def Argument.tokens (a : Argument) : List Tok := .word a.word :: a.redirs.flatMap Redirection.tokens

inductive Phrase where
  | line | pipe | exec

/-- `line := pipe '&'* [';' line]`, `pipe := exec ['|' pipe]` and
`exec := '(' line ')' redir* | redir* (word redir*)*` with fewer than `MAXARGS` words. -/
inductive Derives : Phrase → List Tok → Cmd Text → Prop
  | line {ts : List Tok} {c : Cmd Text} (amps : Nat) (first : Derives .pipe ts c) :
      Derives .line (ts ++ List.replicate amps (.mark .amp)) (Cmd.back^[amps] c)
  | list {ts us : List Tok} {c d : Cmd Text} (amps : Nat) (first : Derives .pipe ts c)
      (second : Derives .line us d) :
      Derives .line (ts ++ List.replicate amps (.mark .amp) ++ .mark .semi :: us)
        (.list (Cmd.back^[amps] c) d)
  | single {ts : List Tok} {c : Cmd Text} (first : Derives .exec ts c) : Derives .pipe ts c
  | pipe {ts us : List Tok} {c d : Cmd Text} (first : Derives .exec ts c)
      (second : Derives .pipe us d) : Derives .pipe (ts ++ .mark .bar :: us) (.pipe c d)
  | block {ts : List Tok} {c : Cmd Text} (redirs : List Redirection) (inner : Derives .line ts c) :
      Derives .exec
        (.mark .lpar :: ts ++ .mark .rpar :: redirs.flatMap Redirection.tokens)
        (redirected c (redirs.map Redirection.node))
  | simple (redirs : List Redirection) (args : List Argument) (few : args.length ≤ maxargs - 1) :
      Derives .exec (redirs.flatMap Redirection.tokens ++ args.flatMap Argument.tokens)
        (redirected (.exec (args.map Argument.word))
          ((redirs ++ args.flatMap Argument.redirs).map Redirection.node))

/-! ### Trees of spans -/

/-- A redirection of the parser has the file of the token at its span. -/
structure SpellsRedir (line : Text) (r : Redir Span) (t : Redir Text) : Prop where
  file : Placed line r.file t.file
  mode : r.mode = t.mode
  fd : r.fd = t.fd

/-- The tree of spans is the tree of words, each placed where its span says. -/
inductive Spells (line : Text) : Cmd Span → Cmd Text → Prop
  | exec {argv : List Span} {words : List Text} :
      List.Forall₂ (Placed line) argv words → Spells line (.exec argv) (.exec words)
  | redir {c : Cmd Span} {t : Cmd Text} {file : Span} {w : Text} (mode fd : Nat) :
      Spells line c t → Placed line file w → Spells line (.redir c file mode fd) (.redir t w mode fd)
  | pipe {c d : Cmd Span} {t u : Cmd Text} :
      Spells line c t → Spells line d u → Spells line (.pipe c d) (.pipe t u)
  | list {c d : Cmd Span} {t u : Cmd Text} :
      Spells line c t → Spells line d u → Spells line (.list c d) (.list t u)
  | back {c : Cmd Span} {t : Cmd Text} : Spells line c t → Spells line (.back c) (.back t)

theorem Spells.backs {line : Text} {c : Cmd Span} {t : Cmd Text} (spells : Spells line c t)
    (amps : Nat) : Spells line (Cmd.back^[amps] c) (Cmd.back^[amps] t) := by
  induction amps generalizing c t with
  | zero => exact spells
  | succ amps ih => exact ih (.back spells)

theorem Spells.redirected {line : Text} {rs : List (Redir Span)} {ts : List (Redir Text)}
    (each : List.Forall₂ (SpellsRedir line) rs ts) {c : Cmd Span} {t : Cmd Text}
    (spells : Spells line c t) : Spells line (redirected c rs) (redirected t ts) := by
  induction each generalizing c t with
  | nil => exact spells
  | cons first _ ih =>
    refine ih ?_
    simp only [first.mode, first.fd]
    exact .redir _ _ spells first.file

/-! ### The loops -/

variable {ts rest : List Tok} {s : Nat} {acc : List (Redir Span)}

theorem Op.of_leads {m : Mark} (found : leads ['<', '>'] (.mark m :: ts) = true) :
    ∃ op : Op, m = op.mark := by
  revert found
  cases m with
  | lt => exact fun _ => ⟨.lt, rfl⟩
  | gt => exact fun _ => ⟨.gt, rfl⟩
  | gtgt => exact fun _ => ⟨.gtgt, rfl⟩
  | _ => exact fun found => absurd found (by rw [leads]; decide)

theorem Op.leads (op : Op) (ts : List Tok) : leads ['<', '>'] (.mark op.mark :: ts) = true := by
  cases op <;> rfl

theorem redircmd_op {line : Text} {span : Span} {w : Text} (placed : Placed line span w) (op : Op) :
    ∃ r, redircmd op.mark.ret span = [r] ∧ SpellsRedir line r (Redirection.node ⟨op, w⟩) := by
  cases op <;> exact ⟨_, rfl, ⟨placed, rfl, rfl⟩⟩

theorem length_le_tokens (redirs : List Redirection) :
    redirs.length ≤ (redirs.flatMap Redirection.tokens).length := by
  simp [List.length_flatMap, Redirection.tokens]
  omega

/-- The tokens end here, or go on with one of the symbols. -/
def Ends (toks : List Char) (rest : List Tok) : Prop := rest = [] ∨ leads toks rest = true

theorem Ends.no_lead {toks others : List Char} (ends : Ends toks rest)
    (apart : (toks.all fun c => !others.contains c) = true) : leads others rest = false := by
  rcases ends with rfl | found
  · rfl
  · match rest with
    | .mark m :: _ =>
      have := List.all_eq_true.mp apart m.lead (List.contains_iff_mem.mp found)
      rwa [Bool.not_eq_true'] at this

section Loops
variable {line : Text} (clean : 0 ∉ line)
include clean

theorem parseredirs_stop (depth : Nat) (acc : List (Redir Span)) (here : At line s ts)
    (none : leads ['<', '>'] ts = false) :
    ∃ s', At line s' ts ∧ parseredirs line (depth + 1) acc s = .ok (acc, s') := by
  obtain ⟨s', peeked, there⟩ := peek_spec clean ['<', '>'] (by decide) here
  refine ⟨s', there, ?_⟩
  rw [parseredirs, peeked, none]
  rfl

theorem parseredirs_take (depth : Nat) (acc : List (Redir Span)) (r : Redirection)
    (here : At line s (r.tokens ++ ts)) :
    ∃ span s', At line s' ts ∧ SpellsRedir line span r.node ∧
      parseredirs line (depth + 1) acc s = parseredirs line depth (acc ++ [span]) s' := by
  obtain ⟨s', peeked, there⟩ := peek_spec clean ['<', '>'] (by decide) here
  obtain ⟨ret, after⟩ := gettoken_mark clean there
  obtain ⟨file, last, placed⟩ := gettoken_word clean after
  obtain ⟨span, one, spells⟩ := redircmd_op placed r.op
  refine ⟨span, _, last, spells, ?_⟩
  rw [parseredirs, peeked, Redirection.tokens, List.cons_append, Op.leads]
  simp only [if_true, ret, file, ne_eq, not_true_eq_false, if_false, one]

theorem parseredirs_panic (depth : Nat) (acc : List (Redir Span)) {op : Op}
    (here : At line s (.mark op.mark :: ts)) (none : ∀ w us, ts ≠ .word w :: us) :
    parseredirs line (depth + 1) acc s = .error (.panic .missingFile) := by
  obtain ⟨s', peeked, there⟩ := peek_spec clean ['<', '>'] (by decide) here
  obtain ⟨-, after⟩ := gettoken_mark clean there
  have missing : (gettoken line (gettoken line s').next).ret ≠ word := by
    match ts with
    | [] => rw [(gettoken_end clean after).1]; decide
    | .mark m :: _ => rw [(gettoken_mark clean after).1]; exact m.ret_ne_word
    | .word w :: us => exact absurd rfl (none w us)
  rw [parseredirs, peeked, Op.leads]
  simp only [if_true, ne_eq, missing, not_false_eq_true]

/-- What `parseredirs` has passed when it returns. -/
theorem parseredirs_sound (depth : Nat) (here : At line s ts) (deep : ts.length < depth) :
    (∃ p, parseredirs line depth acc s = .error (.panic p)) ∨
    ∃ (redirs : List Redirection) (rest : List Tok) (spans : List (Redir Span)) (s' : Nat),
      ts = redirs.flatMap Redirection.tokens ++ rest ∧ At line s' rest ∧
      List.Forall₂ (SpellsRedir line) spans (redirs.map Redirection.node) ∧
      parseredirs line depth acc s = .ok (acc ++ spans, s') := by
  induction depth generalizing acc s ts with
  | zero => omega
  | succ depth ih =>
    cases found : leads ['<', '>'] ts with
    | false =>
      obtain ⟨s', there, run⟩ := parseredirs_stop clean depth acc here found
      exact .inr ⟨[], ts, [], s', rfl, there, .nil, by rw [run, List.append_nil]⟩
    | true =>
      match ts with
      | [] => cases found
      | .word w :: rest => cases found
      | .mark m :: rest =>
        obtain ⟨op, rfl⟩ := Op.of_leads found
        by_cases file : ∃ w us, rest = .word w :: us
        · obtain ⟨w, us, rfl⟩ := file
          obtain ⟨span, s', there, spells, run⟩ :=
            parseredirs_take clean depth acc ⟨op, w⟩ here
          rw [run]
          simp only [List.length_cons] at deep
          rcases ih there (by omega) with
            stopped | ⟨redirs, rest, spans, s', rfl, there, each, run⟩
          · exact .inl stopped
          · refine .inr ⟨⟨op, w⟩ :: redirs, rest, span :: spans, s', ?_, there, .cons spells each, ?_⟩
            · rw [List.flatMap_cons, List.append_assoc]
              rfl
            · rw [run, List.append_assoc, List.singleton_append]
        · refine .inl ⟨_, parseredirs_panic clean depth acc here ?_⟩
          rintro w us rfl
          exact file ⟨w, us, rfl⟩

/-- It passes the redirections that are there. -/
theorem parseredirs_complete (redirs : List Redirection) {depth : Nat}
    (here : At line s (redirs.flatMap Redirection.tokens ++ rest))
    (follow : leads ['<', '>'] rest = false) (deep : redirs.length < depth) :
    ∃ spans s', At line s' rest ∧
      List.Forall₂ (SpellsRedir line) spans (redirs.map Redirection.node) ∧
      parseredirs line depth acc s = .ok (acc ++ spans, s') := by
  induction redirs generalizing depth acc s with
  | nil =>
    obtain ⟨depth, rfl⟩ := Nat.exists_eq_succ_of_ne_zero (Nat.ne_of_gt deep)
    obtain ⟨s', there, run⟩ := parseredirs_stop clean depth acc here follow
    exact ⟨[], s', there, .nil, by rw [run, List.append_nil]⟩
  | cons r redirs ih =>
    obtain ⟨depth, rfl⟩ := Nat.exists_eq_succ_of_ne_zero (Nat.ne_of_gt (Nat.zero_lt_of_lt deep))
    rw [List.flatMap_cons, List.append_assoc] at here
    obtain ⟨span, s', there, spells, run⟩ := parseredirs_take clean depth acc r here
    obtain ⟨spans, s', there, each, more⟩ :=
      ih there (Nat.lt_of_succ_lt_succ deep)
    refine ⟨span :: spans, s', there, .cons spells each, ?_⟩
    rw [run, more, List.append_assoc, List.singleton_append]

/-- `parseback` passes every `&`. -/
theorem parseback_complete (amps : Nat) (cmd : Cmd Span) {depth : Nat}
    (here : At line s (List.replicate amps (.mark .amp) ++ rest))
    (follow : leads ['&'] rest = false) (deep : amps < depth) :
    ∃ s', At line s' rest ∧ parseback line depth cmd s = .ok (Cmd.back^[amps] cmd, s') := by
  induction amps generalizing depth cmd s with
  | zero =>
    obtain ⟨depth, rfl⟩ := Nat.exists_eq_succ_of_ne_zero (Nat.ne_of_gt deep)
    obtain ⟨s', peeked, there⟩ := peek_spec clean ['&'] (by decide) here
    refine ⟨s', there, ?_⟩
    rw [parseback, peeked, List.replicate_zero, List.nil_append, follow]
    rfl
  | succ amps ih =>
    obtain ⟨depth, rfl⟩ := Nat.exists_eq_succ_of_ne_zero (Nat.ne_of_gt (Nat.zero_lt_of_lt deep))
    obtain ⟨s', peeked, there⟩ := peek_spec clean ['&'] (by decide) here
    obtain ⟨-, after⟩ := gettoken_mark clean there
    obtain ⟨s', there, run⟩ := ih (.back cmd) after (Nat.lt_of_succ_lt_succ deep)
    refine ⟨s', there, ?_⟩
    rw [parseback, peeked]
    exact run

theorem parseargs_stop (depth : Nat) (argv : List Span) (redirs : List (Redir Span))
    (here : At line s ts) (ended : Ends ['|', ')', '&', ';'] ts) :
    ∃ s', At line s' ts ∧
      parseargs line (depth + 1) argv redirs s = .ok (redirected (.exec argv) redirs, s') := by
  obtain ⟨s', peeked, there⟩ := peek_spec clean ['|', ')', '&', ';'] (by decide) here
  rw [parseargs, peeked]
  rcases ended with rfl | ended
  · obtain ⟨zero, after⟩ := gettoken_end clean there
    refine ⟨_, after, ?_⟩
    simp only [leads, Bool.false_eq_true, if_false, zero, if_true]
  · exact ⟨s', there, by simp only [ended, if_true]⟩

theorem parseargs_word (depth : Nat) (argv : List Span) (redirs : List (Redir Span)) {w : Text}
    (here : At line s (.word w :: ts)) :
    ∃ span s', At line s' ts ∧ Placed line span w ∧
      parseargs line (depth + 1) argv redirs s =
        if argv.length + 1 ≥ maxargs then .error (.panic .tooManyArgs)
        else parseredirs line depth redirs s' >>= fun (redirs, s) =>
          parseargs line depth (argv ++ [span]) redirs s := by
  obtain ⟨s', peeked, there⟩ := peek_spec clean ['|', ')', '&', ';'] (by decide) here
  obtain ⟨ret, after, placed⟩ := gettoken_word clean there
  refine ⟨_, _, after, placed, ?_⟩
  rw [parseargs, peeked]
  have some : word ≠ 0 := by decide
  simp only [leads, Bool.false_eq_true, if_false, ret, some, ne_eq, not_true_eq_false]

theorem parseargs_panic (depth : Nat) (argv : List Span) (redirs : List (Redir Span)) {m : Mark}
    (here : At line s (.mark m :: ts)) (none : leads ['|', ')', '&', ';'] (.mark m :: ts) = false) :
    parseargs line (depth + 1) argv redirs s = .error (.panic .syntaxError) := by
  obtain ⟨s', peeked, there⟩ := peek_spec clean ['|', ')', '&', ';'] (by decide) here
  obtain ⟨ret, -⟩ := gettoken_mark clean there
  rw [parseargs, peeked, none]
  simp only [Bool.false_eq_true, if_false, ret, m.ret_ne_zero, ne_eq, m.ret_ne_word,
    not_false_eq_true, if_true]

omit clean in
theorem Ends.no_redir (ends : Ends ['|', ')', '&', ';'] rest)
    (args : List Argument) : leads ['<', '>'] (args.flatMap Argument.tokens ++ rest) = false := by
  match args with
  | _ :: _ => rfl
  | [] => exact ends.no_lead (by decide)

/-- The loop of `parseexec` passes the arguments that are there. -/
theorem parseargs_complete (args : List Argument) {depth : Nat} {argv : List Span}
    (here : At line s (args.flatMap Argument.tokens ++ rest))
    (ends : Ends ['|', ')', '&', ';'] rest) (few : argv.length + args.length ≤ maxargs - 1)
    (deep : (args.flatMap Argument.tokens).length < depth) :
    ∃ spans redirs s', At line s' rest ∧
      List.Forall₂ (Placed line) spans (args.map Argument.word) ∧
      List.Forall₂ (SpellsRedir line) redirs
        ((args.flatMap Argument.redirs).map Redirection.node) ∧
      parseargs line depth argv acc s =
        .ok (redirected (.exec (argv ++ spans)) (acc ++ redirs), s') := by
  induction args generalizing depth argv acc s with
  | nil =>
    obtain ⟨depth, rfl⟩ := Nat.exists_eq_succ_of_ne_zero (Nat.ne_of_gt deep)
    obtain ⟨s', there, run⟩ := parseargs_stop clean depth argv acc here ends
    exact ⟨[], [], s', there, .nil, .nil, by rw [run, List.append_nil, List.append_nil]⟩
  | cons arg args ih =>
    obtain ⟨depth, rfl⟩ := Nat.exists_eq_succ_of_ne_zero (Nat.ne_of_gt (Nat.zero_lt_of_lt deep))
    rw [List.flatMap_cons, List.append_assoc, Argument.tokens, List.cons_append] at here
    obtain ⟨span, s', there, placed, run⟩ := parseargs_word clean depth argv acc here
    simp only [List.flatMap_cons, Argument.tokens, List.length_append, List.length_cons] at deep few
    have some := length_le_tokens arg.redirs
    obtain ⟨first, s', there, each, redirs⟩ :=
      parseredirs_complete clean arg.redirs there (ends.no_redir args)
        (show arg.redirs.length < depth by omega)
    obtain ⟨spans, second, s', there, words, others, more⟩ :=
      ih there (show (argv ++ [span]).length + args.length ≤ maxargs - 1 by simp; omega)
        (show (args.flatMap Argument.tokens).length < depth by omega)
    refine ⟨span :: spans, first ++ second, s', there, .cons placed words, ?_, ?_⟩
    · rw [List.flatMap_cons, List.map_append]
      exact List.rel_append each others
    · rw [run, if_neg (by omega), redirs]
      refine more.trans ?_
      simp only [List.append_assoc, List.singleton_append]

/-- What it has passed when it returns. -/
theorem parseargs_sound (depth : Nat) {argv : List Span} (here : At line s ts)
    (few : argv.length ≤ maxargs - 1) (deep : ts.length < depth) :
    (∃ p, parseargs line depth argv acc s = .error (.panic p)) ∨
    ∃ (args : List Argument) (rest : List Tok) (spans : List Span) (redirs : List (Redir Span))
        (s' : Nat),
      ts = args.flatMap Argument.tokens ++ rest ∧ At line s' rest ∧
      argv.length + args.length ≤ maxargs - 1 ∧
      List.Forall₂ (Placed line) spans (args.map Argument.word) ∧
      List.Forall₂ (SpellsRedir line) redirs
        ((args.flatMap Argument.redirs).map Redirection.node) ∧
      parseargs line depth argv acc s =
        .ok (redirected (.exec (argv ++ spans)) (acc ++ redirs), s') := by
  induction depth generalizing argv acc s ts with
  | zero => omega
  | succ depth ih =>
    have stop (ends : Ends ['|', ')', '&', ';'] ts) := parseargs_stop clean depth argv acc here ends
    match ts with
    | [] =>
      obtain ⟨s', there, run⟩ := stop (.inl rfl)
      exact .inr ⟨[], [], [], [], s', rfl, there, few, .nil, .nil,
        by rw [run, List.append_nil, List.append_nil]⟩
    | .mark m :: rest =>
      cases found : leads ['|', ')', '&', ';'] (.mark m :: rest) with
      | true =>
        obtain ⟨s', there, run⟩ := stop (.inr found)
        exact .inr ⟨[], _, [], [], s', rfl, there, few, .nil, .nil,
          by rw [run, List.append_nil, List.append_nil]⟩
      | false => exact .inl ⟨_, parseargs_panic clean depth argv acc here found⟩
    | .word w :: rest =>
      obtain ⟨span, s', there, placed, run⟩ := parseargs_word clean depth argv acc here
      rw [run]
      rw [List.length_cons] at deep
      split
      · exact .inl ⟨_, rfl⟩
      rcases parseredirs_sound clean depth there (by omega) with
        ⟨p, stopped⟩ | ⟨first, rest, firsts, s', rfl, there, each, redirs⟩
      · exact .inl ⟨p, by rw [stopped]; rfl⟩
      rw [List.length_append] at deep
      rcases ih there (show (argv ++ [span]).length ≤ maxargs - 1 by simp; omega) (by omega) with
        ⟨p, stopped⟩ | ⟨args, rest, spans, seconds, s', rfl, there, few, words, others, more⟩
      · exact .inl ⟨p, by rw [redirs]; exact stopped⟩
      refine .inr ⟨⟨w, first⟩ :: args, rest, span :: spans, firsts ++ seconds, s', ?_, there, ?_,
        .cons placed words, ?_, ?_⟩
      · simp [Argument.tokens]
      · simp only [List.length_append, List.length_cons] at few ⊢
        omega
      · rw [List.flatMap_cons, List.map_append]
        exact List.rel_append each others
      · rw [redirs]
        refine more.trans ?_
        simp only [List.append_assoc, List.singleton_append]

end Loops

end ColorXv6.User.ShellGrammar
