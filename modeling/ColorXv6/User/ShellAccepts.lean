import ColorXv6.User.ShellGrammar

/-!
The parser returns a tree exactly for the lines of the grammar, and the strings in
the tree are the words of the line.
-/
namespace ColorXv6.User.ShellAccepts
open Shell ShellTokens ShellGrammar

def parse (line : Text) : Phrase → Nat → Nat → Except Stop (Cmd Span × Nat)
  | .line => parseline line
  | .pipe => parsepipe line
  | .exec => parseexec line

/-- What the levels above a phrase look for after it. -/
def following : Phrase → List Char
  | .line => [')']
  | .pipe => [')', '&', ';']
  | .exec => ['|', ')', '&', ';']

/-- How deep the calls go for `k` tokens. -/
def levels (k : Nat) : Phrase → Nat
  | .line => 4 * k + 4
  | .pipe => 4 * k + 3
  | .exec => 4 * k + 2

variable {c cmd : Cmd Span} {ts rest us : List Tok} {depth s s₁ : Nat} {t : Cmd Text} {line : Text}

theorem leads_single (m : Mark) {c : Char} (found : leads [c] ts = true)
    (only : ∀ n : Mark, n.lead = c → n = m) : ∃ us, ts = .mark m :: us := by
  match ts with
  | .mark n :: us =>
    have lead : n.lead = c := by simpa [leads] using found
    exact ⟨us, by rw [only n lead]⟩

theorem split_amps (ts : List Tok) :
    ∃ amps rest, ts = List.replicate amps (.mark .amp) ++ rest ∧ leads ['&'] rest = false := by
  induction ts with
  | nil => exact ⟨0, [], rfl, rfl⟩
  | cons tok ts ih =>
    cases found : leads ['&'] (tok :: ts) with
    | false => exact ⟨0, _, rfl, found⟩
    | true =>
      obtain ⟨us, same⟩ := leads_single .amp found (by intro n; cases n <;> decide)
      obtain ⟨rfl, rfl⟩ := List.cons.inj same
      obtain ⟨amps, rest, rfl, none⟩ := ih
      exact ⟨amps + 1, rest, rfl, none⟩

theorem Ends.widen {toks others : List Char} (ends : Ends toks rest)
    (more : toks.all others.contains = true) : Ends others rest := by
  refine ends.imp_right fun found => ?_
  match rest with
  | .mark m :: _ => exact List.all_eq_true.mp more m.lead (List.contains_iff_mem.mp found)

theorem Ends.no_paren (ends : Ends (following .exec) rest) (redirs : List Redirection)
    (args : List Argument) :
    leads ['('] (redirs.flatMap Redirection.tokens ++ (args.flatMap Argument.tokens ++ rest)) =
      false := by
  match redirs, args with
  | r :: _, _ =>
    obtain ⟨op, file⟩ := r
    cases op <;> rfl
  | [], _ :: _ => rfl
  | [], [] => exact ends.no_lead (by decide)

theorem Ends.amps (ends : Ends (following .line) rest) (amps : Nat) :
    Ends (following .pipe) (List.replicate amps (.mark .amp) ++ rest) := by
  cases amps with
  | zero => exact Ends.widen ends (by decide)
  | succ amps => exact .inr rfl

section Parse
variable {line : Text} (clean : 0 ∉ line)
include clean

/-! ### One level -/

theorem parseline_last {amps : Nat} (first : parsepipe line depth s = .ok (c, s₁))
    (here : At line s₁ (List.replicate amps (.mark .amp) ++ rest))
    (noAmp : leads ['&'] rest = false) (noSemi : leads [';'] rest = false) (deep : amps < depth) :
    ∃ s', At line s' rest ∧ parseline line (depth + 1) s = .ok (Cmd.back^[amps] c, s') := by
  obtain ⟨s₂, there, backs⟩ := parseback_complete clean amps c here noAmp deep
  obtain ⟨s', peeked, there⟩ := peek_spec clean [';'] (by decide) there
  refine ⟨s', there, ?_⟩
  rw [parseline, first]
  simp only [bind, Except.bind, backs, peeked, noSemi, Bool.false_eq_true, if_false]

theorem parseline_list {amps : Nat} (first : parsepipe line depth s = .ok (c, s₁))
    (here : At line s₁ (List.replicate amps (.mark .amp) ++ .mark .semi :: us))
    (deep : amps < depth) :
    ∃ s', At line s' us ∧ parseline line (depth + 1) s =
      (parseline line depth s').bind fun (d, s) => .ok (.list (Cmd.back^[amps] c) d, s) := by
  obtain ⟨s₂, there, backs⟩ := parseback_complete clean amps c here rfl deep
  obtain ⟨s₃, peeked, there⟩ := peek_spec clean [';'] (by decide) there
  refine ⟨_, (gettoken_mark clean there).2, ?_⟩
  rw [parseline, first]
  simp only [bind, Except.bind, backs, peeked, leads, Mark.lead]
  rfl

theorem parsepipe_last (first : parseexec line depth s = .ok (c, s₁)) (here : At line s₁ rest)
    (noBar : leads ['|'] rest = false) :
    ∃ s', At line s' rest ∧ parsepipe line (depth + 1) s = .ok (c, s') := by
  obtain ⟨s', peeked, there⟩ := peek_spec clean ['|'] (by decide) here
  refine ⟨s', there, ?_⟩
  rw [parsepipe, first]
  simp only [bind, Except.bind, peeked, noBar, Bool.false_eq_true, if_false]

theorem parsepipe_more (first : parseexec line depth s = .ok (c, s₁))
    (here : At line s₁ (.mark .bar :: us)) :
    ∃ s', At line s' us ∧ parsepipe line (depth + 1) s =
      (parsepipe line depth s').bind fun (d, s) => .ok (.pipe c d, s) := by
  obtain ⟨s₂, peeked, there⟩ := peek_spec clean ['|'] (by decide) here
  refine ⟨_, (gettoken_mark clean there).2, ?_⟩
  rw [parsepipe, first]
  simp only [bind, Except.bind, peeked, leads, Mark.lead]
  rfl

/-- What `parseblock` does with what `parseline` returns. -/
def closeBlock (line : Text) (depth : Nat) (cmd : Cmd Span) (s : Nat) :
    Except Stop (Cmd Span × Nat) :=
  let (closed, s) := peek line [')'] s
  if !closed then .error (.panic .missingParen)
  else (parseredirs line depth [] (gettoken line s).next).bind fun (redirs, s) =>
    .ok (redirected cmd redirs, s)

theorem parseexec_block (here : At line s (.mark .lpar :: us)) :
    ∃ s', At line s' us ∧ parseexec line (depth + 2) s =
      (parseline line depth s').bind fun (cmd, s) => closeBlock line depth cmd s := by
  have opened : leads ['('] (.mark .lpar :: us) = true := rfl
  obtain ⟨s₁, peeked, there⟩ := peek_spec clean ['('] (by decide) here
  obtain ⟨s₂, again, there⟩ := peek_spec clean ['('] (by decide) there
  refine ⟨_, (gettoken_mark clean there).2, ?_⟩
  rw [parseexec, peeked, opened]
  dsimp only
  rw [if_pos rfl, parseblock, again, opened]
  rfl

theorem closeBlock_closed (here : At line s (.mark .rpar :: us)) :
    ∃ s', At line s' us ∧ closeBlock line depth cmd s =
      (parseredirs line depth [] s').bind fun (redirs, s) => .ok (redirected cmd redirs, s) := by
  have closed : leads [')'] (.mark .rpar :: us) = true := rfl
  obtain ⟨s₁, peeked, there⟩ := peek_spec clean [')'] (by decide) here
  refine ⟨_, (gettoken_mark clean there).2, ?_⟩
  rw [closeBlock, peeked, closed]
  rfl

theorem closeBlock_open (here : At line s ts) (noParen : leads [')'] ts = false) :
    closeBlock line depth cmd s = .error (.panic .missingParen) := by
  obtain ⟨s₁, peeked, -⟩ := peek_spec clean [')'] (by decide) here
  rw [closeBlock, peeked, noParen]
  rfl

theorem parseexec_simple (here : At line s ts) (noParen : leads ['('] ts = false) :
    ∃ s', At line s' ts ∧ parseexec line (depth + 1) s =
      (parseredirs line depth [] s').bind fun (redirs, s) => parseargs line depth [] redirs s := by
  obtain ⟨s', peeked, there⟩ := peek_spec clean ['('] (by decide) here
  refine ⟨s', there, ?_⟩
  rw [parseexec, peeked, noParen]
  rfl

/-! ### All levels -/

/-- Every phrase of the grammar is parsed, whatever follows that may follow it. -/
theorem parse_complete {p : Phrase} (derives : Derives p ts t) :
    ∀ (depth s : Nat) (rest : List Tok), At line s (ts ++ rest) → Ends (following p) rest →
      levels (ts ++ rest).length p ≤ depth →
      ∃ c s', At line s' rest ∧ Spells line c t ∧ parse line p depth s = .ok (c, s') := by
  induction derives with
  | line amps first ih =>
    intro depth s rest here ends deep
    rw [List.append_assoc] at here
    simp only [levels, List.length_append, List.length_replicate] at deep ih
    obtain ⟨depth, rfl⟩ := Nat.exists_eq_add_of_le' (show 1 ≤ depth by omega)
    obtain ⟨c, s₁, there, spells, run⟩ :=
      ih depth s _ here (Ends.amps ends amps) (by simp; omega)
    obtain ⟨s', there, line⟩ := parseline_last clean run there (ends.no_lead (by decide))
      (ends.no_lead (by decide)) (by omega)
    exact ⟨_, s', there, spells.backs amps, line⟩
  | @list ts us c d amps first second ih₁ ih₂ =>
    intro depth s rest here ends deep
    rw [List.append_assoc, List.append_assoc, List.cons_append] at here
    simp only [levels, List.length_append, List.length_replicate, List.length_cons] at deep ih₁ ih₂
    obtain ⟨depth, rfl⟩ := Nat.exists_eq_add_of_le' (show 1 ≤ depth by omega)
    have follows : Ends (following .pipe)
        (List.replicate amps (.mark .amp) ++ .mark .semi :: (us ++ rest)) := by
      cases amps <;> exact .inr rfl
    obtain ⟨c, s₁, there, spells₁, run⟩ := ih₁ depth s _ here follows (by
      simp only [List.length_append, List.length_replicate, List.length_cons]; omega)
    obtain ⟨s₂, there, level⟩ := parseline_list clean run there (by omega)
    obtain ⟨d, s', there, spells₂, run⟩ := ih₂ depth s₂ rest there ends (by omega)
    refine ⟨_, s', there, .list (spells₁.backs amps) spells₂, level.trans ?_⟩
    rw [show parseline line depth s₂ = _ from run]
    rfl
  | single first ih =>
    intro depth s rest here ends deep
    simp only [levels] at deep ih
    obtain ⟨depth, rfl⟩ := Nat.exists_eq_add_of_le' (show 1 ≤ depth by omega)
    obtain ⟨c, s₁, there, spells, run⟩ :=
      ih depth s rest here (Ends.widen ends (by decide)) (by omega)
    obtain ⟨s', there, level⟩ := parsepipe_last clean run there (ends.no_lead (by decide))
    exact ⟨c, s', there, spells, level⟩
  | pipe first second ih₁ ih₂ =>
    intro depth s rest here ends deep
    rw [List.append_assoc, List.cons_append] at here
    simp only [levels, List.length_append, List.length_cons] at deep ih₁ ih₂
    obtain ⟨depth, rfl⟩ := Nat.exists_eq_add_of_le' (show 1 ≤ depth by omega)
    obtain ⟨c, s₁, there, spells₁, run⟩ := ih₁ depth s _ here (.inr rfl) (by
      simp only [List.length_append, List.length_cons]; omega)
    obtain ⟨s₂, there, level⟩ := parsepipe_more clean run there
    obtain ⟨d, s', there, spells₂, run⟩ := ih₂ depth s₂ rest there ends (by omega)
    refine ⟨_, s', there, .pipe spells₁ spells₂, level.trans ?_⟩
    rw [show parsepipe line depth s₂ = _ from run]
    rfl
  | block redirs inner ih =>
    intro depth s rest here ends deep
    simp only [List.cons_append, List.append_assoc] at here
    simp only [levels, List.length_append, List.length_cons] at deep ih
    obtain ⟨depth, rfl⟩ := Nat.exists_eq_add_of_le' (show 2 ≤ depth by omega)
    obtain ⟨s₁, there, block⟩ := parseexec_block clean here
    obtain ⟨c, s₂, there, spells, run⟩ := ih depth s₁ _ there (.inr rfl) (by
      simp only [List.length_append, List.length_cons]; omega)
    obtain ⟨s₃, there, closed⟩ := closeBlock_closed clean there
    have some := length_le_tokens redirs
    obtain ⟨spans, s', there, each, redirects⟩ := parseredirs_complete clean redirs there
      (ends.no_lead (by decide)) (show redirs.length < depth by omega)
    refine ⟨_, s', there, spells.redirected each, block.trans ?_⟩
    rw [show parseline line depth s₁ = _ from run]
    refine closed.trans ?_
    rw [redirects]
    rfl
  | simple redirs args few =>
    intro depth s rest here ends deep
    rw [List.append_assoc] at here
    simp only [levels, List.length_append] at deep
    obtain ⟨depth, rfl⟩ := Nat.exists_eq_add_of_le' (show 1 ≤ depth by omega)
    obtain ⟨s₁, there, exec⟩ := parseexec_simple clean here (Ends.no_paren ends redirs args)
    have some := length_le_tokens redirs
    obtain ⟨first, s₂, there, each, redirects⟩ := parseredirs_complete clean redirs there
      (Ends.no_redir ends args) (show redirs.length < depth by omega)
    obtain ⟨spans, second, s', there, words, others, run⟩ :=
      parseargs_complete clean args there ends (show ([] : List Span).length + _ ≤ _ by simpa using few)
        (show _ < depth by omega)
    refine ⟨redirected (.exec spans) (first ++ second), s', there, .redirected ?_ (.exec words),
      exec.trans ?_⟩
    · rw [List.map_append]
      exact List.rel_append each others
    · rw [redirects]
      exact run

/-- What has been parsed when a function returns `.ok` or stops. -/
def Sound (line : Text) (p : Phrase) (ts : List Tok) (run : Except Stop (Cmd Span × Nat)) : Prop :=
  (∃ e, run = .error (.panic e)) ∨
  ∃ used rest c s' t, ts = used ++ rest ∧ At line s' rest ∧ Derives p used t ∧ Spells line c t ∧
    run = .ok (c, s')

theorem parseexec_sound
    (inner : ∀ m < depth, ∀ {s : Nat} {us : List Tok}, At line s us →
      levels us.length .line ≤ m → Sound line .line us (parseline line m s))
    (here : At line s ts) (deep : levels ts.length .exec ≤ depth) :
    Sound line .exec ts (parseexec line depth s) := by
  simp only [levels] at deep inner
  obtain ⟨depth, rfl⟩ := Nat.exists_eq_add_of_le' (show 2 ≤ depth by omega)
  cases found : leads ['('] ts with
  | true =>
    obtain ⟨us, rfl⟩ := leads_single .lpar found (by intro n; cases n <;> decide)
    obtain ⟨s₁, there, block⟩ := parseexec_block clean here
    rw [block]
    rw [List.length_cons] at deep
    rcases inner depth (by omega) there (by omega) with
      ⟨e, stopped⟩ | ⟨used, rest, c, s₂, t, rfl, there, derives, spells, run⟩
    · exact .inl ⟨e, by rw [stopped]; rfl⟩
    rw [run]
    change Sound line _ _ (closeBlock line depth c s₂)
    cases found : leads [')'] rest with
    | false => exact .inl ⟨_, closeBlock_open clean there found⟩
    | true =>
      obtain ⟨us, rfl⟩ := leads_single .rpar found (by intro n; cases n <;> decide)
      obtain ⟨s₃, there, closed⟩ := closeBlock_closed clean there
      rw [closed]
      simp only [List.length_append, List.length_cons] at deep
      rcases parseredirs_sound clean depth there (by omega) with
        ⟨e, stopped⟩ | ⟨redirs, rest, spans, s', rfl, there, each, run⟩
      · exact .inl ⟨e, by rw [stopped]; rfl⟩
      refine .inr ⟨_, rest, _, s', _, ?_, there, .block redirs derives, spells.redirected each, ?_⟩
      · simp
      · rw [run]
        rfl
  | false =>
    obtain ⟨s₁, there, simple⟩ := parseexec_simple clean here found
    rw [simple]
    rcases parseredirs_sound clean (depth + 1) there (by omega) with
      ⟨e, stopped⟩ | ⟨redirs, rest, first, s₂, rfl, there, each, run⟩
    · exact .inl ⟨e, by rw [stopped]; rfl⟩
    rw [run]
    rw [List.length_append] at deep
    rcases parseargs_sound clean (depth + 1) there
        (show ([] : List Span).length ≤ maxargs - 1 by decide) (by omega) with
      ⟨e, stopped⟩ | ⟨args, rest, spans, second, s', rfl, there, few, words, others, more⟩
    · exact .inl ⟨e, stopped⟩
    refine .inr ⟨_, rest, _, s', _, ?_, there, .simple redirs args (by simpa using few),
      .redirected ?_ (.exec words), more⟩
    · rw [List.append_assoc]
    · rw [List.map_append]
      exact List.rel_append each others

theorem parsepipe_sound (first : Sound line .exec ts (parseexec line depth s))
    (second : ∀ {s : Nat} {us : List Tok}, At line s us → us.length < ts.length →
      Sound line .pipe us (parsepipe line depth s)) :
    Sound line .pipe ts (parsepipe line (depth + 1) s) := by
  rcases first with ⟨e, stopped⟩ | ⟨used, rest, c, s₁, t, rfl, there, derives, spells, run⟩
  · exact .inl ⟨e, by rw [parsepipe, stopped]; rfl⟩
  cases found : leads ['|'] rest with
  | false =>
    obtain ⟨s', there, level⟩ := parsepipe_last clean run there found
    exact .inr ⟨used, rest, c, s', t, rfl, there, .single derives, spells, level⟩
  | true =>
    obtain ⟨us, rfl⟩ := leads_single .bar found (by intro n; cases n <;> decide)
    obtain ⟨s₂, there, level⟩ := parsepipe_more clean run there
    rw [level]
    have shorter : us.length < (used ++ .mark .bar :: us).length := by
      simp only [List.length_append, List.length_cons]
      omega
    rcases second there shorter with
      ⟨e, stopped⟩ | ⟨used', rest, d, s', u, rfl, there, derives', spells', run⟩
    · exact .inl ⟨e, by rw [stopped]; rfl⟩
    refine .inr ⟨_, rest, .pipe c d, s', _, ?_, there, .pipe derives derives', .pipe spells spells', ?_⟩
    · rw [List.append_assoc, List.cons_append]
    · rw [run]
      rfl

theorem parseline_sound (deep : ts.length < depth)
    (first : Sound line .pipe ts (parsepipe line depth s))
    (second : ∀ {s : Nat} {us : List Tok}, At line s us → us.length < ts.length →
      Sound line .line us (parseline line depth s)) :
    Sound line .line ts (parseline line (depth + 1) s) := by
  rcases first with ⟨e, stopped⟩ | ⟨used, rest, c, s₁, t, rfl, there, derives, spells, run⟩
  · exact .inl ⟨e, by rw [parseline, stopped]; rfl⟩
  obtain ⟨amps, rest, rfl, noAmp⟩ := split_amps rest
  simp only [List.length_append, List.length_replicate] at deep
  cases found : leads [';'] rest with
  | false =>
    obtain ⟨s', there, level⟩ := parseline_last clean run there noAmp found (by omega)
    refine .inr ⟨_, rest, _, s', _, ?_, there, .line amps derives, spells.backs amps, level⟩
    rw [List.append_assoc]
  | true =>
    obtain ⟨us, rfl⟩ := leads_single .semi found (by intro n; cases n <;> decide)
    obtain ⟨s₂, there, level⟩ := parseline_list clean run there (by omega)
    rw [level]
    have shorter : us.length <
        (used ++ (List.replicate amps (Tok.mark .amp) ++ .mark .semi :: us)).length := by
      simp only [List.length_append, List.length_cons]
      omega
    rcases second there shorter with
      ⟨e, stopped⟩ | ⟨used', rest, d, s', u, rfl, there, derives', spells', run⟩
    · exact .inl ⟨e, by rw [stopped]; rfl⟩
    refine .inr ⟨_, rest, .list _ d, s', _, ?_, there, .list amps derives derives',
      .list (spells.backs amps) spells', ?_⟩
    · simp only [List.append_assoc, List.cons_append]
    · rw [run]
      rfl

/-- Every function returns or panics, and what it has passed when it returns is a phrase. -/
theorem parse_sound (depth : Nat) : ∀ (p : Phrase) {s : Nat} {ts : List Tok}, At line s ts →
    levels ts.length p ≤ depth → Sound line p ts (parse line p depth s) := by
  induction depth using Nat.strongRecOn with
  | ind depth ih =>
    intro p s ts here deep
    cases p with
    | exec => exact parseexec_sound clean (fun m less _ _ => ih m less .line) here deep
    | pipe =>
      simp only [levels] at deep
      obtain ⟨depth, rfl⟩ := Nat.exists_eq_add_of_le' (show 1 ≤ depth by omega)
      refine parsepipe_sound clean (ih depth (by omega) .exec here ?_) fun there shorter =>
        ih depth (by omega) .pipe there ?_
      all_goals simp only [levels]; omega
    | line =>
      simp only [levels] at deep
      obtain ⟨depth, rfl⟩ := Nat.exists_eq_add_of_le' (show 1 ≤ depth by omega)
      refine parseline_sound clean (by omega) (ih depth (by omega) .pipe here ?_)
        fun there shorter => ih depth (by omega) .line there ?_
      all_goals simp only [levels]; omega

end Parse

/-! ### The strings in the tree -/

/-- Where `nulterminate` writes. -/
def ends : Cmd Span → List Nat
  | .exec argv => argv.map Span.eq
  | .redir cmd file _ _ => ends cmd ++ [file.eq]
  | .pipe left right => ends left ++ ends right
  | .list left right => ends left ++ ends right
  | .back cmd => ends cmd

theorem nulterminate_ends (cmd : Cmd Span) (buf : Text) :
    nulterminate cmd buf = (ends cmd).foldl (fun buf e => buf.set e 0) buf := by
  induction cmd generalizing buf with
  | exec argv => rw [nulterminate, ends, List.foldl_map]
  | redir cmd file mode fd ih => rw [nulterminate, ends, List.foldl_append, ih]; rfl
  | pipe _ _ ih₁ ih₂ | list _ _ ih₁ ih₂ => rw [nulterminate, ends, List.foldl_append, ih₁, ih₂]
  | back cmd ih => rw [nulterminate, ends, ih]

theorem nulled (es : List Nat) (buf : Text) (i : Nat) :
    (es.foldl (fun buf e => buf.set e 0) buf)[i]? =
      if i ∈ es ∧ i < buf.length then some 0 else buf[i]? := by
  induction es generalizing buf with
  | nil => simp
  | cons e es ih =>
    rw [List.foldl_cons, ih, List.length_set, List.getElem?_set]
    simp only [List.mem_cons]
    split_ifs <;> simp_all

/-- Every end in the tree is just after a word. -/
theorem Spells.ends_after
    (spells : Spells line cmd t) : ∀ e ∈ ends cmd, ∀ c ∈ (line.drop e).head?, isWord c = false := by
  induction spells with
  | exec each =>
    induction each with
    | nil => exact fun e mem => absurd mem List.not_mem_nil
    | cons placed _ ih => exact List.forall_mem_cons.mpr ⟨placed.ended, ih⟩
  | redir mode fd _ placed ih =>
    exact List.forall_mem_append.mpr ⟨ih, List.forall_mem_singleton.mpr placed.ended⟩
  | pipe _ _ ih₁ ih₂ | list _ _ ih₁ ih₂ => exact List.forall_mem_append.mpr ⟨ih₁, ih₂⟩
  | back _ ih => exact ih

/-- With NULs written after words only, and after this one, it is read back. -/
theorem Placed.read (clean : 0 ∉ line) {span : Span} {w : Text} (placed : Placed line span w)
    {es : List Nat} (mem : span.eq ∈ es)
    (after : ∀ e ∈ es, ∀ c ∈ (line.drop e).head?, isWord c = false) :
    cString (es.foldl (fun buf e => buf.set e 0) (line ++ [0])) span.q = w := by
  obtain ⟨text, ordered, inside, letters, -⟩ := placed
  have byte := nulled es (line ++ [0])
  generalize es.foldl (fun buf e => buf.set e 0) (line ++ [0]) = buf at byte
  have front : (buf.drop span.q).take (span.eq - span.q) = w := by
    rw [← text]
    refine List.ext_getElem? fun i => ?_
    rw [List.getElem?_take, List.getElem?_take]
    split
    · rename_i short
      rw [List.getElem?_drop, List.getElem?_drop, byte, if_neg, List.getElem?_append_left (by omega)]
      rintro ⟨hit, -⟩
      obtain ⟨c, here⟩ : ∃ c, (line.drop (span.q + i)).head? = some c :=
        ⟨_, List.head?_drop.trans (List.getElem?_eq_getElem (by omega))⟩
      have letter : c ∈ w := by
        rw [← text]
        refine List.mem_of_getElem? (i := i) ?_
        rw [List.getElem?_take, if_pos short, List.getElem?_drop, ← List.head?_drop, here]
      exact absurd (letters c letter) (by rw [after _ hit c here]; decide)
    · rfl
  have back : (buf.drop span.eq).head? = some 0 := by
    rw [List.head?_drop, byte, if_pos ⟨mem, by simp; omega⟩]
  obtain ⟨rest, back⟩ := List.head?_eq_some_iff.mp back
  have nonzero : ∀ c ∈ w, (c != 0) = true := by
    intro c mem
    have : c ∈ line := List.mem_of_mem_drop (List.mem_of_mem_take (text ▸ mem))
    simpa using fun zero : c = 0 => clean (zero ▸ this)
  rw [cString, ← List.take_append_drop (span.eq - span.q) (buf.drop span.q), front, List.drop_drop,
    Nat.add_sub_cancel' ordered, back, List.takeWhile_append_of_pos nonzero]
  simp

/-- The tree with its strings read from the buffer. -/
def strings (buf : Text) : Cmd Span → Cmd Text
  | .exec argv => .exec (argv.map fun arg => cString buf arg.q)
  | .redir cmd file mode fd => .redir (strings buf cmd) (cString buf file.q) mode fd
  | .pipe left right => .pipe (strings buf left) (strings buf right)
  | .list left right => .list (strings buf left) (strings buf right)
  | .back cmd => .back (strings buf cmd)

theorem Spells.strings_of {buf : Text} (spells : Spells line cmd t)
    (reads : ∀ span w, Placed line span w → span.eq ∈ ends cmd → cString buf span.q = w) :
    strings buf cmd = t := by
  induction spells with
  | exec each =>
    rw [strings]
    congr 1
    induction each with
    | nil => rfl
    | cons placed _ ih =>
      rw [List.map_cons, reads _ _ placed List.mem_cons_self,
        ih fun span w placed mem => reads span w placed (List.mem_cons_of_mem _ mem)]
  | redir mode fd _ placed ih =>
    rw [strings, ih fun span w placed mem => reads span w placed (List.mem_append_left _ mem),
      reads _ _ placed (List.mem_append_right _ (List.mem_singleton.mpr rfl))]
  | pipe _ _ ih₁ ih₂ | list _ _ ih₁ ih₂ =>
    rw [strings, ih₁ fun span w placed mem => reads span w placed (List.mem_append_left _ mem),
      ih₂ fun span w placed mem => reads span w placed (List.mem_append_right _ mem)]
  | back _ ih => rw [strings, ih reads]

/-- After `nulterminate` the strings of the tree are the words. -/
theorem Spells.terminated (clean : 0 ∉ line)
    (spells : Spells line cmd t) : strings (nulterminate cmd (line ++ [0])) cmd = t := by
  refine Spells.strings_of spells fun span w placed mem => ?_
  rw [nulterminate_ends]
  exact Placed.read clean placed mem (Spells.ends_after spells)

theorem tokenize_length (line : Text) : (tokenize line).length ≤ line.length := by
  fun_induction tokenize line with
  | case1 => exact Nat.le_refl 0
  | case2 c rest space ih => exact Nat.le_succ_of_le ih
  | case3 rest _ _ ih =>
    simp only [List.length_cons, List.length_tail] at ih ⊢
    omega
  | case4 => simpa using ‹_›
  | case5 => simpa using ‹_›
  | case6 c rest _ _ _ ih =>
    have := (List.dropWhile_sublist isWord (l := rest)).length_le
    simp only [List.length_cons] at ih ⊢
    omega

/-- Every line without a NUL is parsed to the end of the call or rejected with a panic; a tree
is returned exactly when the tokens of the line derive it, with the strings read from the
buffer the parser leaves. -/
theorem parsecmd_accepts_grammar (line : Text) (clean : 0 ∉ line) :
    parsecmd line ≠ .error .deep ∧
    ∀ t, (∃ cmd buf, parsecmd line = .ok (cmd, buf) ∧ strings buf cmd = t) ↔
      Derives .line (tokenize line) t := by
  have here : At line 0 (tokenize line) := ⟨Nat.zero_le _, rfl⟩
  have deep : levels (tokenize line).length .line ≤ 4 * line.length + 4 := by
    have := tokenize_length line
    simp only [levels]
    omega
  have finish {c : Cmd Span} {s : Nat} {rest : List Tok} (there : At line s rest)
      (run : parseline line (4 * line.length + 4) 0 = .ok (c, s)) :
      parsecmd line = if rest = [] then .ok (c, nulterminate c (line ++ [0]))
        else .error (.panic .syntaxError) := by
    rw [parsecmd, run]
    simp only [bind, Except.bind, ne_eq, ite_not, peek_end clean there]
  have complete {t : Cmd Text} (derives : Derives .line (tokenize line) t) :
      ∃ c, Spells line c t ∧ parsecmd line = .ok (c, nulterminate c (line ++ [0])) := by
    obtain ⟨c, s, there, spells, run⟩ := parse_complete clean derives (4 * line.length + 4) 0 []
      (by rwa [List.append_nil]) (.inl rfl) (by rwa [List.append_nil])
    exact ⟨c, spells, by rw [finish there run, if_pos rfl]⟩
  rcases parse_sound clean _ .line here deep with
    ⟨e, stopped⟩ | ⟨used, rest, c, s, t, split, there, derives, spells, run⟩
  · have stopped : parsecmd line = .error (.panic e) := by
      rw [parsecmd, show parseline line _ 0 = _ from stopped]
      rfl
    refine ⟨by rw [stopped]; simp, fun t => ⟨?_, fun derives => ?_⟩⟩
    · rintro ⟨cmd, buf, run, -⟩
      rw [stopped] at run
      cases run
    · obtain ⟨c, -, run⟩ := complete derives
      rw [stopped] at run
      cases run
  · have result := finish there run
    refine ⟨by rw [result]; split_ifs <;> simp, fun u => ⟨?_, fun derives => ?_⟩⟩
    · rintro ⟨cmd, buf, run, rfl⟩
      rw [result] at run
      split_ifs at run with ended
      obtain ⟨rfl, rfl⟩ := Prod.mk.inj (Except.ok.inj run)
      rw [Spells.terminated clean spells, split, ended, List.append_nil]
      exact derives
    · obtain ⟨c, spells, run⟩ := complete derives
      exact ⟨c, _, run, Spells.terminated clean spells⟩

/-- `a|b>f` -/
theorem parsecmd_accepts_grammar_pipe :
    (0 : UInt8) ∉ [97, 124, 98, 62, 102] ∧
    Derives .line (tokenize [97, 124, 98, 62, 102])
      (.pipe (.exec [[97]]) (.redir (.exec [[98]]) [102] wronlyCreate 1)) :=
  ⟨by decide, ((parsecmd_accepts_grammar _ (by decide)).2 _).mp
    ⟨.pipe (.exec [⟨0, 1⟩]) (.redir (.exec [⟨2, 3⟩]) ⟨4, 5⟩ wronlyCreate 1),
      [97, 0, 98, 0, 102, 0], by decide +kernel, by decide⟩⟩

end ColorXv6.User.ShellAccepts
