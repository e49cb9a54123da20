import Mathlib.Data.List.Basic

/-!
The parser of user/sh.c. The line is the bytes before the NUL; a `char *` into it
is the number of bytes before the place it points to. `s` is the cursor `*ps`,
passed in and handed back. Commands are allocated without failing. A function that
calls itself or loops takes a bound on the depth, and stops with `deep` below it;
`parsecmd` gives one that is never met.
-/
namespace ColorXv6.User.Shell

/-- What `panic` prints before the shell's child exits. -/
inductive Panic where
  /-- `syntax` -/
  | syntaxError
  /-- `missing file for redirection` -/
  | missingFile
  /-- `parseblock` -/
  | parseblock
  /-- `syntax - missing )` -/
  | missingParen
  /-- `too many args` -/
  | tooManyArgs
deriving DecidableEq

inductive Stop where
  | panic (text : Panic)
  | deep
deriving DecidableEq

def whitespace : List UInt8 := [' ', '\t', '\r', '\n', '\x0b'].map Char.toUInt8
def symbols : List UInt8 := ['<', '|', '>', '&', ';', '(', ')'].map Char.toUInt8

def maxargs : Nat := 10

/-- `O_RDONLY` and `O_WRONLY|O_CREATE`. -/
def rdonly : Nat := 0x000
def wronlyCreate : Nat := 0x001 ||| 0x200

/-- The command nodes over a type of strings. `mode` and `fd` are those of `redircmd`. -/
inductive Cmd (ω : Type) where
  | exec (argv : List ω)
  | redir (cmd : Cmd ω) (file : ω) (mode fd : Nat)
  | pipe (left right : Cmd ω)
  | list (left right : Cmd ω)
  | back (cmd : Cmd ω)
deriving DecidableEq

/-- What the parser knows of a string: `q` and `eq`, its first byte and the one after it. -/
structure Span where
  q : Nat
  eq : Nat
deriving DecidableEq

/-- The arguments of `redircmd` after the command. -/
structure Redir (ω : Type) where
  file : ω
  mode : Nat
  fd : Nat
deriving DecidableEq

/-- Later redirections around earlier ones. -/
def redirected {ω : Type} (cmd : Cmd ω) (redirs : List (Redir ω)) : Cmd ω :=
  redirs.foldl (fun cmd r => .redir cmd r.file r.mode r.fd) cmd

/-- `*s`, the NUL at the end included. -/
def byteAt (line : List UInt8) (s : Nat) : UInt8 := line.getD s 0

/-- `while(s < es && test(*s)) s++`, with the distance to `es` in front. -/
def advance (line : List UInt8) (test : UInt8 → Bool) : Nat → Nat → Nat
  | 0, s => s
  | left + 1, s => if test (byteAt line s) then advance line test left (s + 1) else s

def isSpace (c : UInt8) : Bool := whitespace.contains c
def isWord (c : UInt8) : Bool := !whitespace.contains c && !symbols.contains c

def skipSpace (line : List UInt8) (s : Nat) : Nat :=
  advance line isSpace (line.length - s) s

/-- `ret`, the span `q`, `eq` and the new cursor. -/
structure Token where
  ret : UInt8
  span : Span
  next : Nat

def word : UInt8 := 'a'.toUInt8
def append : UInt8 := '+'.toUInt8

/-- The switch of `gettoken` at `s`: `ret` and `*eq`. -/
def tokenAt (line : List UInt8) (s : Nat) : UInt8 × Nat :=
  let c := byteAt line s
  if c = 0 then (c, s)
  else if (['|', '(', ')', ';', '&', '<'].map Char.toUInt8).contains c then (c, s + 1)
  else if c = '>'.toUInt8 then
    if byteAt line (s + 1) = '>'.toUInt8 then (append, s + 2) else (c, s + 1)
  else (word, advance line isWord (line.length - s) s)

def gettoken (line : List UInt8) (s : Nat) : Token :=
  let q := skipSpace line s
  let (ret, eq) := tokenAt line q
  { ret, span := ⟨q, eq⟩, next := skipSpace line eq }

/-- The answer and the new cursor. -/
def peek (line : List UInt8) (toks : List Char) (s : Nat) : Bool × Nat :=
  let s := skipSpace line s
  (byteAt line s != 0 && (toks.map Char.toUInt8).contains (byteAt line s), s)

/-- The switch of `parseredirs`. -/
def redircmd (tok : UInt8) (file : Span) : List (Redir Span) :=
  if tok = '<'.toUInt8 then [⟨file, rdonly, 0⟩]
  else if tok = '>'.toUInt8 then [⟨file, wronlyCreate, 1⟩]
  else if tok = append then [⟨file, wronlyCreate, 1⟩]
  else []

/-- The redirections put around the command, in front of those the loop still finds. -/
def parseredirs (line : List UInt8) : Nat → List (Redir Span) → Nat →
    Except Stop (List (Redir Span) × Nat)
  | 0, _, _ => .error .deep
  | depth + 1, redirs, s =>
    let (found, s) := peek line ['<', '>'] s
    if found then
      let tok := gettoken line s
      let file := gettoken line tok.next
      if file.ret ≠ word then .error (.panic .missingFile)
      else parseredirs line depth (redirs ++ redircmd tok.ret file.span) file.next
    else .ok (redirs, s)

/-- The loop of `parseexec`. The node of the command is filled under the redirections
already around it, so they are put around it at the end. -/
def parseargs (line : List UInt8) : Nat → List Span → List (Redir Span) → Nat →
    Except Stop (Cmd Span × Nat)
  | 0, _, _, _ => .error .deep
  | depth + 1, argv, redirs, s =>
    let (ended, s) := peek line ['|', ')', '&', ';'] s
    if ended then .ok (redirected (.exec argv) redirs, s)
    else
      let tok := gettoken line s
      if tok.ret = 0 then .ok (redirected (.exec argv) redirs, tok.next)
      else if tok.ret ≠ word then .error (.panic .syntaxError)
      else if argv.length + 1 ≥ maxargs then .error (.panic .tooManyArgs)
      else do
        let (redirs, s) ← parseredirs line depth redirs tok.next
        parseargs line depth (argv ++ [tok.span]) redirs s

/-- The first loop of `parseline`. -/
def parseback (line : List UInt8) : Nat → Cmd Span → Nat → Except Stop (Cmd Span × Nat)
  | 0, _, _ => .error .deep
  | depth + 1, cmd, s =>
    let (found, s) := peek line ['&'] s
    if found then parseback line depth (.back cmd) (gettoken line s).next
    else .ok (cmd, s)

mutual

def parseline (line : List UInt8) : Nat → Nat → Except Stop (Cmd Span × Nat)
  | 0, _ => .error .deep
  | depth + 1, s => do
    let (cmd, s) ← parsepipe line depth s
    let (cmd, s) ← parseback line depth cmd s
    let (found, s) := peek line [';'] s
    if found then
      let (rest, s) ← parseline line depth (gettoken line s).next
      .ok (.list cmd rest, s)
    else .ok (cmd, s)

def parsepipe (line : List UInt8) : Nat → Nat → Except Stop (Cmd Span × Nat)
  | 0, _ => .error .deep
  | depth + 1, s => do
    let (cmd, s) ← parseexec line depth s
    let (found, s) := peek line ['|'] s
    if found then
      let (rest, s) ← parsepipe line depth (gettoken line s).next
      .ok (.pipe cmd rest, s)
    else .ok (cmd, s)

def parseexec (line : List UInt8) : Nat → Nat → Except Stop (Cmd Span × Nat)
  | 0, _ => .error .deep
  | depth + 1, s =>
    let (found, s) := peek line ['('] s
    if found then parseblock line depth s
    else do
      let (redirs, s) ← parseredirs line depth [] s
      parseargs line depth [] redirs s

def parseblock (line : List UInt8) : Nat → Nat → Except Stop (Cmd Span × Nat)
  | 0, _ => .error .deep
  | depth + 1, s =>
    let (found, s) := peek line ['('] s
    if !found then .error (.panic .parseblock)
    else do
      let (cmd, s) ← parseline line depth (gettoken line s).next
      let (closed, s) := peek line [')'] s
      if !closed then .error (.panic .missingParen)
      else
        let (redirs, s) ← parseredirs line depth [] (gettoken line s).next
        .ok (redirected cmd redirs, s)

end

/-- Writes the NULs into the buffer. -/
def nulterminate : Cmd Span → List UInt8 → List UInt8
  | .exec argv, buf => argv.foldl (fun buf arg => buf.set arg.eq 0) buf
  | .redir cmd file _ _, buf => (nulterminate cmd buf).set file.eq 0
  | .pipe left right, buf => nulterminate right (nulterminate left buf)
  | .list left right, buf => nulterminate right (nulterminate left buf)
  | .back cmd, buf => nulterminate cmd buf

/-- The tree and the modified buffer. -/
def parsecmd (line : List UInt8) : Except Stop (Cmd Span × List UInt8) := do
  let (cmd, s) ← parseline line (4 * line.length + 4) 0
  let (_, s) := peek line [] s
  if s ≠ line.length then .error (.panic .syntaxError)
  else .ok (cmd, nulterminate cmd (line ++ [0]))

/-- The C string at `q`. -/
def cString (buf : List UInt8) (q : Nat) : List UInt8 := (buf.drop q).takeWhile (· != 0)

end ColorXv6.User.Shell
