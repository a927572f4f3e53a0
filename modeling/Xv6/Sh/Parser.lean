import Xv6.Sh.Lexer

/-!
# The parser of the shell

`parsecmd` of `user/sh.c` and the functions under it: recursive descent over the line, with `peek`
as the one token of lookahead. The trees have the places of words in the line, as the structures of
the source have pointers; `malloc` is taken to succeed.

The functions call each other, so they take a bound on the depth of the calls, and loops one on
their rounds; `Err.fuel` is the end of a run that had too little, and is no error of the source.
-/

namespace Xv6.Sh

abbrev maxArgs : ℕ := 10

abbrev oRdonly : ℕ := 0x000

/-- `O_WRONLY | O_CREATE`. -/
abbrev oWrite : ℕ := 0x201

/-- `O_WRONLY | O_CREATE | O_TRUNC`. -/
abbrev oRewrite : ℕ := 0x601

/-- `struct cmd` and the structures it stands for. -/
inductive Cmd (α : Type)
  | exec (argv : List α)
  | redir (cmd : Cmd α) (file : α) (mode fd : ℕ)
  | pipe (left right : Cmd α)
  | list (left right : Cmd α)
  | back (cmd : Cmd α)

namespace Cmd

variable {α β : Type}

def map (f : α → β) : Cmd α → Cmd β
  | exec argv => exec (argv.map f)
  | redir cmd file mode fd => redir (cmd.map f) (f file) mode fd
  | pipe left right => pipe (left.map f) (right.map f)
  | list left right => list (left.map f) (right.map f)
  | back cmd => back (cmd.map f)

/-- One more word for the command that `parseexec` is at: it is the one under all redirections. -/
def addArg (w : α) : Cmd α → Cmd α
  | exec argv => exec (argv ++ [w])
  | redir cmd file mode fd => redir (cmd.addArg w) file mode fd
  | cmd => cmd

end Cmd

/-- The errors: `panic("syntax")` in `parseexec`; the same in `parsecmd`, with what is left over;
`"missing file for redirection"`; `"syntax - missing )"`; `"too many args"`; `"parseblock"`. -/
inductive Err
  | unexpected
  | leftovers (rest : List UInt8)
  | missingFile
  | missingParen
  | tooManyArgs
  | parseblock
  | fuel
deriving DecidableEq

abbrev ParseM (α : Type) := ScanM Err α

section Source

variable (buf : List UInt8)

/-- The `switch` of `parseredirs`. -/
def redircmd (tok : Tok) (cmd : Cmd Span) (file : Span) : Cmd Span :=
  match tok with
  | .sym .less => .redir cmd file oRdonly 0
  | .sym .greater => .redir cmd file oRewrite 1
  | .sym .append => .redir cmd file oWrite 1
  | _ => cmd

def parseredirs : (fuel : ℕ) → Cmd Span → ParseM (Cmd Span)
  | 0, _ => throw .fuel
  | fuel + 1, cmd => do
    if ← peek buf ['<'.toUInt8, '>'.toUInt8] then
      let (tok, _) ← gettoken buf
      let (tok', file) ← gettoken buf
      if tok' ≠ .word then throw .missingFile
      else parseredirs fuel (redircmd tok cmd file)
    else return cmd

/-- The loop of `parseexec`, with the number of words so far. -/
def parseargs : (fuel argc : ℕ) → Cmd Span → ParseM (Cmd Span)
  | 0, _, _ => throw .fuel
  | fuel + 1, argc, ret => do
    if ← peek buf ['|'.toUInt8, ')'.toUInt8, '&'.toUInt8, ';'.toUInt8] then return ret
    else
      let (tok, w) ← gettoken buf
      if tok = .eof then return ret
      else if tok ≠ .word then throw .unexpected
      else if maxArgs ≤ argc + 1 then throw .tooManyArgs
      else parseargs fuel (argc + 1) (← parseredirs buf (buf.length + 1) (ret.addArg w))

/-- The loop of `parseline`. -/
def parsebacks : (fuel : ℕ) → Cmd Span → ParseM (Cmd Span)
  | 0, _ => throw .fuel
  | fuel + 1, cmd => do
    if ← peek buf ['&'.toUInt8] then
      let _ ← gettoken buf
      parsebacks fuel (.back cmd)
    else return cmd

mutual

def parseline : (fuel : ℕ) → ParseM (Cmd Span)
  | 0 => throw .fuel
  | fuel + 1 => do
    let cmd ← parsepipe fuel
    let cmd ← parsebacks buf (buf.length + 1) cmd
    if ← peek buf [';'.toUInt8] then
      let _ ← gettoken buf
      return .list cmd (← parseline fuel)
    else return cmd

def parsepipe : (fuel : ℕ) → ParseM (Cmd Span)
  | 0 => throw .fuel
  | fuel + 1 => do
    let cmd ← parseexec fuel
    if ← peek buf ['|'.toUInt8] then
      let _ ← gettoken buf
      return .pipe cmd (← parsepipe fuel)
    else return cmd

def parseexec : (fuel : ℕ) → ParseM (Cmd Span)
  | 0 => throw .fuel
  | fuel + 1 => do
    if ← peek buf ['('.toUInt8] then parseblock fuel
    else
      let ret ← parseredirs buf (buf.length + 1) (.exec [])
      parseargs buf (buf.length + 1) 0 ret

def parseblock : (fuel : ℕ) → ParseM (Cmd Span)
  | 0 => throw .fuel
  | fuel + 1 => do
    if ← peek buf ['('.toUInt8] then
      let _ ← gettoken buf
      let cmd ← parseline fuel
      if ← peek buf [')'.toUInt8] then
        let _ ← gettoken buf
        parseredirs buf (buf.length + 1) cmd
      else throw .missingParen
    else throw .parseblock

end

/-- A string of C: the bytes up to the first 0. -/
def cstring (s : List UInt8) : List UInt8 := s.takeWhile (· ≠ 0)

/-- A depth of calls that is enough for a line. -/
def depth (buf : List UInt8) : ℕ := 4 * buf.length + 4

/-- The body of `parsecmd`. -/
def parseall : ParseM (Cmd Span) := do
  let cmd ← parseline buf (depth buf)
  let _ ← peek buf []
  let s ← get
  if s ≠ buf.length then throw (.leftovers (buf.drop s))
  else return cmd

def parsecmd (s : List UInt8) : Except Err (Cmd Span) := (parseall (cstring s)).run' 0

end Source

theorem zero_not_mem_cstring (s : List UInt8) : 0 ∉ cstring s := by
  intro h
  have := List.mem_takeWhile_imp h
  simp at this

end Xv6.Sh
