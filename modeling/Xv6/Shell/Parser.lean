import Xv6.Param
import Xv6.Lib.Program

/-!
# The parser of the shell

The parsing half of `sh.c`.  The text is the line up to its NUL; a pointer
into it is a position, and `*ps` is the state of the program.  `malloc` always
has memory.  A recursion or loop that uses up its fuel stops with
`Fault.hang`.
-/

namespace Xv6.Shell

open Lib

/-- `MAXARGS`. -/
def maxargs : Nat := 10

def whitespace : List UInt8 :=
  [' ', '\t', '\r', '\n', '\x0b'].map Char.toUInt8

def symbols : List UInt8 :=
  ['<', '|', '>', '&', ';', '(', ')'].map Char.toUInt8

def isBlank (c : UInt8) : Bool := whitespace.contains c

def isWordByte (c : UInt8) : Bool := !isBlank c && !symbols.contains c

/-- `O_RDONLY` and `O_WRONLY|O_CREATE`. -/
inductive Mode where
  | read
  | create
  deriving DecidableEq, Repr

/-- `struct execcmd`; a null pointer is `none`. -/
structure Execcmd where
  argv : List (Option Nat)
  eargv : List (Option Nat)
  deriving DecidableEq, Repr

/-- `struct cmd` of each type. -/
inductive Cmd where
  | exec (cmd : Execcmd)
  | redir (cmd : Cmd) (file efile : Nat) (mode : Mode) (fd : Nat)
  | pipe (left right : Cmd)
  | list (left right : Cmd)
  | back (cmd : Cmd)
  deriving DecidableEq, Repr

/-- `execcmd()`. -/
def execcmd : Cmd :=
  .exec
    { argv := List.replicate maxargs none
      eargv := List.replicate maxargs none }

/-- Change the `execcmd` inside the redirections that were put around it. -/
def Cmd.setExec (change : Execcmd → Execcmd) : Cmd → Cmd
  | .exec cmd => .exec (change cmd)
  | .redir cmd file efile mode fd =>
      .redir (cmd.setExec change) file efile mode fd
  | cmd => cmd

/-- Programs that move the pointer `*ps`. -/
abbrev Code := Program Nat Fault

def panic {α : Type} (message : String) : Code α :=
  throw (.panic message)

/-- `cmd->argv[argc] = q` and `cmd->eargv[argc] = eq`. -/
def setArg (ret : Cmd) (argc : Nat) (q eq : Option Nat) : Code Cmd :=
  if argc < maxargs then
    pure (ret.setExec fun cmd =>
      { argv := cmd.argv.set argc q, eargv := cmd.eargv.set argc eq })
  else throw .outOfBounds

section Text

variable (text : List UInt8)

/-- `*s`, with the NUL at `es`. -/
def byteAt (s : Nat) : UInt8 := text.getD s 0

/-- `while(s < es && p(*s)) s++`. -/
def skip (p : UInt8 → Bool) (s : Nat) : Nat :=
  s + ((text.drop s).takeWhile p).length

/-- The `switch` of `gettoken`: the token and its end. -/
def classify (s : Nat) : UInt8 × Nat :=
  let c := byteAt text s
  if c = 0 then (c, s)
  else if (['|', '(', ')', ';', '&', '<'].map Char.toUInt8).contains c then
    (c, s + 1)
  else if c = '>'.toUInt8 then
    if byteAt text (s + 1) = '>'.toUInt8 then ('+'.toUInt8, s + 2)
    else (c, s + 1)
  else ('a'.toUInt8, skip text isWordByte s)

/-- `gettoken`: the token with `*q` and `*eq`. -/
def gettoken : Code (UInt8 × Nat × Nat) := do
  let q := skip text isBlank (← get)
  let (ret, eq) := classify text q
  set (skip text isBlank eq)
  pure (ret, q, eq)

/-- `peek`. -/
def peek (toks : List Char) : Code Bool := do
  let s := skip text isBlank (← get)
  set s
  let c := byteAt text s
  pure (c != 0 && (toks.map Char.toUInt8).contains c)

/-- The redirection that a token stands for. -/
def redircmd (tok : UInt8) (cmd : Cmd) (q eq : Nat) : Cmd :=
  if tok = '<'.toUInt8 then .redir cmd q eq .read 0
  else if tok = '>'.toUInt8 then .redir cmd q eq .create 1
  else if tok = '+'.toUInt8 then .redir cmd q eq .create 1
  else cmd

/-- `parseredirs`. -/
def parseredirs : Nat → Cmd → Code Cmd
  | 0, _ => throw .hang
  | fuel + 1, cmd => do
      if ← peek text ['<', '>'] then
        let (tok, _, _) ← gettoken text
        let (word, q, eq) ← gettoken text
        if word ≠ 'a'.toUInt8 then panic "missing file for redirection"
        else parseredirs fuel (redircmd tok cmd q eq)
      else pure cmd

/-- The loop of `parseexec`. -/
def parseargs : Nat → Cmd → Nat → Code Cmd
  | 0, _, _ => throw .hang
  | fuel + 1, ret, argc => do
      if ← peek text ['|', ')', '&', ';'] then setArg ret argc none none
      else
        let (tok, q, eq) ← gettoken text
        if tok = 0 then setArg ret argc none none
        else if tok ≠ 'a'.toUInt8 then panic "syntax"
        else
          let ret ← setArg ret argc (some q) (some eq)
          if argc + 1 ≥ maxargs then panic "too many args"
          else
            let ret ← parseredirs text fuel ret
            parseargs fuel ret (argc + 1)

/-- The loop of `parseline`. -/
def parseback : Nat → Cmd → Code Cmd
  | 0, _ => throw .hang
  | fuel + 1, cmd => do
      if ← peek text ['&'] then
        let _ ← gettoken text
        parseback fuel (.back cmd)
      else pure cmd

mutual

/-- `parseline`. -/
def parseline : Nat → Code Cmd
  | 0 => throw .hang
  | fuel + 1 => do
      let cmd ← parsepipe fuel
      let cmd ← parseback text fuel cmd
      if ← peek text [';'] then
        let _ ← gettoken text
        pure (.list cmd (← parseline fuel))
      else pure cmd

/-- `parsepipe`. -/
def parsepipe : Nat → Code Cmd
  | 0 => throw .hang
  | fuel + 1 => do
      let cmd ← parseexec fuel
      if ← peek text ['|'] then
        let _ ← gettoken text
        pure (.pipe cmd (← parsepipe fuel))
      else pure cmd

/-- `parseexec`. -/
def parseexec : Nat → Code Cmd
  | 0 => throw .hang
  | fuel + 1 => do
      if ← peek text ['('] then parseblock fuel
      else
        let ret ← parseredirs text fuel execcmd
        parseargs text fuel ret 0

/-- `parseblock`. -/
def parseblock : Nat → Code Cmd
  | 0 => throw .hang
  | fuel + 1 => do
      if ← peek text ['('] then
        let _ ← gettoken text
        let cmd ← parseline fuel
        if ← peek text [')'] then
          let _ ← gettoken text
          parseredirs text fuel cmd
        else panic "syntax - missing )"
      else panic "parseblock"

end

end Text

/-! ## The strings of a command -/

/-- The loop of `nulterminate` over `argv`. -/
def nulterminateArgs :
    List (Option Nat) → List (Option Nat) → Program (List UInt8) Fault Unit
  | some _ :: argv, some eq :: eargv => do
      modify fun buffer => buffer.set eq 0
      nulterminateArgs argv eargv
  | none :: _, _ => pure ()
  | some _ :: _, none :: _ => throw .nullDereference
  | _, _ => throw .outOfBounds

/-- `nulterminate`. -/
def nulterminate : Cmd → Program (List UInt8) Fault Unit
  | .exec cmd => nulterminateArgs cmd.argv cmd.eargv
  | .redir cmd _ efile _ _ => do
      nulterminate cmd
      modify fun buffer => buffer.set efile 0
  | .pipe left right => do
      nulterminate left
      nulterminate right
  | .list left right => do
      nulterminate left
      nulterminate right
  | .back cmd => nulterminate cmd

/-- `parsecmd`: the command, and the line with its strings terminated. -/
def parsecmd (fuel : Nat) (text : List UInt8) :
    Except Fault (Cmd × List UInt8) := do
  let (cmd, s) ← (parseline text fuel).run 0
  let (_, s) ← (peek text []).run s
  if s ≠ text.length then throw (.panic "syntax")
  let (_, buffer) ← (nulterminate cmd).run (text ++ [0])
  pure (cmd, buffer)

end Xv6.Shell
