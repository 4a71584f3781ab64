import Xv6.Shell.Parser

/-!
# The language of the shell

What a line means, without a parser: blanks separate tokens, words are as long
as possible, and the grammar derives a tree from a list of tokens.

    line  ::= pipe '&'* [';' line]
    pipe  ::= exec ['|' pipe]
    exec  ::= '(' line ')' redir* | redir* (word redir*)*
    redir ::= ('<' | '>' | '>>') word
-/

namespace Xv6.Shell

abbrev Word := List UInt8

inductive Arrow where
  | less
  | great
  | append
  deriving DecidableEq, Repr

inductive Token where
  | bar
  | amp
  | semi
  | left
  | right
  | arrow (arrow : Arrow)
  | word (bytes : Word)
  deriving DecidableEq, Repr

/-- The bytes of a token that is not a word. -/
def Token.spelling : Token → List UInt8
  | .bar => ['|'.toUInt8]
  | .amp => ['&'.toUInt8]
  | .semi => [';'.toUInt8]
  | .left => ['('.toUInt8]
  | .right => [')'.toUInt8]
  | .arrow .less => ['<'.toUInt8]
  | .arrow .great => ['>'.toUInt8]
  | .arrow .append => ['>'.toUInt8, '>'.toUInt8]
  | .word bytes => bytes

/-- The text after a token does not make the token longer. -/
def Token.EndsBefore : Token → List UInt8 → Prop
  | .arrow .great, rest => rest.head? ≠ some '>'.toUInt8
  | .word bytes, rest =>
      bytes ≠ [] ∧ (∀ c ∈ bytes, isWordByte c) ∧
        ∀ c ∈ rest.head?, isWordByte c = false
  | _, _ => True

/-- The tokens of a text. -/
inductive Lexes : List UInt8 → List Token → Prop where
  | nil : Lexes [] []
  | blank {c : UInt8} {text : List UInt8} {tokens : List Token} :
      isBlank c → Lexes text tokens → Lexes (c :: text) tokens
  | token {token : Token} {text : List UInt8} {tokens : List Token} :
      token.EndsBefore text → Lexes text tokens →
      Lexes (token.spelling ++ text) (token :: tokens)

/-- A command, with its strings. -/
inductive Tree where
  | exec (argv : List Word)
  | redir (cmd : Tree) (file : Word) (mode : Mode) (fd : Nat)
  | pipe (left right : Tree)
  | list (left right : Tree)
  | back (cmd : Tree)
  deriving DecidableEq, Repr

structure Redir where
  arrow : Arrow
  file : Word
  deriving DecidableEq, Repr

namespace Redir

def tokens (redir : Redir) : List Token :=
  [.arrow redir.arrow, .word redir.file]

/-- The redirection around a command. -/
def around (cmd : Tree) (redir : Redir) : Tree :=
  match redir.arrow with
  | .less => .redir cmd redir.file .read 0
  | .great => .redir cmd redir.file .create 1
  | .append => .redir cmd redir.file .create 1

end Redir

/-- Redirections around a command, in order of appearance. -/
def wrap (redirs : List Redir) (cmd : Tree) : Tree :=
  redirs.foldl Redir.around cmd

/-- As many `back` nodes as there are `&`. -/
def background : Nat → Tree → Tree
  | 0, cmd => cmd
  | n + 1, cmd => background n (.back cmd)

/-- An argument of a command with the redirections behind it. -/
structure Argument where
  word : Word
  redirs : List Redir
  deriving DecidableEq, Repr

def Argument.tokens (argument : Argument) : List Token :=
  .word argument.word :: argument.redirs.flatMap Redir.tokens

inductive Nonterminal where
  | line
  | pipe
  | exec
  deriving DecidableEq, Repr

/-- The trees that the grammar derives from a list of tokens. -/
inductive Derives : Nonterminal → List Token → Tree → Prop where
  | line {tokens : List Token} {tree : Tree} (n : Nat) :
      Derives .pipe tokens tree →
      Derives .line (tokens ++ List.replicate n .amp) (background n tree)
  | list {tokens rest : List Token} {first second : Tree} (n : Nat) :
      Derives .pipe tokens first → Derives .line rest second →
      Derives .line (tokens ++ List.replicate n .amp ++ .semi :: rest)
        (.list (background n first) second)
  | exec {tokens : List Token} {tree : Tree} :
      Derives .exec tokens tree → Derives .pipe tokens tree
  | pipe {tokens rest : List Token} {left right : Tree} :
      Derives .exec tokens left → Derives .pipe rest right →
      Derives .pipe (tokens ++ .bar :: rest) (.pipe left right)
  | block {tokens : List Token} {tree : Tree} (redirs : List Redir) :
      Derives .line tokens tree →
      Derives .exec
        (.left :: tokens ++ .right :: redirs.flatMap Redir.tokens)
        (wrap redirs tree)
  | simple (redirs : List Redir) (arguments : List Argument) :
      arguments.length < maxargs →
      Derives .exec
        (redirs.flatMap Redir.tokens ++ arguments.flatMap Argument.tokens)
        (wrap (redirs ++ arguments.flatMap Argument.redirs)
          (.exec (arguments.map Argument.word)))

/-- The whole text is a line that means the tree. -/
def Means (text : List UInt8) (tree : Tree) : Prop :=
  ∃ tokens, Lexes text tokens ∧ Derives .line tokens tree

/-! ## Reading a command of the parser -/

/-- The string at a pointer. -/
def cstring (buffer : List UInt8) (s : Nat) : Word :=
  (buffer.drop s).takeWhile (· != 0)

/-- The pointers up to the first null. -/
def untilNull : List (Option Nat) → List Nat
  | some s :: argv => s :: untilNull argv
  | _ => []

/-- The tree that a command stands for. -/
def Cmd.tree (buffer : List UInt8) : Cmd → Tree
  | .exec cmd => .exec ((untilNull cmd.argv).map (cstring buffer))
  | .redir cmd file _ mode fd =>
      .redir (cmd.tree buffer) (cstring buffer file) mode fd
  | .pipe left right => .pipe (left.tree buffer) (right.tree buffer)
  | .list left right => .list (left.tree buffer) (right.tree buffer)
  | .back cmd => .back (cmd.tree buffer)

end Xv6.Shell
