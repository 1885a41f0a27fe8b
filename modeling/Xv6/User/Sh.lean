/-
Xv6.User.Sh — the command parser of `sh.c`.

A pointer `s` into the command string, with `es` its end, is modelled by
the characters from `s` to `es`; `*ps` is the state of the parser. Where
a pointer is stored in the tree (`q`, `eq`, `file`, `efile`) it is kept as
the number of characters from it to `es`.

`parseline`, `parsepipe`, `parseexec` and `parseblock` call each other on
what is left of the string, and their loops go on as long as there are
tokens; the first argument of each bounds the calls and turns, and
`parsecmd` gives as many as the length of the string asks for. A parser
that runs out of them is `spent`, which is neither a return nor a `panic`.

`parseexec` fills the node `cmd` while `ret` already points to the
redirections around it. Both are kept apart until the end: the words of
`cmd`, and the redirections in the order they are put around it.

`malloc` is taken to succeed and the stack to be large enough.
-/
import Xv6.Param

namespace Xv6.User.Sh

abbrev maxargs : Nat := 10

/-- A character of the source. -/
abbrev chr (c : Char) : UInt8 := c.toUInt8

/-- `char whitespace[] = " \t\r\n\v"`. -/
def whitespace : List UInt8 := [chr ' ', chr '\t', chr '\r', chr '\n', chr '\x0b']

/-- `char symbols[] = "<|>&;()"`. -/
def symbols : List UInt8 := [chr '<', chr '|', chr '>', chr '&', chr ';', chr '(', chr ')']

/-- `strchr`, as a truth value. -/
def strchr (s : List UInt8) (c : UInt8) : Bool := s.contains c

/-- The pointers `q` and `eq` to the start and the end of a word. -/
structure Span where
  q : Nat
  eq : Nat
  deriving DecidableEq

/-- What `gettoken` returns, apart from the 0 at the end: a symbol, `+` for
`>>`, or `a` with the pointers to the word. -/
inductive Token where
  | bar
  | lpar
  | rpar
  | semi
  | amp
  | lt
  | gt
  | gtgt
  | word (w : Span)
  deriving DecidableEq

inductive Cmd where
  | exec (argv : List Span)
  | redir (cmd : Cmd) (file : Span) (mode fd : Nat)
  | pipe (left right : Cmd)
  | list (left right : Cmd)
  | back (cmd : Cmd)
  deriving DecidableEq

/-- Why the parser does not return: a `panic`, or the bound on its calls. -/
inductive Failure where
  | panic (msg : String)
  | spent
  deriving DecidableEq

/-- A function that moves `*ps`. -/
abbrev Parse := StateT (List UInt8) (Except Failure)

/-! ## `gettoken` and `peek` -/

/-- `while(s < es && strchr(whitespace, *s)) s++`. -/
def skip (s : List UInt8) : List UInt8 := s.dropWhile (strchr whitespace)

/-- A character that a word goes on with. -/
def wordChar (c : UInt8) : Bool := !strchr whitespace c && !strchr symbols c

/-- The symbols that are tokens on their own. -/
def single (c : UInt8) : Option Token :=
  if c = chr '|' then some .bar
  else if c = chr '(' then some .lpar
  else if c = chr ')' then some .rpar
  else if c = chr ';' then some .semi
  else if c = chr '&' then some .amp
  else if c = chr '<' then some .lt
  else none

/-- The token at `s`, and where it ends. -/
def scan : List UInt8 → Option Token × List UInt8
  | [] => (none, [])
  | c :: s =>
    match single c with
    | some tok => (some tok, s)
    | none =>
      if c = chr '>' then
        if s.head? = some (chr '>') then (some .gtgt, s.tail) else (some .gt, s)
      else
        let e := (c :: s).dropWhile wordChar
        (some (.word ⟨(c :: s).length, e.length⟩), e)

/-- What `gettoken` makes of `*ps`. -/
def token (s : List UInt8) : Option Token × List UInt8 :=
  ((scan (skip s)).1, skip (scan (skip s)).2)

def gettoken : Parse (Option Token) := modifyGet token

def peek (toks : List UInt8) : Parse Bool :=
  modifyGet fun s => ((skip s).head?.any (strchr toks), skip s)

/-! ## The parser -/

/-- A redirection: `file` and `efile`, `mode` and `fd`. -/
structure Redir where
  file : Span
  mode : Nat
  fd : Nat
  deriving DecidableEq

def redircmd (cmd : Cmd) (r : Redir) : Cmd := .redir cmd r.file r.mode r.fd

/-- What a token makes of the word after it. -/
def Token.redir (file : Span) : Token → Option Redir
  | .lt => some ⟨file, oRdonly, 0⟩
  | .gt => some ⟨file, oWronly ||| oCreate, 1⟩
  | .gtgt => some ⟨file, oWronly ||| oCreate, 1⟩
  | _ => none

/-- The loop of `parseredirs`: the redirections it puts around `cmd`. -/
def redirs : Nat → Parse (List Redir)
  | 0 => throw .spent
  | n + 1 => do
      if ← peek [chr '<', chr '>'] then
        let tok ← gettoken
        match ← gettoken with
        | some (.word w) =>
          let more ← redirs n
          return (tok.bind (Token.redir w)).toList ++ more
        | _ => throw (.panic "missing file for redirection")
      else return []

def parseredirs (n : Nat) (cmd : Cmd) : Parse Cmd := do
  return (← redirs n).foldl redircmd cmd

/-- The loop of `parseexec`, with the words in `cmd` and the redirections
around it. -/
def args : Nat → List Span → List Redir → Parse Cmd
  | 0, _, _ => throw .spent
  | n + 1, argv, rs => do
      if ← peek [chr '|', chr ')', chr '&', chr ';'] then
        return rs.foldl redircmd (.exec argv)
      else
        match ← gettoken with
        | none => return rs.foldl redircmd (.exec argv)
        | some (.word w) =>
          if argv.length + 1 ≥ maxargs then throw (.panic "too many args")
          else
            let more ← redirs n
            args n (argv ++ [w]) (rs ++ more)
        | some _ => throw (.panic "syntax")

/-- `while(peek(ps, es, "&"))` in `parseline`. -/
def backs : Nat → Cmd → Parse Cmd
  | 0, _ => throw .spent
  | n + 1, cmd => do
      if ← peek [chr '&'] then
        let _ ← gettoken
        backs n (.back cmd)
      else return cmd

mutual

def parseline : Nat → Parse Cmd
  | 0 => throw .spent
  | n + 1 => do
      let cmd ← parsepipe n
      let cmd ← backs n cmd
      if ← peek [chr ';'] then
        let _ ← gettoken
        return .list cmd (← parseline n)
      else return cmd

def parsepipe : Nat → Parse Cmd
  | 0 => throw .spent
  | n + 1 => do
      let cmd ← parseexec n
      if ← peek [chr '|'] then
        let _ ← gettoken
        return .pipe cmd (← parsepipe n)
      else return cmd

def parseexec : Nat → Parse Cmd
  | 0 => throw .spent
  | n + 1 => do
      if ← peek [chr '('] then parseblock n
      else args n [] (← redirs n)

def parseblock : Nat → Parse Cmd
  | 0 => throw .spent
  | n + 1 => do
      if ← peek [chr '('] then
        let _ ← gettoken
        let cmd ← parseline n
        if ← peek [chr ')'] then
          let _ ← gettoken
          parseredirs n cmd
        else throw (.panic "syntax - missing )")
      else throw (.panic "parseblock")

end

/-! ## `nulterminate` and `parsecmd` -/

/-- `*p = 0`, in a string that ends at `es`. -/
def nul (p : Nat) (s : List UInt8) : List UInt8 := s.set (s.length - p) 0

def nulterminate : Cmd → List UInt8 → List UInt8
  | .exec argv, s => argv.foldl (fun s w => nul w.eq s) s
  | .redir cmd file _ _, s => nul file.eq (nulterminate cmd s)
  | .pipe left right, s => nulterminate right (nulterminate left s)
  | .list left right, s => nulterminate right (nulterminate left s)
  | .back cmd, s => nulterminate cmd s

/-- A NUL-terminated string. -/
def CString : Type := { s : List UInt8 // 0 ∉ s }

/-- `parsecmd(s)`: the tree, and the string it leaves. -/
def parsecmd (s : CString) : Except Failure (Cmd × List UInt8) := do
  let (cmd, rest) ← parseline (4 * s.1.length + 4) s.1
  -- `peek(&s, es, "")` passes over blanks
  if skip rest = [] then return (cmd, nulterminate cmd s.1)
  else throw (.panic "syntax")

/-- The string a pointer points to. -/
def cstring (p : Nat) (s : List UInt8) : List UInt8 := (s.drop (s.length - p)).takeWhile (· ≠ 0)

/-- The characters from `q` to `eq`. -/
def Span.text (w : Span) (s : List UInt8) : List UInt8 :=
  (s.drop (s.length - w.q)).take (w.q - w.eq)

/-- The words and file names in a tree. -/
def Cmd.words : Cmd → List Span
  | .exec argv => argv
  | .redir cmd file _ _ => cmd.words ++ [file]
  | .pipe left right => left.words ++ right.words
  | .list left right => left.words ++ right.words
  | .back cmd => cmd.words

end Xv6.User.Sh
