import Xv6Mmap.State

/-!
# The parser of the shell

`parsecmd` of `user/sh.c` and the functions under it. The line stands in memory as bytes with a `0` at
its end; the parser moves a pointer along it. The nodes of a command are a tree. `malloc` succeeds.
Each loop and each function that calls itself takes a bound on its rounds and stops with an error of
its own when it is reached.
-/

namespace Xv6Mmap.Sh

abbrev Bytes := Nat → Nat

def chars (cs : List Char) : List Nat := cs.map Char.toNat

def whitespace : List Nat := chars [' ', '\t', '\r', '\n', '\x0b']

def symbols : List Nat := chars ['<', '|', '>', '&', ';', '(', ')']

def maxargs : Nat := 10

/-- `strchr` does not find the `0` at the end. -/
def strchr (s : List Nat) (c : Nat) : Bool := s.contains c

/-- What `gettoken` returns: a symbol, `'+'` for `>>`, `'a'` for a word and `0` at the end. -/
inductive Tok where
  | eof
  | bar
  | lparen
  | rparen
  | semi
  | amp
  | lt
  | gt
  | append
  | word
  deriving DecidableEq, Repr

structure Token where
  tok : Tok
  q : Nat
  eq : Nat
  deriving DecidableEq, Repr

/-- `struct cmd`. An argument is given by `argv[i]` and `eargv[i]`. -/
inductive Cmd where
  | exec (argv : List (Nat × Nat))
  | redir (cmd : Cmd) (file efile mode fd : Nat)
  | pipe (left right : Cmd)
  | list (left right : Cmd)
  | back (cmd : Cmd)
  deriving DecidableEq, Repr

inductive Stop where
  | panic (msg : String)
  | loops
  deriving DecidableEq, Repr

/-- The state is the pointer into the line. -/
abbrev P := EStateM Stop Nat

/-! ### Tokens -/

/-- `while(s < es && ...) s++`, where `n` is `es - s`. -/
def skipWhile (p : Nat → Bool) (mem : Bytes) : Nat → Nat → Nat
  | 0, s => s
  | n + 1, s => if p (mem s) then skipWhile p mem n (s + 1) else s

def skipSpace (mem : Bytes) (es s : Nat) : Nat := skipWhile (strchr whitespace) mem (es - s) s

def isWordChar (c : Nat) : Bool := !strchr whitespace c && !strchr symbols c

def scan (mem : Bytes) (es s : Nat) : Tok × Nat :=
  if mem s = 0 then (.eof, s)
  else if mem s = '|'.toNat then (.bar, s + 1)
  else if mem s = '('.toNat then (.lparen, s + 1)
  else if mem s = ')'.toNat then (.rparen, s + 1)
  else if mem s = ';'.toNat then (.semi, s + 1)
  else if mem s = '&'.toNat then (.amp, s + 1)
  else if mem s = '<'.toNat then (.lt, s + 1)
  else if mem s = '>'.toNat then
    if mem (s + 1) = '>'.toNat then (.append, s + 2) else (.gt, s + 1)
  else (.word, skipWhile isWordChar mem (es - s) s)

variable (mem : Bytes) (es : Nat)

def gettoken : P Token := do
  let q := skipSpace mem es (← get)
  let (ret, eq) := scan mem es q
  set (skipSpace mem es eq)
  pure ⟨ret, q, eq⟩

def peek (toks : List Nat) : P Bool := do
  let s := skipSpace mem es (← get)
  set s
  pure (mem s ≠ 0 && strchr toks (mem s))

/-! ### Commands -/

def oRdonly : Nat := 0x000

def oWronly : Nat := 0x001

def oCreate : Nat := 0x200

def oTrunc : Nat := 0x400

/-- `cmd->argv[argc] = q; cmd->eargv[argc] = eq;` for the `exec` node inside the redirections that have
been put around it. -/
def Cmd.addArg (q eq : Nat) : Cmd → Cmd
  | .exec argv => .exec (argv ++ [(q, eq)])
  | .redir cmd file efile mode fd => .redir (cmd.addArg q eq) file efile mode fd
  | .pipe left right => .pipe left right
  | .list left right => .list left right
  | .back cmd => .back cmd

def Cmd.redirect (cmd : Cmd) (op : Tok) (q eq : Nat) : Cmd :=
  match op with
  | .lt => .redir cmd q eq oRdonly 0
  | .gt => .redir cmd q eq (oWronly ||| oCreate ||| oTrunc) 1
  | .append => .redir cmd q eq (oWronly ||| oCreate) 1
  | _ => cmd

def parseredirs : Nat → Cmd → P Cmd
  | 0, _ => throw .loops
  | fuel + 1, cmd => do
    if ← peek mem es (chars ['<', '>']) then
      let op ← gettoken mem es
      let file ← gettoken mem es
      if file.tok ≠ .word then
        throw (.panic "missing file for redirection")
      else
        parseredirs fuel (cmd.redirect op.tok file.q file.eq)
    else
      pure cmd

def parseargs : Nat → Nat → Cmd → P Cmd
  | 0, _, _ => throw .loops
  | fuel + 1, argc, ret => do
    if ← peek mem es (chars ['|', ')', '&', ';']) then
      pure ret
    else
      let arg ← gettoken mem es
      if arg.tok = .eof then
        pure ret
      else if arg.tok ≠ .word then
        throw (.panic "syntax")
      else if maxargs ≤ argc + 1 then
        throw (.panic "too many args")
      else
        let ret ← parseredirs mem es fuel (ret.addArg arg.q arg.eq)
        parseargs fuel (argc + 1) ret

def parseback : Nat → Cmd → P Cmd
  | 0, _ => throw .loops
  | fuel + 1, cmd => do
    if ← peek mem es (chars ['&']) then
      let _ ← gettoken mem es
      parseback fuel (.back cmd)
    else
      pure cmd

mutual

def parseline : Nat → P Cmd
  | 0 => throw .loops
  | fuel + 1 => do
    let cmd ← parsepipe fuel
    let cmd ← parseback mem es fuel cmd
    if ← peek mem es (chars [';']) then
      let _ ← gettoken mem es
      pure (.list cmd (← parseline fuel))
    else
      pure cmd

def parsepipe : Nat → P Cmd
  | 0 => throw .loops
  | fuel + 1 => do
    let cmd ← parseexec fuel
    if ← peek mem es (chars ['|']) then
      let _ ← gettoken mem es
      pure (.pipe cmd (← parsepipe fuel))
    else
      pure cmd

def parseexec : Nat → P Cmd
  | 0 => throw .loops
  | fuel + 1 => do
    if ← peek mem es (chars ['(']) then
      parseblock fuel
    else
      let ret ← parseredirs mem es fuel (.exec [])
      parseargs mem es fuel 0 ret

def parseblock : Nat → P Cmd
  | 0 => throw .loops
  | fuel + 1 => do
    if ← peek mem es (chars ['(']) then
      let _ ← gettoken mem es
      let cmd ← parseline fuel
      if ← peek mem es (chars [')']) then
        let _ ← gettoken mem es
        parseredirs mem es fuel cmd
      else
        throw (.panic "syntax - missing )")
    else
      throw (.panic "parseblock")

end

def strlenFrom : Nat → Nat → Nat → P Nat
  | 0, _, _ => throw .loops
  | fuel + 1, s, n => if mem (s + n) = 0 then pure n else strlenFrom fuel s (n + 1)

def nulterminate : Cmd → Bytes → Bytes
  | .exec argv, mem => argv.foldl (fun mem arg => upd mem arg.2 0) mem
  | .redir cmd _ efile _ _, mem => upd (nulterminate cmd mem) efile 0
  | .pipe left right, mem => nulterminate right (nulterminate left mem)
  | .list left right, mem => nulterminate right (nulterminate left mem)
  | .back cmd, mem => nulterminate cmd mem

/-- The command and what the terminators make of the line. -/
def parsecmd (fuel : Nat) : P (Cmd × Bytes) := do
  let s ← get
  let es := s + (← strlenFrom mem fuel s 0)
  let cmd ← parseline mem es fuel
  let _ ← peek mem es []
  if (← get) ≠ es then
    throw (.panic "syntax")
  else
    pure (cmd, nulterminate cmd mem)

end Xv6Mmap.Sh
