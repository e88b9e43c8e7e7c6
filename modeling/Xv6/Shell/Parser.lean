import Xv6.Foundations.Program

/-!
# Shell - The parser of sh.c

The parsing functions work on a pointer {lit}`*ps` into the buffer that holds the line; here it
is the state of the computation.  The constructors of commands get their memory from `malloc`,
which succeeds, so commands are trees.  While {lit}`parseexec` collects the words of a simple
command, the node of the command may already be below nodes of redirections; its fields are
assigned there.

Every function takes the number of calls it may make below it.  Whether that number suffices is
part of what is proved.

Main definitions:

- Definitions {lit}`gettoken`, {lit}`peek`: tokens.
- Definitions {lit}`parseline`, {lit}`parsepipe`, {lit}`parseexec`, {lit}`parseblock`: the
  recursive descent.
- Definition {lit}`nulterminate`: a NUL behind every string of a command.
- Definition {lit}`parsecmd`: all together.
-/

namespace Xv6.Shell

open Foundations

/-! ## Characters -/

/-- The memory of the process. -/
abbrev Mem := Nat → UInt8

/-- `strchr`, on a string without its NUL. -/
def strchr (s : List UInt8) (c : UInt8) : Option Nat :=
  s.findIdx? fun d => d == c

/-- `char whitespace[]`. -/
def whitespace : List UInt8 :=
  [' ', '\t', '\r', '\n', '\x0b'].map Char.toUInt8

/-- `char symbols[]`. -/
def symbols : List UInt8 :=
  ['<', '|', '>', '&', ';', '(', ')'].map Char.toUInt8

def isSpace (c : UInt8) : Bool :=
  (strchr whitespace c).isSome

def isSymbol (c : UInt8) : Bool :=
  (strchr symbols c).isSome

/-- A string in memory. -/
structure CString where
  mem : Mem
  addr : Nat
  len : Nat
  nonzero : ∀ i < len, mem (addr + i) ≠ 0
  zero : mem (addr + len) = 0

/-- `strlen`: the first index with a NUL. -/
def strlen (str : CString) : Nat :=
  Nat.find (p := fun n => str.mem (str.addr + n) = 0) ⟨str.len, str.zero⟩

/-! ## Commands -/

/-- `MAXARGS`. -/
def maxargs : Nat := 10

/-- `O_RDONLY`. -/
def oRdonly : Nat := 0x000

/-- `O_WRONLY`. -/
def oWronly : Nat := 0x001

/-- `O_CREATE`. -/
def oCreate : Nat := 0x200

/-- `struct cmd`, with pointers into the buffer. -/
inductive Cmd
  | exec (argv eargv : Fin maxargs → Option Nat)
  | redir (cmd : Cmd) (file efile mode fd : Nat)
  | pipe (left right : Cmd)
  | list (left right : Cmd)
  | back (cmd : Cmd)

/-- `execcmd`. -/
def execcmd : Cmd :=
  .exec (fun _ => none) fun _ => none

/-- Assign {lit}`argv[i]` and {lit}`eargv[i]` of the simple command below its redirections. -/
def Cmd.setArg (i : Fin maxargs) (q eq : Option Nat) : Cmd → Cmd
  | .exec argv eargv => .exec (Function.update argv i q) (Function.update eargv i eq)
  | .redir cmd file efile mode fd => .redir (cmd.setArg i q eq) file efile mode fd
  | cmd => cmd

/-- Why parsing ends without a command: a `panic`, an access outside of an array or through a
null pointer, or more calls than allowed. -/
inductive Stop
  | panic (msg : String)
  | outOfBounds
  | nullPointer
  | outOfCalls
deriving DecidableEq

/-- Computations on the pointer {lit}`*ps`. -/
abbrev Parser := Exec Nat Stop

/-! ## Tokens -/

/-- The loop {lit}`while(s < es && ...) s++` with `n` characters before {lit}`es`. -/
def skipWhile (p : UInt8 → Bool) (mem : Mem) : Nat → Nat → Nat
  | 0, s => s
  | n + 1, s => if p (mem s) then skipWhile p mem n (s + 1) else s

/-- What `gettoken` returns and assigns to {lit}`*q` and {lit}`*eq`. -/
structure Tok where
  ret : UInt8
  q : Nat
  eq : Nat

/-- The `switch` of `gettoken`: what it returns, and the end of the token. -/
def tokenAt (mem : Mem) (es s : Nat) : UInt8 × Nat :=
  if mem s = 0 then (0, s)
  else if mem s ∈ ['|', '(', ')', ';', '&', '<'].map Char.toUInt8 then (mem s, s + 1)
  else if mem s = '>'.toUInt8 then
    if mem (s + 1) = '>'.toUInt8 then ('+'.toUInt8, s + 2) else (mem s, s + 1)
  else ('a'.toUInt8, skipWhile (fun c => !isSpace c && !isSymbol c) mem (es - s) s)

/-- `gettoken`. -/
def gettoken (mem : Mem) (es : Nat) : Parser Tok := do
  let s ← Exec.get
  let q := skipWhile isSpace mem (es - s) s
  let (ret, eq) := tokenAt mem es q
  Exec.modify fun _ => skipWhile isSpace mem (es - eq) eq
  return ⟨ret, q, eq⟩

/-- `peek`. -/
def peek (mem : Mem) (es : Nat) (toks : List Char) : Parser Bool := do
  let s ← Exec.get
  let s := skipWhile isSpace mem (es - s) s
  Exec.modify fun _ => s
  return mem s != 0 && (strchr (toks.map Char.toUInt8) (mem s)).isSome

/-! ## Recursive descent -/

section Descent

variable (mem : Mem) (es : Nat)

/-- The `switch` of `parseredirs`. -/
def redirect (tok : UInt8) (cmd : Cmd) (file : Tok) : Cmd :=
  if tok = '<'.toUInt8 then .redir cmd file.q file.eq oRdonly 0
  else if tok = '>'.toUInt8 then .redir cmd file.q file.eq (oWronly ||| oCreate) 1
  else if tok = '+'.toUInt8 then .redir cmd file.q file.eq (oWronly ||| oCreate) 1
  else cmd

/-- `parseredirs`. -/
def parseredirs : Nat → Cmd → Parser Cmd
  | 0, _ => Exec.stop .outOfCalls
  | n + 1, cmd => do
    let more ← peek mem es ['<', '>']
    if more then do
      let tok ← gettoken mem es
      let file ← gettoken mem es
      if file.ret ≠ 'a'.toUInt8 then Exec.stop (.panic "missing file for redirection")
      else parseredirs n (redirect tok.ret cmd file)
    else return cmd

/-- Assign {lit}`argv[argc]` and {lit}`eargv[argc]`. -/
def storeArg (argc : Nat) (q eq : Option Nat) (ret : Cmd) : Parser Cmd :=
  if h : argc < maxargs then return ret.setArg ⟨argc, h⟩ q eq else Exec.stop .outOfBounds

/-- The loop of `parseexec`, and what follows it. -/
def parseargs : Nat → Nat → Cmd → Parser Cmd
  | 0, _, _ => Exec.stop .outOfCalls
  | n + 1, argc, ret => do
    let ends ← peek mem es ['|', ')', '&', ';']
    if ends then storeArg argc none none ret
    else do
      let tok ← gettoken mem es
      if tok.ret = 0 then storeArg argc none none ret
      else if tok.ret ≠ 'a'.toUInt8 then Exec.stop (.panic "syntax")
      else do
        let ret ← storeArg argc (some tok.q) (some tok.eq) ret
        if argc + 1 ≥ maxargs then Exec.stop (.panic "too many args")
        else do
          let ret ← parseredirs mem es n ret
          parseargs n (argc + 1) ret

/-- The loop of `parseline`. -/
def parsebacks : Nat → Cmd → Parser Cmd
  | 0, _ => Exec.stop .outOfCalls
  | n + 1, cmd => do
    let more ← peek mem es ['&']
    if more then do
      let _ ← gettoken mem es
      parsebacks n (.back cmd)
    else return cmd

mutual

/-- `parseline`. -/
def parseline : Nat → Parser Cmd
  | 0 => Exec.stop .outOfCalls
  | n + 1 => do
    let cmd ← parsepipe n
    let cmd ← parsebacks mem es n cmd
    let more ← peek mem es [';']
    if more then do
      let _ ← gettoken mem es
      let right ← parseline n
      return .list cmd right
    else return cmd

/-- `parsepipe`. -/
def parsepipe : Nat → Parser Cmd
  | 0 => Exec.stop .outOfCalls
  | n + 1 => do
    let cmd ← parseexec n
    let more ← peek mem es ['|']
    if more then do
      let _ ← gettoken mem es
      let right ← parsepipe n
      return .pipe cmd right
    else return cmd

/-- `parseexec`. -/
def parseexec : Nat → Parser Cmd
  | 0 => Exec.stop .outOfCalls
  | n + 1 => do
    let block ← peek mem es ['(']
    if block then parseblock n
    else do
      let ret ← parseredirs mem es n execcmd
      parseargs mem es n 0 ret

/-- `parseblock`. -/
def parseblock : Nat → Parser Cmd
  | 0 => Exec.stop .outOfCalls
  | n + 1 => do
    let opens ← peek mem es ['(']
    if !opens then Exec.stop (.panic "parseblock")
    else do
      let _ ← gettoken mem es
      let cmd ← parseline n
      let closes ← peek mem es [')']
      if !closes then Exec.stop (.panic "syntax - missing )")
      else do
        let _ ← gettoken mem es
        parseredirs mem es n cmd

end

end Descent

/-! ## Strings -/

/-- The loop of `nulterminate` over the words of a simple command. -/
def nulArgs (argv eargv : Fin maxargs → Option Nat) : List (Fin maxargs) → Exec Mem Stop Unit
  | [] => Exec.stop .outOfBounds
  | i :: is =>
    match argv i, eargv i with
    | none, _ => pure ()
    | some _, none => Exec.stop .nullPointer
    | some _, some e => do
      Exec.modify fun mem => Function.update mem e 0
      nulArgs argv eargv is

/-- `nulterminate`. -/
def nulterminate : Cmd → Exec Mem Stop Unit
  | .exec argv eargv => nulArgs argv eargv (List.finRange maxargs)
  | .redir cmd _ efile _ _ => do
    nulterminate cmd
    Exec.modify fun mem => Function.update mem efile 0
  | .pipe left right => do
    nulterminate left
    nulterminate right
  | .list left right => do
    nulterminate left
    nulterminate right
  | .back cmd => nulterminate cmd

/-- `parsecmd` with `n` calls: the command and the memory. -/
def parsecmd (n : Nat) (str : CString) : Except Stop (Cmd × Mem) :=
  let es := str.addr + strlen str
  let parse : Parser Cmd := do
    let cmd ← parseline str.mem es n
    let _ ← peek str.mem es []
    let s ← Exec.get
    if s ≠ es then Exec.stop (.panic "syntax") else return cmd
  match parse str.addr with
  | .error e => .error e
  | .ok (cmd, _) =>
    match nulterminate cmd str.mem with
    | .error e => .error e
    | .ok (_, mem) => .ok (cmd, mem)

end Xv6.Shell
