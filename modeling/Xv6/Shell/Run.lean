import Xv6.Foundations.Runs
import Xv6.Params
import Xv6.Shell.Parser

/-!
# Shell - Running commands

The function `runcmd` of `sh.c` and the processes it makes.  A process runs `runcmd` up to the
next system call, and the calls of all processes interleave.  A process in which `exec` starts
a program makes any calls from then on.

A table of open files maps descriptors to what they refer to; `open`, `dup` and `pipe` take the
lowest free descriptor, as {lit}`fdalloc` does.  That `open` and `pipe` have the file objects
they need, that a file exists, and that `fork` and `exec` succeed is an input of the step.  A
pipe is numbered when it is made.

The fields {lit}`side` and {lit}`nodes` are a history that no step reads: the commands and the
processes of the node of each pipe, and the side of the node that a process comes from.

Main definitions:

- Definition {lit}`runStep`: the next call of a process that runs `runcmd`.
- Definition {lit}`programStep`: a call of a program.
- Definition {lit}`shStep`: the processes together.
-/

namespace Xv6.Shell

open Foundations

/-! ## Descriptors -/

/-- A descriptor. -/
abbrev Fd := Fin nofile

/-- What a descriptor refers to: something that was open before, a file, or one end of a
pipe. -/
inductive Object
  | inherited (i : Nat)
  | file (k : Nat)
  | readEnd (n : Nat)
  | writeEnd (n : Nat)
deriving DecidableEq

/-- `proc->ofile`. -/
abbrev Fds := Fd → Option Object

/-- `fdalloc`. -/
def fdalloc (t : Fds) (o : Object) : Option (Fd × Fds) :=
  ((List.finRange nofile).find? fun fd => (t fd).isNone).map fun fd =>
    (fd, Function.update t fd (some o))

/-- A call whose result `runcmd` does not look at. -/
inductive Op
  | close (fd : Nat)
  | dup (fd : Nat)
deriving DecidableEq

/-- `sys_close` and `sys_dup`; a descriptor that is not open is refused. -/
def Op.apply (t : Fds) : Op → Fds
  | .close fd => fun i => if i.val = fd then none else t i
  | .dup fd =>
    if h : fd < nofile then
      match t ⟨fd, h⟩ with
      | some o => ((fdalloc t o).map Prod.snd).getD t
      | none => t
    else t

/-- The two descriptors of `pipe`. -/
def pipeFds (t : Fds) (n : Nat) : Option (Fd × Fd × Fds) :=
  match fdalloc t (.readEnd n) with
  | none => none
  | some (p0, t) =>
    match fdalloc t (.writeEnd n) with
    | none => none
    | some (p1, t) => some (p0, p1, t)

/-! ## Processes -/

/-- The side of a pipe. -/
inductive Side
  | left
  | right
deriving DecidableEq

/-- What belongs to a side, of two given. -/
def Side.pick {α : Type} (left right : α) : Side → α
  | .left => left
  | .right => right

/-- Where a process is. -/
inductive Point
  /-- About to call {lit}`runcmd(cmd)`. -/
  | run (cmd : Cmd)
  /-- `REDIR`: the descriptor is closed, about to open the file and to run the command. -/
  | opening (cmd : Cmd)
  /-- `LIST`: in `wait`, before the right command. -/
  | listWait (right : Cmd)
  /-- `PIPE`: the pipe `n` is made, with {lit}`p[0]` and {lit}`p[1]`. -/
  | forkLeft (n p0 p1 : Nat) (left right : Cmd)
  /-- `PIPE`: the left process is forked. -/
  | forkRight (n p0 p1 : Nat) (right : Cmd)
  /-- A forked process of `PIPE`, with calls to go before it runs its command. -/
  | setup (side : Side) (n : Nat) (ops : List Op) (cmd : Cmd)
  /-- `PIPE`: both processes are forked; calls to go. -/
  | closing (n : Nat) (ops : List Op)
  /-- `PIPE`: calls of `wait` to go. -/
  | waiting (k : Nat)
  /-- About to call `exit`. -/
  | exiting
  /-- In a program that `exec` started. -/
  | program
  /-- After `exit`. -/
  | zombie

/-- A process; `parent` is none for children of processes outside. -/
structure Proc where
  point : Point
  fds : Fds
  parent : Option Nat
  side : Nat → Option Side

/-- The calls of the process for one side of a pipe before it runs its command. -/
def setupOps (p0 p1 : Nat) : Side → List Op
  | .left => [.close 1, .dup p1, .close p0, .close p1]
  | .right => [.close 0, .dup p0, .close p0, .close p1]

/-- The process that `PIPE` forks for a side. -/
def Proc.forSide (x : Proc) (side : Side) (n p0 p1 : Nat) (cmd : Cmd) : Proc :=
  { x with
    point := .setup side n (setupOps p0 p1 side) cmd
    side := Function.update x.side n (some side) }

/-- What a call does to the processes. -/
inductive Outcome
  | go (self : Proc)
  /-- A file is opened. -/
  | opened (self : Proc)
  /-- A pipe is made, by `PIPE` if the commands of its sides are given. -/
  | piped (self : Proc) (node : Option (Side → Cmd))
  /-- A process is forked, for a side of a pipe if one is given. -/
  | forked (self child : Proc) (node : Option (Nat × Side))
  | exited

/-- `fork1`, with the rest of the parent and the start of the child. -/
def fork1 (ok : Bool) (self child : Proc) (node : Option (Nat × Side)) : Outcome :=
  if ok then .forked self child node else .exited

/-- The next call of a process that runs `runcmd`, when `files` files and `pipes` pipes were
opened before; none if it is in `wait`. -/
def runStep (files pipes : Nat) (ok : Bool) (x : Proc) : Option Outcome :=
  match x.point with
  | .run (.exec argv _) =>
    if (argv ⟨0, by decide⟩).isNone then some .exited
    else if ok then some (.go { x with point := .program })
    else some .exited
  | .run (.redir cmd _ _ _ fd) =>
    some (.go { x with point := .opening cmd, fds := (Op.close fd).apply x.fds })
  | .run (.list left right) =>
    some (fork1 ok { x with point := .listWait right } { x with point := .run left } none)
  | .run (.pipe left right) =>
    match ok, pipeFds x.fds pipes with
    | true, some (p0, p1, t) =>
      some (.piped { x with point := .forkLeft pipes p0 p1 left right, fds := t }
        (some (Side.pick left right)))
    | _, _ => some .exited
  | .run (.back cmd) =>
    some (fork1 ok { x with point := .exiting } { x with point := .run cmd } none)
  | .opening cmd =>
    match ok, fdalloc x.fds (.file files) with
    | true, some (_, t) => some (.opened { x with point := .run cmd, fds := t })
    | _, _ => some .exited
  | .forkLeft n p0 p1 left right =>
    some (fork1 ok { x with point := .forkRight n p0 p1 right }
      (x.forSide .left n p0 p1 left) (some (n, .left)))
  | .forkRight n p0 p1 right =>
    some (fork1 ok { x with point := .closing n [.close p0, .close p1] }
      (x.forSide .right n p0 p1 right) (some (n, .right)))
  | .setup _ _ [] cmd => some (.go { x with point := .run cmd })
  | .setup side n (op :: ops) cmd =>
    some (.go { x with point := .setup side n ops cmd, fds := op.apply x.fds })
  | .closing _ [] => some (.go { x with point := .waiting 2 })
  | .closing n (op :: ops) =>
    some (.go { x with point := .closing n ops, fds := op.apply x.fds })
  | .waiting 0 => some (.go { x with point := .exiting })
  | .exiting => some .exited
  | .waiting (_ + 1) | .listWait _ | .program | .zombie => none

/-- A call that a program may make. -/
inductive ProgramCall
  | op (op : Op)
  | openFile
  | pipe
  | fork
  | exit

/-- A call of a program that succeeds, or that fails when no descriptor is free. -/
def programStep (files pipes : Nat) (x : Proc) (c : ProgramCall) : Option Outcome :=
  match x.point with
  | .program =>
    match c with
    | .op op => some (.go { x with fds := op.apply x.fds })
    | .openFile =>
      match fdalloc x.fds (.file files) with
      | some (_, t) => some (.opened { x with fds := t })
      | none => some (.go x)
    | .pipe =>
      match pipeFds x.fds pipes with
      | some (_, _, t) => some (.piped { x with fds := t } none)
      | none => some (.go x)
    | .fork => some (.forked x x none)
    | .exit => some .exited
  | _ => none

/-- Where a process is after a call of `wait` returned. -/
def afterWait : Point → Option Point
  | .listWait right => some (.run right)
  | .waiting (k + 1) => some (.waiting k)
  | .program => some .program
  | _ => none

/-! ## The system -/

/-- A `PIPE` node: the process that made the pipe, and the command and the process of each
side. -/
structure Node where
  maker : Nat
  cmd : Side → Cmd
  child : Side → Option Nat

/-- Record the process of a side. -/
def Node.setChild (node : Node) (c : Nat) (side : Side) : Node :=
  { node with child := Function.update node.child side (some c) }

/-- All processes below the shell.  The node of a pipe is none if a program made the pipe. -/
structure Sys where
  procs : Nat → Option Proc
  nextpid : Nat
  files : Nat
  pipes : Nat
  nodes : Nat → Option Node

/-- The process that the shell forks for a command, with three descriptors. -/
def shInit (cmd : Cmd) : Sys where
  procs p := if p = 0 then
    some ⟨.run cmd, fun fd => if fd.val < 3 then some (.inherited fd.val) else none, none,
      fun _ => none⟩
    else none
  nextpid := 1
  files := 0
  pipes := 0
  nodes _ := none

/-- Change one process. -/
def Sys.setProc (s : Sys) (p : Nat) (x : Option Proc) : Sys :=
  { s with procs := Function.update s.procs p x }

/-- `exit`: descriptors are closed, and children are passed to `init`. -/
def Sys.exit (s : Sys) (p : Nat) (x : Proc) : Sys :=
  { s with procs := fun q =>
      if q = p then some { x with point := .zombie, fds := fun _ => none }
      else (s.procs q).map fun y =>
        { y with parent := if y.parent = some p then none else y.parent } }

/-- What a call of process `p` does. -/
def Sys.apply (s : Sys) (p : Nat) (x : Proc) : Outcome → Sys
  | .go y => s.setProc p (some y)
  | .opened y => { s.setProc p (some y) with files := s.files + 1 }
  | .piped y node =>
    { s.setProc p (some y) with
      pipes := s.pipes + 1
      nodes :=
        match node with
        | some cmd => Function.update s.nodes s.pipes (some ⟨p, cmd, fun _ => none⟩)
        | none => s.nodes }
  | .forked y child node =>
    { (s.setProc p (some y)).setProc s.nextpid (some { child with parent := some p }) with
      nextpid := s.nextpid + 1
      nodes :=
        match node with
        | some (n, side) =>
          Function.update s.nodes n ((s.nodes n).map fun node => node.setChild s.nextpid side)
        | none => s.nodes }
  | .exited => s.exit p x

/-- A step. -/
inductive Act
  /-- The next call of `runcmd` in process `p`. -/
  | step (p : Nat) (ok : Bool)
  /-- A call of the program in process `p`. -/
  | program (p : Nat) (c : ProgramCall)
  /-- `wait` of process `p` finds the child `c`, or there is no child. -/
  | wait (p : Nat) (c : Option Nat)
  /-- Process `p` is killed. -/
  | kill (p : Nat)
  /-- A process outside finds its child `p`. -/
  | reap (p : Nat)

/-- `wait` of process `p` finds the child `c` or no child. -/
def Sys.wait (s : Sys) (p : Nat) (x : Proc) (c : Option Nat) : Option Sys :=
  match afterWait x.point, c with
  | none, _ => none
  | some point, none =>
    if (List.range s.nextpid).all fun q => (s.procs q).all fun y => y.parent != some p then
      some (s.setProc p (some { x with point := point }))
    else none
  | some point, some c =>
    match s.procs c with
    | some ⟨.zombie, _, parent, _⟩ =>
      if parent = some p then
        some ((s.setProc c none).setProc p (some { x with point := point }))
      else none
    | _ => none

/-- One step. -/
def shStep (s : Sys) : Act → Option Sys
  | .step p ok =>
    (s.procs p).bind fun x => (runStep s.files s.pipes ok x).map fun o => s.apply p x o
  | .program p c =>
    (s.procs p).bind fun x => (programStep s.files s.pipes x c).map fun o => s.apply p x o
  | .wait p c => (s.procs p).bind fun x => s.wait p x c
  | .kill p => (s.procs p).map fun x => s.exit p x
  | .reap p =>
    match s.procs p with
    | some ⟨.zombie, _, none, _⟩ => some (s.setProc p none)
    | _ => none

end Xv6.Shell
