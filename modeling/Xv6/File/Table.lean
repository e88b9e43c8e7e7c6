import Xv6.Foundations.Runs
import Xv6.Params

/-!
# File table - Descriptors, file objects and pipe ends

The functions of `file.c`, `sysfile.c`, `pipe.c` and `proc.c` that make, copy and drop
references to file objects: `filealloc`, `filedup` and `fileclose`, `fdalloc`, `pipealloc` and
`pipeclose`, and the calls `sys_open`, `sys_dup`, `sys_close`, `sys_pipe`, `fork`, `exit` and
`wait`.  A call is one step.

What these functions ask of the rest of the kernel is an input of the step: the inode that
`create` or `namei` returned, whether `argptr` accepted its argument, and whether `kalloc` and
`copyuvm` had memory.  Of a pipe only its two flags are kept.  Each call of `pipealloc` that
gets a page makes a new pipe with the next number, and the list {lit}`kfrees` is a history of
the pipes passed to `kfree`.

Main definitions:

- {lit}`fileclose`, {lit}`pipealloc`, {lit}`pipeclose`: file objects and pipes.
- {lit}`sysOpen`, {lit}`sysPipe`, {lit}`fork`, {lit}`exit`: the calls.
- {lit}`fileStep`: one call.
-/

namespace Xv6.Ftable

open Foundations

/-- The type of a file object. -/
inductive FileType
  | none
  | pipe
  | inode
deriving DecidableEq

/-- `struct file`. -/
structure File where
  type : FileType
  ref : Int
  readable : Bool
  writable : Bool
  pipe : Nat
  ip : Nat
  off : Nat

/-- The flags of `struct pipe`. -/
structure Ends where
  readopen : Bool
  writeopen : Bool

/-- `enum procstate`; an active process is `SLEEPING`, `RUNNABLE` or `RUNNING`. -/
inductive ProcState
  | unused
  | embryo
  | active
  | zombie
deriving DecidableEq

/-- The panics of the modelled functions. -/
inductive Panic
  | filedup
  | fileclose
  | initExiting
deriving DecidableEq

/-- An entry of the file table. -/
abbrev FileId := Fin nfile

/-- An entry of the process table. -/
abbrev ProcId := Fin nproc

/-- An entry of the table of open files of a process. -/
abbrev Fd := Fin nofile

/-- The tables. -/
structure Sys where
  file : FileId → File
  ofile : ProcId × Fd → Option FileId
  state : ProcId → ProcState
  ends : Nat → Ends
  pipes : Nat
  kfrees : List Nat
  panic : Option Panic

/-- The process that `userinit` makes. -/
def initproc : ProcId := ⟨0, nproc_pos⟩

/-- The tables when the first process starts. -/
def sysInit : Sys where
  file _ := ⟨.none, 0, false, false, 0, 0, 0⟩
  ofile _ := none
  state p := if p = initproc then .active else .unused
  ends _ := ⟨false, false⟩
  pipes := 0
  kfrees := []
  panic := none

namespace Sys

/-- Change one file object. -/
def setFile (s : Sys) (f : FileId) (x : File) : Sys :=
  { s with file := Function.update s.file f x }

/-- Change one descriptor. -/
def setFd (s : Sys) (p : ProcId) (fd : Fd) (f : Option FileId) : Sys :=
  { s with ofile := Function.update s.ofile (p, fd) f }

/-- Change the state of one process. -/
def setState (s : Sys) (p : ProcId) (x : ProcState) : Sys :=
  { s with state := Function.update s.state p x }

end Sys

/-! ## File objects -/

/-- `filealloc`: only the reference count is set. -/
def filealloc (s : Sys) : Option (FileId × Sys) :=
  ((List.finRange nfile).find? fun f => (s.file f).ref = 0).map fun f =>
    (f, s.setFile f { s.file f with ref := 1 })

/-- `filedup`. -/
def filedup (s : Sys) (f : FileId) : Except Panic Sys :=
  if (s.file f).ref < 1 then .error .filedup
  else .ok (s.setFile f { s.file f with ref := (s.file f).ref + 1 })

/-- The flags after one end is closed. -/
def Ends.close (e : Ends) (writable : Bool) : Ends :=
  if writable then { e with writeopen := false } else { e with readopen := false }

/-- `pipeclose`. -/
def pipeclose (s : Sys) (pipe : Nat) (writable : Bool) : Sys :=
  let e := (s.ends pipe).close writable
  if !e.readopen && !e.writeopen then
    { s with ends := Function.update s.ends pipe e, kfrees := s.kfrees ++ [pipe] }
  else { s with ends := Function.update s.ends pipe e }

/-- `fileclose`; what `iput` does for a file with an inode is not part of the tables. -/
def fileclose (s : Sys) (f : FileId) : Except Panic Sys :=
  if (s.file f).ref < 1 then .error .fileclose
  else if (s.file f).ref - 1 > 0 then
    .ok (s.setFile f { s.file f with ref := (s.file f).ref - 1 })
  else
    let ff := s.file f
    let t := s.setFile f { ff with ref := 0, type := .none }
    if ff.type = .pipe then .ok (pipeclose t ff.pipe ff.writable) else .ok t

/-- The fields that `pipealloc` sets once it has two file objects and a page. -/
def openPipe (s : Sys) (f0 f1 : FileId) : Sys :=
  let t := s.setFile f0
    { s.file f0 with type := .pipe, readable := true, writable := false, pipe := s.pipes }
  let t := t.setFile f1
    { t.file f1 with type := .pipe, readable := false, writable := true, pipe := s.pipes }
  { t with ends := Function.update s.ends s.pipes ⟨true, true⟩, pipes := s.pipes + 1 }

/-- `pipealloc`; `page` says whether `kalloc` returned one. -/
def pipealloc (s : Sys) (page : Bool) : Except Panic (Sys × Option (FileId × FileId)) :=
  match filealloc s with
  | none => .ok (s, none)
  | some (f0, s) =>
    match filealloc s with
    | none => do
      let s ← fileclose s f0
      return (s, none)
    | some (f1, s) =>
      if page then .ok (openPipe s f0 f1, some (f0, f1))
      else do
        let s ← fileclose s f0
        let s ← fileclose s f1
        return (s, none)

/-! ## Descriptors -/

/-- `argfd` on the argument `fd`. -/
def argfd (s : Sys) (p : ProcId) (fd : Int) : Option (Fd × FileId) :=
  if h : 0 ≤ fd ∧ fd < nofile then
    let i : Fd := ⟨fd.toNat, by omega⟩
    (s.ofile (p, i)).map fun f => (i, f)
  else none

/-- `fdalloc`. -/
def fdalloc (s : Sys) (p : ProcId) (f : FileId) : Option (Fd × Sys) :=
  ((List.finRange nofile).find? fun fd => (s.ofile (p, fd)).isNone).map fun fd =>
    (fd, s.setFd p fd (some f))

/-! ## The calls

Each returns the tables and what the call returns. -/

/-- `sys_dup`. -/
def sysDup (s : Sys) (p : ProcId) (fd : Int) : Except Panic (Sys × Int) :=
  match argfd s p fd with
  | none => .ok (s, -1)
  | some (_, f) =>
    match fdalloc s p f with
    | none => .ok (s, -1)
    | some (fd, s) => do
      let s ← filedup s f
      return (s, fd)

/-- `sys_close`. -/
def sysClose (s : Sys) (p : ProcId) (fd : Int) : Except Panic (Sys × Int) :=
  match argfd s p fd with
  | none => .ok (s, -1)
  | some (fd, f) => do
    let s ← fileclose (s.setFd p fd none) f
    return (s, 0)

/-- What `sys_open` stores in the file object: `O_WRONLY` is 1 and `O_RDWR` is 2. -/
def openInode (x : File) (ip : Nat) (omode : UInt32) : File :=
  { x with
    type := .inode, ip := ip, off := 0
    readable := omode &&& 1 == 0
    writable := omode &&& 1 != 0 || omode &&& 2 != 0 }

/-- `sys_open` once it has the inode; none if there is no inode or it may not be opened. -/
def sysOpen (s : Sys) (p : ProcId) (ip : Option Nat) (omode : UInt32) :
    Except Panic (Sys × Int) :=
  match ip with
  | none => .ok (s, -1)
  | some ip =>
    match filealloc s with
    | none => .ok (s, -1)
    | some (f, s) =>
      match fdalloc s p f with
      | none => do
        let s ← fileclose s f
        return (s, -1)
      | some (fd, s) => .ok (s.setFile f (openInode (s.file f) ip omode), fd)

/-- `sys_pipe`; `arg` says whether `argptr` accepted the argument. -/
def sysPipe (s : Sys) (p : ProcId) (arg page : Bool) : Except Panic (Sys × Int) :=
  if !arg then .ok (s, -1)
  else do
    let (s, files) ← pipealloc s page
    match files with
    | none => return (s, -1)
    | some (rf, wf) =>
      match fdalloc s p rf with
      | none =>
        let s ← fileclose s rf
        let s ← fileclose s wf
        return (s, -1)
      | some (fd0, s) =>
        match fdalloc s p wf with
        | none =>
          let s := s.setFd p fd0 none
          let s ← fileclose s rf
          let s ← fileclose s wf
          return (s, -1)
        | some (_, s) => return (s, 0)

/-- The loop of `fork` over the descriptors of the parent. -/
def dupFds (p np : ProcId) : List Fd → Sys → Except Panic Sys
  | [], s => .ok s
  | fd :: fds, s =>
    match s.ofile (p, fd) with
    | none => dupFds p np fds s
    | some f => do
      let s ← filedup s f
      dupFds p np fds (s.setFd np fd (some f))

/-- `fork`: `stack` says whether `allocproc` got a kernel stack, and `copied` whether
`copyuvm` had memory.  It returns the entry of the child for its pid. -/
def fork (s : Sys) (p : ProcId) (stack copied : Bool) : Except Panic (Sys × Int) :=
  match (List.finRange nproc).find? fun np => s.state np = .unused with
  | none => .ok (s, -1)
  | some np =>
    let t := s.setState np .embryo
    if !stack then .ok (t.setState np .unused, -1)
    else if !copied then .ok (t.setState np .unused, -1)
    else do
      let t ← dupFds p np (List.finRange nofile) t
      return (t.setState np .active, np)

/-- The loop of `exit` over the descriptors. -/
def closeFds (p : ProcId) : List Fd → Sys → Except Panic Sys
  | [], s => .ok s
  | fd :: fds, s =>
    match s.ofile (p, fd) with
    | none => closeFds p fds s
    | some f => do
      let s ← fileclose s f
      closeFds p fds (s.setFd p fd none)

/-- `exit`, which does not return. -/
def exit (s : Sys) (p : ProcId) : Except Panic (Sys × Int) :=
  if p = initproc then .error .initExiting
  else do
    let s ← closeFds p (List.finRange nofile) s
    return (s.setState p .zombie, 0)

/-- The calls with their arguments and what the rest of the kernel gives them. -/
inductive Call
  | dup (fd : Int)
  | close (fd : Int)
  | openFile (ip : Option Nat) (omode : UInt32)
  | pipe (arg page : Bool)
  | fork (stack copied : Bool)
  | exit

/-- One call of the process `p`. -/
def call (s : Sys) (p : ProcId) : Call → Except Panic (Sys × Int)
  | .dup fd => sysDup s p fd
  | .close fd => sysClose s p fd
  | .openFile ip omode => sysOpen s p ip omode
  | .pipe arg page => sysPipe s p arg page
  | .fork stack copied => fork s p stack copied
  | .exit => exit s p

/-- What happens: a call by an active process, or `wait` of some process finds a zombie. -/
inductive Act
  | call (p : ProcId) (c : Call)
  | reap (p : ProcId)

/-- One step.  Nothing happens after a panic. -/
def fileStep (s : Sys) : Act → Option Sys
  | .call p c =>
    if s.panic.isNone && s.state p = .active then
      match call s p c with
      | .ok (s, _) => some s
      | .error e => some { s with panic := some e }
    else none
  | .reap p =>
    if s.panic.isNone && s.state p = .zombie then some (s.setState p .unused) else none

end Xv6.Ftable
