import Xv6.File.Table
import Xv6.Proc.Table
import Xv6.Vm.PageTable

/-!
# Virtual memory - Processes and their memory

The functions of `proc.c` that give memory to processes: `growproc`, which is `sbrk`, and
`fork`.  A call is one step on the process table, the memory, and the reference counts of
file objects and of entries of the inode cache.

Of `struct proc` the fields are left out that none of these functions reads: `context`,
`chan` and `killed`.  The trap frame is kept apart from the kernel stack that holds it.

Main definitions:

- {lit}`Process`, {lit}`Kernel`: `struct proc` and the state.
- {lit}`growproc`, {lit}`allocproc`, {lit}`fork`: the functions.
-/

namespace Xv6.Vm

open Foundations
open Ftable (ProcId FileId Fd File)
open Proc (ProcState)

/-! ## The state -/

/-- `struct trapframe`. -/
structure TrapFrame where
  rax : UInt64
  rbx : UInt64
  rcx : UInt64
  rdx : UInt64
  rbp : UInt64
  rsi : UInt64
  rdi : UInt64
  r8 : UInt64
  r9 : UInt64
  r10 : UInt64
  r11 : UInt64
  r12 : UInt64
  r13 : UInt64
  r14 : UInt64
  r15 : UInt64
  trapno : UInt64
  err : UInt64
  rip : UInt64
  cs : UInt64
  rflags : UInt64
  rsp : UInt64
  ss : UInt64
deriving DecidableEq

/-- An entry of the inode cache. -/
abbrev InodeId := Fin ninode

/-- `struct proc`; page table and kernel stack are pages. -/
structure Process where
  sz : Nat
  pgdir : Option Nat
  kstack : Option Nat
  state : ProcState
  pid : Int32
  parent : Option ProcId
  tf : TrapFrame
  ofile : Fd → Option FileId
  cwd : Option InodeId
  isProcess : Bool
  name : Bytes 16

/-- Memory, process table and reference counts. -/
structure Kernel where
  machine : Machine
  proc : ProcId → Process
  nextpid : Int32
  file : FileId → File
  inodeRef : InodeId → Int

/-- Kernel code that works on processes. -/
abbrev KernelM := Exec Kernel VmStop

namespace Kernel

/-- Change one process. -/
def setProc (s : Kernel) (p : ProcId) (x : Process) : Kernel :=
  { s with proc := Function.update s.proc p x }

/-- Change the memory. -/
def setMachine (m : Machine) (s : Kernel) : Kernel :=
  { s with machine := m }

@[simp]
theorem setProc_machine (s : Kernel) (p : ProcId) (x : Process) :
    (s.setProc p x).machine = s.machine :=
  rfl

@[simp]
theorem setProc_proc_self (s : Kernel) (p : ProcId) (x : Process) : (s.setProc p x).proc p = x :=
  Function.update_self ..

theorem setProc_proc_of_ne (s : Kernel) {p q : ProcId} (x : Process) (h : q ≠ p) :
    (s.setProc p x).proc q = s.proc q :=
  Function.update_of_ne h ..

@[simp]
theorem setMachine_machine (m : Machine) (s : Kernel) : (setMachine m s).machine = m :=
  rfl

@[simp]
theorem setMachine_proc (m : Machine) (s : Kernel) : (setMachine m s).proc = s.proc :=
  rfl

end Kernel

/-- Code of `vm.c` and `kalloc.c`. -/
def onMemory {α : Type} (x : VmM α) : KernelM α :=
  Exec.zoom Kernel.machine Kernel.setMachine x

/-- Code of `vm.c` on the page table of a process. -/
def onPgdir {α : Type} (p : ProcId) (x : Nat → VmM α) : KernelM α := do
  let s ← Exec.get
  match (s.proc p).pgdir with
  | none => Exec.stop .nullPointer
  | some pgdir => onMemory (x pgdir)

/-! ## Growing and shrinking -/

/-- `sz + n` as an `addr_t`. -/
def addSigned (sz : Nat) (n : Int64) : Nat :=
  ((sz + n.toInt) % 2 ^ 64).toNat

/-- `switchuvm`, as far as it can fail. -/
def switchuvm (p : ProcId) : KernelM Unit := do
  let s ← Exec.get
  match (s.proc p).pgdir with
  | none => Exec.stop .switchuvmNoPgdir
  | some _ => pure ()

/-- The end of `growproc`. -/
def setSize (p : ProcId) (sz : Nat) : KernelM Int := do
  Exec.modify fun s => s.setProc p { s.proc p with sz := sz }
  switchuvm p
  pure 0

/-- `growproc` by process `p`. -/
def growproc (p : ProcId) (n : Int64) : KernelM Int := do
  let s ← Exec.get
  let sz := (s.proc p).sz
  if n > 0 then do
    let sz ← onPgdir p fun pgdir => allocuvm pgdir sz (addSigned sz n)
    if sz = 0 then pure (-1) else setSize p sz
  else if n < 0 then do
    let sz ← onPgdir p fun pgdir => deallocuvm pgdir sz (addSigned sz n)
    if sz = 0 then pure (-1) else setSize p sz
  else
    setSize p sz

/-! ## New processes -/

/-- `allocproc`, without the parts of the stack that only `swtch` reads. -/
def allocproc : KernelM (Option ProcId) := do
  let s ← Exec.get
  match (List.finRange nproc).find? fun np => (s.proc np).state = .unused with
  | none => pure none
  | some np => do
    Exec.modify fun s => { s.setProc np { s.proc np with
      state := .embryo, pid := s.nextpid, isProcess := true } with
      nextpid := s.nextpid + 1 }
    let kstack ← onMemory kalloc
    Exec.modify fun s => s.setProc np { s.proc np with kstack := kstack }
    if kstack = none then do
      Exec.modify fun s => s.setProc np { s.proc np with state := .unused }
      pure none
    else
      pure (some np)

/-- `filedup`. -/
def filedup (f : FileId) : KernelM Unit := do
  let s ← Exec.get
  if (s.file f).ref < 1 then
    Exec.stop .filedup
  else
    Exec.modify fun s => { s with
      file := Function.update s.file f { s.file f with ref := (s.file f).ref + 1 } }

/-- `idup`. -/
def idup (ip : Option InodeId) : KernelM Unit :=
  match ip with
  | none => Exec.stop .nullPointer
  | some ip => Exec.modify fun s => { s with
      inodeRef := Function.update s.inodeRef ip (s.inodeRef ip + 1) }

/-- One round of the loop of `fork` over the open files. -/
def dupFile (p np : ProcId) (i : Fd) : KernelM Unit := do
  let s ← Exec.get
  match (s.proc p).ofile i with
  | none => pure ()
  | some f => do
    filedup f
    Exec.modify fun s => s.setProc np { s.proc np with
      ofile := Function.update (s.proc np).ofile i (some f) }

/-- `safestrcpy` to `name`.  It steps over the zero byte before it stores the last one. -/
def safestrcpy (s : Bytes 16) (t : List UInt8) : Bytes 16 :=
  let text := (t.takeWhile (· ≠ 0)).take 15
  s.overwrite 0 (if text.length < 15 then text ++ [0, 0] else text ++ [0])

/-- `fork` after `copyuvm` returned the page table `d`. -/
def forkCopy (p np : ProcId) (d : Nat) : KernelM Int := do
  Exec.modify fun s => s.setProc np { s.proc np with
    pgdir := some d, sz := (s.proc p).sz, parent := some p, tf := { (s.proc p).tf with rax := 0 } }
  Exec.forEach (dupFile p np) (List.finRange nofile)
  let s ← Exec.get
  idup (s.proc p).cwd
  Exec.modify fun s => s.setProc np { s.proc np with
    cwd := (s.proc p).cwd
    name := safestrcpy (s.proc np).name ((s.proc p).name.slice 0 16)
    state := .runnable }
  let s ← Exec.get
  pure (s.proc np).pid.toInt

/-- Give back the kernel stack of `np`. -/
def freeStack (np : ProcId) : KernelM Unit := do
  let s ← Exec.get
  match (s.proc np).kstack with
  | none => Exec.stop .kfree
  | some f => do
    onMemory (kfree f)
    Exec.modify fun s => s.setProc np { s.proc np with kstack := none }

/-- `fork` by process `p`. -/
def fork (p : ProcId) : KernelM Int := do
  match ← allocproc with
  | none => pure (-1)
  | some np => do
    let s ← Exec.get
    match ← onPgdir p fun pgdir => copyuvm pgdir (s.proc p).sz with
    | none => do
      Exec.modify fun s => s.setProc np { s.proc np with pgdir := none }
      freeStack np
      Exec.modify fun s => s.setProc np { s.proc np with state := .unused }
      pure (-1)
    | some d => forkCopy p np d

end Xv6.Vm
