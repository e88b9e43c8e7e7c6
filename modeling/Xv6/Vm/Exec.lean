import Xv6.Vm.Process

/-!
# Virtual memory - `exec`

`exec` builds a new address space from an ELF file, puts the arguments on a new stack and then
gives the address space to the process.  Up to that point every failure goes to the label `bad`,
where the new address space is freed.

What the file system does is a parameter: {lit}`found` is the entry of the inode cache that `namei`
returned for the path, with the contents of the file, which is locked while it is read.  Of the
headers the fields are left out that `exec` does not read.

Main definitions:

- {lit}`ElfHdr`, {lit}`ProgHdr`: the headers, and how they are read.
- {lit}`loadSegments`: the loop over the program headers.
- {lit}`makeStack`, {lit}`pushArgs`: the stack and the arguments.
- {lit}`exec`: the function.
-/

namespace Xv6.Vm

open Foundations
open Ftable (ProcId)

/-! ## Headers -/

/-- `MAXARG`. -/
def maxarg : Nat := 32

/-- `ELF_MAGIC`. -/
def elfMagic : UInt32 := 0x464C457F

/-- `ELF_PROG_LOAD`. -/
def elfProgLoad : UInt32 := 1

/-- `sizeof(struct elfhdr)`. -/
def elfhdrSize : Nat := 64

/-- `sizeof(struct proghdr)`. -/
def proghdrSize : Nat := 56

/-- `struct elfhdr`. -/
structure ElfHdr where
  magic : UInt32
  entry : UInt64
  phoff : UInt64
  phnum : UInt16
deriving DecidableEq

/-- `struct proghdr`. -/
structure ProgHdr where
  type : UInt32
  off : UInt64
  vaddr : UInt64
  filesz : UInt64
  memsz : UInt64
deriving DecidableEq

/-- A field of a structure that is given by its bytes. -/
def field {α : Type} (L : Layout α) (bytes : List UInt8) (off : Nat) : α :=
  L.decode ((bytes.drop off).take L.width)

/-- The bytes of a `struct elfhdr`. -/
def ElfHdr.ofBytes (bytes : List UInt8) : ElfHdr where
  magic := field Layout.u32 bytes 0
  entry := field Layout.u64 bytes 24
  phoff := field Layout.u64 bytes 32
  phnum := field Layout.u16 bytes 56

/-- The bytes of a `struct proghdr`. -/
def ProgHdr.ofBytes (bytes : List UInt8) : ProgHdr where
  type := field Layout.u32 bytes 0
  off := field Layout.u64 bytes 8
  vaddr := field Layout.u64 bytes 16
  filesz := field Layout.u64 bytes 32
  memsz := field Layout.u64 bytes 40

/-- `readi` that has to return `n`. -/
def readAll (file : List UInt8) (off n : Nat) : Option (List UInt8) :=
  (readFile file off n).filter fun bytes => bytes.length = n

/-- The ELF header of a file. -/
def readElfHdr (file : List UInt8) : Option ElfHdr :=
  (readAll file 0 elfhdrSize).map ElfHdr.ofBytes

/-- The program header at `off`, which becomes an `uint`. -/
def readProgHdr (file : List UInt8) (off : Nat) : Option ProgHdr :=
  (readAll file (off % 2 ^ 32) proghdrSize).map ProgHdr.ofBytes

/-- The program headers of a file, `none` where one cannot be read. -/
def progHdrs (file : List UInt8) (elf : ElfHdr) : List (Option ProgHdr) :=
  (List.range elf.phnum.toNat).map fun i =>
    readProgHdr file (elf.phoff.toNat + i * proghdrSize)

/-! ## Segments -/

/-- One round of the loop over the program headers, for a header that is to be loaded; the result
is the new size, or `none` for a jump to `bad`. -/
def loadSegment (load : Loader) (pgdir : Nat) (file : List UInt8) (ph : ProgHdr) (sz : Nat) :
    VmM (Option Nat) := do
  if ph.memsz < ph.filesz then
    pure none
  else if ph.vaddr + ph.memsz < ph.vaddr then
    pure none
  else do
    let sz ← allocuvm pgdir sz (ph.vaddr + ph.memsz).toNat
    if sz = 0 then
      pure none
    else if ph.vaddr.toNat % pgsize ≠ 0 then
      pure none
    else do
      let done ← load pgdir ph.vaddr.toNat file ph.off.toNat ph.filesz.toNat
      pure (if done then some sz else none)

/-- The loop over the program headers. -/
def loadSegments (load : Loader) (pgdir : Nat) (file : List UInt8) :
    List (Option ProgHdr) → Nat → VmM (Option Nat)
  | [], sz => pure (some sz)
  | none :: _, _ => pure none
  | some ph :: phs, sz =>
    if ph.type ≠ elfProgLoad then
      loadSegments load pgdir file phs sz
    else do
      match ← loadSegment load pgdir file ph sz with
      | none => pure none
      | some sz => loadSegments load pgdir file phs sz

/-! ## The stack -/

/-- `a - n` as an `addr_t`. -/
def subAddr (a n : Nat) : Nat :=
  (a + 2 ^ 64 - n) % 2 ^ 64

/-- Where a string goes that is pushed at `sp`. -/
def pushAddr (sp : Nat) (arg : List UInt8) : Nat :=
  subAddr sp (arg.length + 1) / 8 * 8

/-- The loop over the arguments; the addresses of those pushed before are in `ptrs`. -/
def pushArgs (pgdir : Nat) : List (List UInt8) → Nat → List Nat → VmM (Option (Nat × List Nat))
  | [], sp, ptrs => pure (some (sp, ptrs))
  | arg :: args, sp, ptrs =>
    if ptrs.length ≥ maxarg then
      pure none
    else do
      let r ← copyout pgdir (pushAddr sp arg) (arg ++ [0])
      if r < 0 then
        pure none
      else
        pushArgs pgdir args (pushAddr sp arg) (ptrs ++ [pushAddr sp arg])

/-- Two pages above `sz`, of which the first is made inaccessible, and the arguments: the new size,
the stack pointer and the addresses of the arguments. -/
def makeStack (pgdir sz : Nat) (argv : List (List UInt8)) :
    VmM (Option (Nat × Nat × List Nat)) := do
  let sz ← allocuvm pgdir sz ((sz + 2 * pgsize) % 2 ^ 64)
  if sz = 0 then
    pure none
  else do
    clearpteu pgdir (subAddr sz (2 * pgsize))
    match ← pushArgs pgdir argv sz [] with
    | none => pure none
    | some (sp, ptrs) => pure (some (sz, sp, ptrs))

/-- The address of the array of pointers below `sp`. -/
def argvAddr (sp argc : Nat) : Nat :=
  subAddr sp ((argc + 1) * 8)

/-- The stack pointer of the new program. -/
def stackAddr (sp argc : Nat) : Nat :=
  subAddr sp ((3 + argc + 1) * 8)

/-- `ustack`: a fake return address, `argc`, the address of the array, and the array. -/
def ustack (sp : Nat) (ptrs : List Nat) : List Nat :=
  [0xffffffff, ptrs.length, argvAddr sp ptrs.length] ++ ptrs ++ [0]

/-- Words as they are in memory. -/
def wordBytes (words : List Nat) : List UInt8 :=
  words.flatMap (encodeLE 8)

/-! ## The function -/

/-- The part of a path after the last slash. -/
def lastElement (path : List UInt8) : List UInt8 :=
  (path.reverse.takeWhile (· ≠ 47)).reverse

/-- The references to an inode change by `d`. -/
def Kernel.addRef (s : Kernel) (ip : InodeId) (d : Int) : Kernel :=
  { s with inodeRef := Function.update s.inodeRef ip (s.inodeRef ip + d) }

/-- A reference to an inode is taken or dropped. -/
def addRef (ip : InodeId) (d : Int) : KernelM Unit :=
  Exec.modify fun s => s.addRef ip d

/-- The label `bad`, when the file was closed before. -/
def execBad (pgdir : Nat) : KernelM Int := do
  onMemory (freevm (some pgdir))
  pure (-1)

/-- The registers for the arguments of the program. -/
def TrapFrame.setArgs (tf : TrapFrame) (argc argv : Nat) : TrapFrame :=
  { tf with rdi := UInt64.ofNat argc, rsi := UInt64.ofNat argv }

/-- The registers with which the program starts. -/
def TrapFrame.start (tf : TrapFrame) (entry : UInt64) (sp : Nat) : TrapFrame :=
  { tf with rip := entry, rcx := entry, rsp := UInt64.ofNat sp }

/-- The end of `exec`: the process gets the new image. -/
def commitImage (p : ProcId) (path : List UInt8) (pgdir sz sp : Nat) (entry : UInt64) :
    KernelM Int := do
  let s ← Exec.get
  let oldpgdir := (s.proc p).pgdir
  Exec.modify fun s => s.setProc p { s.proc p with
    name := safestrcpy (s.proc p).name (lastElement path)
    pgdir := some pgdir
    sz := sz
    tf := (s.proc p).tf.start entry sp }
  switchuvm p
  onMemory (freevm oldpgdir)
  pure 0

/-- `exec` after the arguments were pushed: their number and the array of pointers. -/
def execFrame (p : ProcId) (path : List UInt8) (pgdir sz sp : Nat) (ptrs : List Nat)
    (entry : UInt64) : KernelM Int := do
  Exec.modify fun s => s.setProc p { s.proc p with
    tf := (s.proc p).tf.setArgs ptrs.length (argvAddr sp ptrs.length) }
  let r ← onMemory (copyout pgdir (stackAddr sp ptrs.length) (wordBytes (ustack sp ptrs)))
  if r < 0 then
    execBad pgdir
  else
    commitImage p path pgdir sz (stackAddr sp ptrs.length) entry

/-- `exec` after the file was loaded and closed. -/
def execStack (p : ProcId) (path : List UInt8) (pgdir sz : Nat) (entry : UInt64)
    (argv : List (List UInt8)) : KernelM Int := do
  match ← onMemory (makeStack pgdir (pgroundup sz) argv) with
  | none => execBad pgdir
  | some (sz, sp, ptrs) => execFrame p path pgdir sz sp ptrs entry

/-- `exec` by process `p`, with the given way to load segments. -/
def execWith (load : Loader) (p : ProcId) (path : List UInt8)
    (found : Option (InodeId × List UInt8)) (argv : List (List UInt8)) : KernelM Int := do
  match found with
  | none => pure (-1)
  | some (ip, file) => do
    addRef ip 1
    match (readElfHdr file).filter fun elf => elf.magic = elfMagic with
    | none => do
      addRef ip (-1)
      pure (-1)
    | some elf => do
      let pgdir ← onMemory setupkvm
      match ← onMemory (loadSegments load pgdir file (progHdrs file elf) pgsize) with
      | none => do
        let r ← execBad pgdir
        addRef ip (-1)
        pure r
      | some sz => do
        addRef ip (-1)
        execStack p path pgdir sz elf.entry argv

/-- `exec`. -/
def exec : ProcId → List UInt8 → Option (InodeId × List UInt8) → List (List UInt8) → KernelM Int :=
  execWith loaduvm

end Xv6.Vm
