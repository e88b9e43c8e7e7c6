import Xv6.Foundations.Program
import Xv6.Fs.Layout

/-!
# File system - Blocks, inodes and their contents

The functions of `fs.c` below the directory level, with the parts of `log.c` and
`file.c` that they call, as computations on the kernel state.  The disk is the
contents that `bread` returns, so a buffer that was modified and passed to
`log_write` is already part of it.  There is one device, so the `dev` fields are
left out.

Calls run one after the other: a lock that is taken stays taken, so waiting for
it stops the system, as does a `panic`.

Main definitions:

- {lit}`balloc`, {lit}`bfree`, {lit}`bmap`, {lit}`itrunc`: allocation of blocks.
- {lit}`iget`, {lit}`ilock`, {lit}`iput`, {lit}`iupdate`: the inode cache.
- {lit}`readi`, {lit}`writei`: file contents.
-/

namespace Xv6.Fs

open Foundations

/-! ## Kernel state -/

/-- Why a call does not return: a `panic`, or waiting for something that never
happens. -/
inductive Stop
  | tooBigATransaction
  | logWriteOutsideOfTrans
  /-- `balloc` finds no free block; `lh` is the log at that point. -/
  | ballocOutOfBlocks (lh : List Nat)
  | freeingFreeBlock
  | igetNoInodes
  | ilock
  | ilockNoType
  | iunlock
  | bmapOutOfRange
  | dirlookupNotDir
  | dirlookupRead
  | dirlinkRead
  | dirlink
  | unlinkWritei
  | filewrite
  | shortFilewrite
  /-- `begin_op` sleeps and nobody ends an operation. -/
  | beginOpSleeps
  /-- `acquiresleep` of a lock that is not released. -/
  | deadlock
  /-- A null pointer is followed. -/
  | nullPointer
  /-- The call goes to the console driver, which is not modelled. -/
  | console
  /-- The call goes to a pipe, which is not modelled. -/
  | pipe
deriving DecidableEq

/-- `struct inode`: an entry of the inode cache.  `lock` is the holder of the
sleep-lock, `valid` the flag `I_VALID`, `copy` the fields of the inode on disk. -/
structure Inode where
  inum : Nat
  ref : Int
  lock : Option (Fin nproc)
  valid : Bool
  copy : Dinode

/-- `FD_NONE`, `FD_PIPE`, `FD_INODE`. -/
inductive FileType
  | none
  | pipe
  | inode
deriving DecidableEq

/-- `struct file`, with pointers `ι` to inodes. -/
structure File (ι : Type) where
  type : FileType
  ref : Int
  readable : Bool
  writable : Bool
  ip : Option ι
  off : UInt32
deriving DecidableEq

/-- The fields of `struct proc` that the file system uses. -/
structure Proc where
  ofile : Fin nofile → Option (Fin nfile)
  cwd : Option (Fin ninode)
deriving DecidableEq

/-- The kernel state that the file system works on. -/
structure FsState where
  disk : Disk
  sb : Superblock
  lh : List Nat
  outstanding : Int
  icache : Fin ninode → Inode
  ftable : Fin nfile → File (Fin ninode)
  proc : Fin nproc → Proc
  initproc : Fin nproc

/-- Computations on the kernel state. -/
abbrev FsM := Exec FsState Stop

/-- The loop `for(k = 0; k < n; k++)`. -/
def upTo : Nat → (Nat → FsM Unit) → FsM Unit
  | 0, _ => pure ()
  | n + 1, f => do
    upTo n f
    f n

-- a loop with a fixed bound is reasoned about, never unrolled
attribute [irreducible] upTo

/-! ## Log -/

/-- Change the contents of a block. -/
def bmodify (b : Nat) (f : Block → Block) : FsM Unit :=
  Exec.modify fun s => { s with disk := Function.update s.disk b (f (s.disk b)) }

/-- `begin_op`. -/
def beginOp : FsM Unit := do
  let s ← Exec.get
  if s.lh.length + (s.outstanding + 1) * maxopblocks > logsize then
    Exec.stop .beginOpSleeps
  else Exec.modify fun s => { s with outstanding := s.outstanding + 1 }

/-- `end_op`; the commit leaves the contents of the blocks as they are. -/
def endOp : FsM Unit :=
  Exec.modify fun s =>
    { s with outstanding := s.outstanding - 1,
             lh := if s.outstanding - 1 = 0 then [] else s.lh }

/-- `log_write`. -/
def logWrite (b : Nat) : FsM Unit := do
  let s ← Exec.get
  if s.lh.length ≥ logsize ∨ (s.lh.length : Int) ≥ (s.sb.nlog : Int) - 1 then
    Exec.stop .tooBigATransaction
  else if s.outstanding < 1 then Exec.stop .logWriteOutsideOfTrans
  else Exec.modify fun s => { s with lh := if b ∈ s.lh then s.lh else s.lh ++ [b] }

/-! ## Blocks -/

/-- `bzero`. -/
def bzero (b : Nat) : FsM Unit := do
  bmodify b fun _ => Bytes.zero bsize
  logWrite b

/-- The block that the two loops of `balloc` find. -/
def freeBlock (sb : Superblock) (d : Disk) : Option Nat :=
  (List.range ((sb.size + bpb - 1) / bpb)).findSome? fun k =>
    ((List.range bpb).find? fun bi =>
      k * bpb + bi < sb.size ∧ bitSet sb d (k * bpb + bi) = false).map fun bi => k * bpb + bi

/-- `balloc`. -/
def balloc : FsM Nat := do
  let s ← Exec.get
  match freeBlock s.sb s.disk with
  | none => Exec.stop (.ballocOutOfBlocks s.lh)
  | some b => do
    Exec.modify fun s => { s with disk := setBit s.sb s.disk b }
    logWrite (bblock s.sb b)
    bzero b
    return b

/-- `bfree`. -/
def bfree (b : Nat) : FsM Unit := do
  Exec.modify fun s => { s with sb := readsb s.disk }
  let s ← Exec.get
  if bitSet s.sb s.disk b = false then Exec.stop .freeingFreeBlock
  else do
    Exec.modify fun s => { s with disk := clearBit s.sb s.disk b }
    logWrite (bblock s.sb b)

/-! ## Inode cache -/

/-- Change an entry of the cache. -/
def setInode (ip : Fin ninode) (f : Inode → Inode) : FsM Unit :=
  Exec.modify fun s => { s with icache := Function.update s.icache ip (f (s.icache ip)) }

/-- Change the copy of the inode in an entry of the cache. -/
def setCopy (ip : Fin ninode) (f : Dinode → Dinode) : FsM Unit :=
  setInode ip fun x => { x with copy := f x.copy }

/-- The entry `iget` chooses: the one that caches the inode, else the first empty
one.  What an entry caches is its `key`, which here is the inode number. -/
def igetSlot {κ : Type} [DecidableEq κ] (key : Fin ninode → κ) (ref : Fin ninode → Int) (i : κ) :
    Option (Fin ninode) :=
  match (List.finRange ninode).find? fun k => 0 < ref k ∧ key k = i with
  | some k => some k
  | none => (List.finRange ninode).find? fun k => ref k = 0

theorem igetSlot_some {κ : Type} [DecidableEq κ] {key : Fin ninode → κ} {ref : Fin ninode → Int}
    {i : κ} {k : Fin ninode} (h : igetSlot key ref i = some k) :
    0 < ref k ∧ key k = i ∨ ref k = 0 ∧ ∀ l, 0 < ref l → key l ≠ i := by
  unfold igetSlot at h
  split at h
  · rename_i l hl
    have hfound := List.find?_some hl
    rw [Option.some.injEq] at h
    subst h
    exact Or.inl (by simpa using hfound)
  · rename_i hnone
    have hfound := List.find?_some h
    refine Or.inr ⟨by simpa using hfound, ?_⟩
    intro l hl hi
    have hl' := List.find?_eq_none.mp hnone l (List.mem_finRange l)
    simp [hl, hi] at hl'

/-- `iget`. -/
def iget (i : Nat) : FsM (Fin ninode) := do
  let s ← Exec.get
  match igetSlot (fun k => (s.icache k).inum) (fun k => (s.icache k).ref) i with
  | none => Exec.stop .igetNoInodes
  | some ip => do
    setInode ip fun x =>
      if 0 < x.ref then { x with ref := x.ref + 1 }
      else { x with inum := i, ref := 1, valid := false }
    return ip

/-- `idup`. -/
def idup (ip : Fin ninode) : FsM Unit :=
  setInode ip fun x => { x with ref := x.ref + 1 }

/-- `iupdate`. -/
def iupdate (ip : Fin ninode) : FsM Unit := do
  let s ← Exec.get
  let x := s.icache ip
  Exec.modify fun s => { s with disk := putDinode s.sb s.disk x.inum x.copy }
  logWrite (iblock s.sb x.inum)

/-- `ilock`. -/
def ilock (p : Fin nproc) (ip : Fin ninode) : FsM Unit := do
  let s ← Exec.get
  if (s.icache ip).ref < 1 then Exec.stop .ilock
  else if (s.icache ip).lock ≠ none then Exec.stop .deadlock
  else do
    setInode ip fun x => { x with lock := some p }
    if (s.icache ip).valid then pure ()
    else do
      setInode ip fun x => { x with copy := dinodeAt s.sb s.disk x.inum, valid := true }
      if (dinodeAt s.sb s.disk (s.icache ip).inum).type = 0 then Exec.stop .ilockNoType
      else pure ()

/-- `iunlock`. -/
def iunlock (p : Fin nproc) (ip : Fin ninode) : FsM Unit := do
  let s ← Exec.get
  if (s.icache ip).lock ≠ some p ∨ (s.icache ip).ref < 1 then Exec.stop .iunlock
  else setInode ip fun x => { x with lock := none }

/-- A fresh inode of the given type, as `ialloc` leaves it on disk. -/
def Dinode.fresh (type : Int16) : Dinode :=
  ⟨type, 0, 0, 0, 0, fun _ => 0⟩

/-! ## Block map -/

/-- `addrs[k]`. -/
def Dinode.addr (x : Dinode) (k : Nat) : UInt32 :=
  if h : k < 13 then x.addrs ⟨k, h⟩ else 0

/-- `addrs[k] = a`. -/
def Dinode.setAddr (x : Dinode) (k : Nat) (a : UInt32) : Dinode :=
  { x with addrs := fun i => if i.val = k then a else x.addrs i }

/-- Entry `j` of an indirect block. -/
def indirectEntry (block : Block) (j : Nat) : UInt32 :=
  block.read Layout.u32 (4 * j)

/-- `ip->addrs[k]`, allocated when it is zero. -/
def mapAddr (ip : Fin ninode) (k : Nat) : FsM Nat := do
  let s ← Exec.get
  let addr := (s.icache ip).copy.addr k
  if addr = 0 then do
    let b ← balloc
    setCopy ip fun x => x.setAddr k (UInt32.ofNat b)
    return b
  else return addr.toNat

/-- `a[j]` of the indirect block `b`, allocated when it is zero. -/
def mapEntry (b j : Nat) : FsM Nat := do
  let s ← Exec.get
  let addr := indirectEntry (s.disk b) j
  if addr = 0 then do
    let c ← balloc
    bmodify b fun block => block.write Layout.u32 (4 * j) (UInt32.ofNat c)
    logWrite b
    return c
  else return addr.toNat

/-- `bmap`. -/
def bmap (ip : Fin ninode) (bn : Nat) : FsM Nat :=
  if bn < ndirect then mapAddr ip bn
  else if bn - ndirect < nindirect then do
    let b ← mapAddr ip ndirect
    mapEntry b (bn - ndirect)
  else Exec.stop .bmapOutOfRange

/-- Free `ip->addrs[k]` and clear it. -/
def truncAddr (ip : Fin ninode) (k : Nat) : FsM Unit := do
  let s ← Exec.get
  let addr := (s.icache ip).copy.addr k
  if addr = 0 then pure ()
  else do
    bfree addr.toNat
    setCopy ip fun x => x.setAddr k 0

/-- Free the block in entry `j` of the indirect block `b`. -/
def truncEntry (b j : Nat) : FsM Unit := do
  let s ← Exec.get
  let addr := indirectEntry (s.disk b) j
  if addr = 0 then pure () else bfree addr.toNat

/-- The part of `itrunc` about the indirect block. -/
def truncIndirect (ip : Fin ninode) : FsM Unit := do
  let s ← Exec.get
  let addr := (s.icache ip).copy.addr ndirect
  if addr = 0 then pure ()
  else do
    upTo nindirect (truncEntry addr.toNat)
    truncAddr ip ndirect

/-- `itrunc`. -/
def itrunc (ip : Fin ninode) : FsM Unit := do
  upTo ndirect (truncAddr ip)
  truncIndirect ip
  setCopy ip fun x => { x with size := 0 }
  iupdate ip

/-- The part of `iput` that frees an inode without links and other references. -/
def ifree (ip : Fin ninode) : FsM Unit := do
  itrunc ip
  setCopy ip fun x => { x with type := 0 }
  iupdate ip
  setInode ip fun x => { x with valid := false }

/-- `iput`. -/
def iput (ip : Fin ninode) : FsM Unit := do
  let s ← Exec.get
  let x := s.icache ip
  if x.ref = 1 ∧ x.valid ∧ x.copy.nlink = 0 then do
    ifree ip
    setInode ip fun x => { x with ref := x.ref - 1 }
  else setInode ip fun x => { x with ref := x.ref - 1 }

/-! ## Contents -/

/-- Device number of the console, the only entry of `devsw`. -/
def consoleMajor : Int16 := 1

/-- The loop of `readi`: `rest` bytes from `off`. -/
def readLoop (ip : Fin ninode) : Nat → Nat → Nat → FsM (List UInt8)
  | 0, _, _ => pure []
  | fuel + 1, off, rest =>
    if rest = 0 then pure []
    else do
      let b ← bmap ip (off / bsize)
      let s ← Exec.get
      let m := min rest (bsize - off % bsize)
      let more ← readLoop ip fuel (off + m) (rest - m)
      return (s.disk b).slice (off % bsize) m ++ more

/-- `readi`; `none` is the result -1.  Every round of the loop reads at least one
byte, so `n` rounds are enough. -/
def readi (ip : Fin ninode) (off n : UInt32) : FsM (Option (List UInt8)) := do
  let s ← Exec.get
  let x := (s.icache ip).copy
  if x.type = tDev then
    if x.major = consoleMajor then Exec.stop .console else return none
  else if off > x.size ∨ off + n < off then return none
  else do
    let n := if off + n > x.size then x.size - off else n
    let bytes ← readLoop ip n.toNat off.toNat n.toNat
    return some bytes

/-- The loop of `writei`. -/
def writeLoop (ip : Fin ninode) : Nat → Nat → List UInt8 → FsM Unit
  | 0, _, _ => pure ()
  | fuel + 1, off, src =>
    if src = [] then pure ()
    else do
      let b ← bmap ip (off / bsize)
      let m := min src.length (bsize - off % bsize)
      bmodify b fun block => block.overwrite (off % bsize) (src.take m)
      logWrite b
      writeLoop ip fuel (off + m) (src.drop m)

/-- `writei` of the bytes `src`; `none` is the result -1. -/
def writei (ip : Fin ninode) (src : List UInt8) (off : UInt32) : FsM (Option UInt32) := do
  let s ← Exec.get
  let x := (s.icache ip).copy
  let n := UInt32.ofNat src.length
  if x.type = tDev then
    if x.major = consoleMajor then return some n else return none
  else if off > x.size ∨ off + n < off then return none
  else if (off + n).toNat > maxfile * bsize then return none
  else do
    writeLoop ip src.length off.toNat src
    if n > 0 ∧ off + n > x.size then do
      setCopy ip fun x => { x with size := off + n }
      iupdate ip
      return some n
    else return some n

end Xv6.Fs
