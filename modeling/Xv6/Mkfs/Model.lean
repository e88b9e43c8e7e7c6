import Xv6.Foundations.Program
import Xv6.Fs.Calls

/-!
# mkfs - The program

The program that builds the initial file system on the host.  It writes the image sector by
sector, hands out inode numbers and blocks by counting, and marks the blocks in the free map at
the end.  A failed read of the image ends it with status 1, and a failed assertion aborts it.

The state keeps the sectors written so far with what they were written for; the program does
not read this.
-/

namespace Xv6.Mkfs

open Foundations Xv6.Fs

/-! ## Layout -/

/-- `FSSIZE`: blocks of the file system. -/
def fssize : Nat := 1000

/-- `NINODES`. -/
def ninodes : Nat := 200

/-- `nbitmap`. -/
def nbitmap : Nat := fssize / (bsize * 8) + 1

/-- `ninodeblocks`. -/
def ninodeblocks : Nat := ninodes / ipb + 1

/-- `nlog`. -/
def nlog : Nat := logsize

/-- `nmeta`. -/
def nmeta : Nat := 2 + nlog + ninodeblocks + nbitmap

/-- `nblocks`. -/
def nblocks : Nat := fssize - nmeta

/-- `sb`. -/
def sb : Superblock where
  size := fssize
  nblocks := nblocks
  ninodes := ninodes
  nlog := nlog
  logstart := 2
  inodestart := 2 + nlog
  bmapstart := 2 + nlog + ninodeblocks

/-- The bytes of the superblock, with `xint` applied to each field. -/
def sbBytes : List UInt8 :=
  [sb.size, sb.nblocks, sb.ninodes, sb.nlog, sb.logstart, sb.inodestart, sb.bmapstart].flatMap
    fun w => encodeLE 4 w

/-! ## The image file -/

/-- How the program ends other than with status 0: `exit(1)`, or a failed `assert`. -/
inductive Exit
  | failure
  | abort
deriving DecidableEq

/-- What a sector is written for. -/
inductive Purpose
  | clear
  | super
  | inode
  | data
  | bitmap
deriving DecidableEq

/-- The image, its length in sectors, the counters `freeinode` and `freeblock`, and the sectors
written so far. -/
structure MkState where
  image : Disk
  sectors : Nat
  freeinode : Nat
  freeblock : Nat
  writes : List (Purpose × Nat)

/-- The image was just created. -/
def MkState.start : MkState where
  image _ := Bytes.zero bsize
  sectors := 0
  freeinode := 1
  freeblock := nmeta
  writes := []

abbrev MkM := Exec MkState Exit

/-- `assert`. -/
def assertThat (b : Bool) : MkM Unit :=
  if b = true then pure () else Exec.stop .abort

/-- The sector that `lseek` goes to; the offset is a `uint`. -/
def seek (sec : Nat) : Nat :=
  sec * bsize % 2 ^ 32 / bsize

/-- `wsect`. -/
def wsect (why : Purpose) (sec : Nat) (buf : Block) : MkM Unit :=
  Exec.modify fun s =>
    { s with
      image := Function.update s.image (seek sec) buf
      sectors := max s.sectors (seek sec + 1)
      writes := (why, seek sec) :: s.writes }

/-- `rsect`; at the end of the file `read` returns less than a sector. -/
def rsect (sec : Nat) : MkM Block := do
  let s ← Exec.get
  if seek sec < s.sectors then return s.image (seek sec) else Exec.stop .failure

/-! ## Inodes and blocks -/

/-- `winode`. -/
def winode (inum : Nat) (ip : Dinode) : MkM Unit := do
  let bn := iblock sb inum
  let buf ← rsect bn
  wsect .inode bn (buf.write dinodeLayout (inum % ipb * 64) ip)

/-- `rinode`. -/
def rinode (inum : Nat) : MkM Dinode := do
  let buf ← rsect (iblock sb inum)
  return buf.read dinodeLayout (inum % ipb * 64)

/-- A new inode with one link. -/
def newInode (type : Int16) : Dinode :=
  ⟨type, 0, 0, 1, 0, fun _ => 0⟩

/-- `ialloc`. -/
def ialloc (type : Int16) : MkM Nat := do
  let s ← Exec.get
  let inum := s.freeinode
  Exec.modify fun s => { s with freeinode := s.freeinode + 1 }
  winode inum (newInode type)
  return inum

/-- The loop of `balloc`: the first `used` bits of a block are set. -/
def bitmapBlock (used : Nat) : Block :=
  (List.range used).foldl
    (fun buf i => buf.overwrite (i / 8) [buf.byteAt (i / 8) ||| bitMask i]) (Bytes.zero bsize)

/-- `balloc`. -/
def balloc (used : Nat) : MkM Unit := do
  assertThat (used < bsize * 8)
  wsect .bitmap sb.bmapstart (bitmapBlock used)

/-- `freeblock++`. -/
def takeBlock : MkM Nat := do
  let s ← Exec.get
  Exec.modify fun s => { s with freeblock := s.freeblock + 1 }
  return s.freeblock

/-! ## Appending to a file -/

/-- `if(din.addrs[k] == 0) din.addrs[k] = freeblock++`. -/
def ensureAddr (din : Dinode) (k : Nat) : MkM Dinode :=
  if din.addr k = 0 then do
    let b ← takeBlock
    return din.setAddr k (UInt32.ofNat b)
  else return din

/-- `indirect[j]` of the indirect block `a`, filled when it is zero. -/
def fillEntry (a : Nat) (indirect : Block) (j : Nat) : MkM Nat :=
  if indirectEntry indirect j = 0 then do
    let b ← takeBlock
    let indirect := indirect.write Layout.u32 (4 * j) (UInt32.ofNat b)
    wsect .data a indirect
    return (indirectEntry indirect j).toNat
  else return (indirectEntry indirect j).toNat

/-- The part of `iappend` that finds the block `x` of file block `fbn`. -/
def mapBlock (din : Dinode) (fbn : Nat) : MkM (Dinode × Nat) :=
  if fbn < ndirect then do
    let din ← ensureAddr din fbn
    return (din, (din.addr fbn).toNat)
  else do
    let din ← ensureAddr din ndirect
    let indirect ← rsect (din.addr ndirect).toNat
    let x ← fillEntry (din.addr ndirect).toNat indirect (fbn - ndirect)
    return (din, x)

/-- The loop of `iappend`. -/
def appendLoop : Nat → Dinode → Nat → List UInt8 → MkM (Dinode × Nat)
  | 0, din, off, _ => return (din, off)
  | fuel + 1, din, off, p =>
    if p = [] then return (din, off)
    else do
      let fbn := off / bsize
      assertThat (fbn < maxfile)
      let (din, x) ← mapBlock din fbn
      let n1 := min p.length ((fbn + 1) * bsize - off)
      let buf ← rsect x
      wsect .data x (buf.overwrite (off - fbn * bsize) (p.take n1))
      appendLoop fuel din (off + n1) (p.drop n1)

/-- `iappend`. -/
def iappend (inum : Nat) (p : List UInt8) : MkM Unit := do
  let din ← rinode inum
  let (din, off) ← appendLoop p.length din din.size.toNat p
  winode inum { din with size := UInt32.ofNat off }

/-! ## The main program -/

/-- A file of the host: its name as given to the program, whether it can be opened, and what the
calls of `read` return before the end of the file, at most {lit}`bsize` bytes each. -/
structure HostFile where
  name : List UInt8
  opens : Bool
  reads : List (List UInt8)
  name_ne : ∀ c ∈ name, c ≠ 0
  reads_ne : ∀ buf ∈ reads, buf ≠ []
  reads_le : ∀ buf ∈ reads, buf.length ≤ bsize

/-- The contents of the file. -/
def HostFile.data (f : HostFile) : List UInt8 :=
  f.reads.flatten

/-- `'_'`. -/
def underscore : UInt8 := 95

/-- The name without a leading underscore. -/
def HostFile.plain (f : HostFile) : List UInt8 :=
  if f.name.head? = some underscore then f.name.tail else f.name

/-- One round of the loop over the files. -/
def addFile (root : Nat) (f : HostFile) : MkM Unit := do
  assertThat (slash ∉ f.name)
  if f.opens = true then do
    let inum ← ialloc tFile
    iappend root (direntLayout.encode (direntOf f.plain inum))
    Exec.forEach (iappend inum) f.reads
  else Exec.stop .failure

/-- The size of the root directory is rounded up. -/
def fixRoot (root : Nat) : MkM Unit := do
  let din ← rinode root
  winode root { din with size := (din.size / UInt32.ofNat bsize + 1) * UInt32.ofNat bsize }

/-- `main`; to return is to exit with status 0. -/
def main (files : List HostFile) : MkM Unit := do
  Exec.forEach (fun i => wsect .clear i (Bytes.zero bsize)) (List.range fssize)
  wsect .super 1 ((Bytes.zero bsize).overwrite 0 sbBytes)
  let root ← ialloc tDir
  assertThat (root = rootino)
  iappend root (direntLayout.encode (direntOf [dot] root))
  iappend root (direntLayout.encode (direntOf [dot, dot] root))
  Exec.forEach (addFile root) files
  fixRoot root
  let s ← Exec.get
  balloc s.freeblock

end Xv6.Mkfs
