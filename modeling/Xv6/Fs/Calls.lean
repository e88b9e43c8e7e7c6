import Xv6.Fs.Kernel

/-!
# File system - Directories and paths

The directory and path code of `fs.c`.  It is written as programs over the operations of the layer
below, which are then run on the kernel state.

Main definitions:

- {lit}`FsOp`, {lit}`handle`: the operations, and what they do on the kernel state.
- {lit}`dirlookup`, {lit}`dirlink`, {lit}`namex`: directories and paths.
-/

namespace Xv6.Fs

open Foundations

/-! ## Operations -/

/-- The fields of a locked inode that the code above reads. -/
structure Attr where
  type : Int16
  size : UInt32
deriving DecidableEq

/-- Operations of the layer below. -/
inductive FsOp
  | iget (inum : Nat)
  | idup (ip : Fin ninode)
  | ilock (ip : Fin ninode)
  | iunlock (ip : Fin ninode)
  | iput (ip : Fin ninode)
  /-- The fields of `ip`. -/
  | attr (ip : Fin ninode)
  | readi (ip : Fin ninode) (off n : UInt32)
  | writei (ip : Fin ninode) (src : List UInt8) (off : UInt32)
  /-- `proc->cwd`. -/
  | cwd
  | panic (e : Stop)

/-- Answers of the operations. -/
abbrev Resp : FsOp → Type
  | .iget _ => Fin ninode
  | .attr _ => Attr
  | .readi _ _ _ => Option (List UInt8)
  | .writei _ _ _ => Option UInt32
  | .cwd => Fin ninode
  | .panic _ => Empty
  | _ => Unit

/-- Change an entry of the file table. -/
def setFile (f : Fin nfile) (g : File (Fin ninode) → File (Fin ninode)) : FsM Unit :=
  Exec.modify fun s => { s with ftable := Function.update s.ftable f (g (s.ftable f)) }

/-- The operations on the kernel state, on behalf of process `p`. -/
def handle (p : Fin nproc) : (o : FsOp) → FsM (Resp o)
  | .iget i => iget i
  | .idup ip => idup ip
  | .ilock ip => ilock p ip
  | .iunlock ip => iunlock p ip
  | .iput ip => iput ip
  | .attr ip => do
    let s ← Exec.get
    return ⟨(s.icache ip).copy.type, (s.icache ip).copy.size⟩
  | .readi ip off n => readi ip off n
  | .writei ip src off => writei ip src off
  | .cwd => do
    let s ← Exec.get
    match (s.proc p).cwd with
    | none => Exec.stop .nullPointer
    | some ip => return ip
  | .panic e => Exec.stop e

/-- Programs over the operations. -/
abbrev FsProg := Prog FsOp Resp

/-- Perform an operation. -/
abbrev perform (o : FsOp) : FsProg (Resp o) :=
  Prog.call o

/-- `panic`. -/
def panicWith {α : Type} (e : Stop) : FsProg α := do
  let r ← perform (.panic e)
  nomatch r

/-- `iunlockput`. -/
def iunlockput (ip : Fin ninode) : FsProg Unit := do
  perform (.iunlock ip)
  perform (.iput ip)

/-! ## Names -/

/-- Bytes of a C string, without the terminating zero. -/
abbrev Path := List UInt8

/-- `'/'` and `'.'`. -/
def slash : UInt8 := 47

def dot : UInt8 := 46

/-- `strncmp`; behind the end of a string is a zero. -/
def strncmp : Nat → List UInt8 → List UInt8 → Int
  | 0, _, _ => 0
  | n + 1, s, t =>
    if s.headD 0 ≠ 0 ∧ s.headD 0 = t.headD 0 then strncmp n s.tail t.tail
    else (s.headD 0).toNat - (t.headD 0).toNat

/-- `namecmp`. -/
def namecmp (s t : List UInt8) : Int :=
  strncmp dirsiz s t

/-- The first `n` bytes of a string, up to its terminating zero. -/
def cstr (n : Nat) (s : List UInt8) : List UInt8 :=
  (s.take n).takeWhile fun c => c ≠ 0

/-- `strncpy(de.name, name, DIRSIZ)`. -/
def strncpy (name : List UInt8) : Fin 14 → UInt8 :=
  fun i => (cstr dirsiz name).getD i.val 0

/-- The entry for an inode under a name. -/
def direntOf (name : List UInt8) (inum : Nat) : Dirent :=
  ⟨UInt16.ofNat inum, strncpy name⟩

/-- The name in a directory entry. -/
def Dirent.bytes (de : Dirent) : List UInt8 :=
  List.ofFn de.name

/-- `skipelem`: the rest of the path and the name. -/
def skipelem (path : Path) : Option (Path × List UInt8) :=
  let path := path.dropWhile fun c => c = slash
  match path with
  | [] => none
  | _ :: _ =>
    let elem := path.takeWhile fun c => c ≠ slash
    some ((path.drop elem.length).dropWhile fun c => c = slash, elem.take dirsiz)

/-! ## Directories -/

/-- The loop of `dirlookup`. -/
def dirlookupLoop (dp : Fin ninode) (name : List UInt8) :
    Nat → UInt32 → FsProg (Option (Fin ninode × UInt32))
  | 0, _ => return none
  | fuel + 1, off => do
    let x ← perform (.attr dp)
    if off < x.size then do
      match ← perform (.readi dp off 16) with
      | none => panicWith .dirlookupRead
      | some bytes =>
        if bytes.length ≠ direntSize then panicWith .dirlookupRead
        else do
          let de := direntLayout.decode bytes
          if de.inum ≠ 0 ∧ namecmp name de.bytes = 0 then do
            let ip ← perform (.iget de.inum.toNat)
            return some (ip, off)
          else dirlookupLoop dp name fuel (off + 16)
    else return none

/-- `dirlookup`: the inode and the offset of the entry. -/
def dirlookup (dp : Fin ninode) (name : List UInt8) :
    FsProg (Option (Fin ninode × UInt32)) := do
  let x ← perform (.attr dp)
  if x.type ≠ tDir then panicWith .dirlookupNotDir
  else dirlookupLoop dp name (x.size.toNat / direntSize + 1) 0

/-- The loop of `dirlink`: offset of the first empty entry. -/
def emptyEntryLoop (dp : Fin ninode) : Nat → UInt32 → FsProg UInt32
  | 0, off => return off
  | fuel + 1, off => do
    let x ← perform (.attr dp)
    if off < x.size then do
      match ← perform (.readi dp off 16) with
      | none => panicWith .dirlinkRead
      | some bytes =>
        if bytes.length ≠ direntSize then panicWith .dirlinkRead
        else if (direntLayout.decode bytes).inum = 0 then return off
        else emptyEntryLoop dp fuel (off + 16)
    else return off

/-- `dirlink`; `false` is the result -1. -/
def dirlink (dp : Fin ninode) (name : List UInt8) (inum : Nat) : FsProg Bool := do
  match ← dirlookup dp name with
  | some (ip, _) => do
    perform (.iput ip)
    return false
  | none => do
    let x ← perform (.attr dp)
    let off ← emptyEntryLoop dp (x.size.toNat / direntSize + 1) 0
    let n ← perform (.writei dp (direntLayout.encode (direntOf name inum)) off)
    if n ≠ some 16 then panicWith .dirlink else return true

/-! ## Paths -/

/-- The loop of `namex`, with the name that was last copied. -/
def namexLoop (parent : Bool) :
    Nat → Fin ninode → Path → List UInt8 → FsProg (Option (Fin ninode × List UInt8))
  | 0, _, _, _ => return none
  | fuel + 1, ip, path, name =>
    match skipelem path with
    | none =>
      if parent then do
        perform (.iput ip)
        return none
      else return some (ip, name)
    | some (path, name) => do
      perform (.ilock ip)
      let x ← perform (.attr ip)
      if x.type ≠ tDir then do
        iunlockput ip
        return none
      else if parent ∧ path = [] then do
        perform (.iunlock ip)
        return some (ip, name)
      else do
        match ← dirlookup ip name with
        | none => do
          iunlockput ip
          return none
        | some (next, _) => do
          iunlockput ip
          namexLoop parent fuel next path name

/-- `namex`: the inode, and the last path element.  Every round removes at least
one byte from the path. -/
def namex (path : Path) (parent : Bool) : FsProg (Option (Fin ninode × List UInt8)) :=
  if path.head? = some slash then do
    let ip ← perform (.iget rootino)
    namexLoop parent (path.length + 1) ip path []
  else do
    let cwd ← perform .cwd
    perform (.idup cwd)
    namexLoop parent (path.length + 1) cwd path []

/-- `namei`. -/
def namei (path : Path) : FsProg (Option (Fin ninode)) := do
  let r ← namex path false
  return r.map Prod.fst

/-- `nameiparent`. -/
def nameiparent (path : Path) : FsProg (Option (Fin ninode × List UInt8)) :=
  namex path true

/-- A cleared directory entry. -/
def Dirent.zero : Dirent :=
  ⟨0, fun _ => 0⟩

/-- `max` of `filewrite`. -/
def filewriteMax : Nat := (logsize - 1 - 1 - 2) / 2 * 512

end Xv6.Fs
