import Xv6.Foundations.ByteLayout

/-!
# Kernel parameters and the disk block

The constants of `param.h` and `fs.h` that the modelled code reads, and the type
of one disk block.
-/

namespace Xv6

open Foundations

/-- `BSIZE`: bytes in a disk block. -/
def bsize : Nat := 512

/-- `MAXOPBLOCKS`: blocks one file-system operation may log. -/
def maxopblocks : Nat := 10

/-- `LOGSIZE`: entries of the log header's block array. -/
def logsize : Nat := maxopblocks * 3

/-- `NPROC`: entries of the process table. -/
def nproc : Nat := 64

/-- `NOFILE`: open files per process. -/
def nofile : Nat := 16

/-- `NFILE`: entries of the file table. -/
def nfile : Nat := 100

/-- `NINODE`: entries of the inode cache. -/
def ninode : Nat := 50

/-- `ROOTDEV`: device number of the root file system. -/
def rootdev : Nat := 1

/-- `ROOTINO`: inode number of the root directory. -/
def rootino : Nat := 1

theorem nproc_pos : 0 < nproc := by
  decide

theorem one_lt_nproc : 1 < nproc := by
  decide

theorem nofile_pos : 0 < nofile := by
  decide

theorem one_lt_nofile : 1 < nofile := by
  decide

theorem nfile_pos : 0 < nfile := by
  decide

theorem ninode_pos : 0 < ninode := by
  decide

theorem one_lt_ninode : 1 < ninode := by
  decide

@[simp]
theorem bsize_eq : bsize = 512 :=
  rfl

@[simp]
theorem maxopblocks_eq : maxopblocks = 10 :=
  rfl

@[simp]
theorem logsize_eq : logsize = 30 :=
  rfl

/-- Contents of one disk block. -/
abbrev Block := Bytes bsize

/-- A disk maps block numbers to contents. -/
abbrev Disk := Nat → Block

end Xv6
