import Xv6.Params

/-!
# File system - On-disk format

The structures of `fs.h` as they lie in the blocks of the disk: the superblock,
the inode table, the free map, and directory entries.  The access functions
(`IBLOCK`, `BBLOCK`, the bit of a block in the map) work on bytes; the lemmas
turn them into independent typed cells, one for each inode and one for each
block, so that later modules need not look at bytes again.

Main results:

- Theorems {lit}`dinodeAt_putDinode_same` and {lit}`dinodeAt_putDinode_ne`:
  writing one inode changes no other.
- Theorem {lit}`bitSet_setBit`: marking one block changes no other bit.
- Theorems {lit}`Geometry.dinodeAt_update`, {lit}`Geometry.bitSet_update` and
  their kin: inode table, free map and data blocks do not overlap.
-/

namespace Xv6.Fs

open Foundations

/-! ## Constants and records -/

/-- `NDIRECT`: direct blocks of an inode. -/
def ndirect : Nat := 12

/-- `NINDIRECT`: entries of an indirect block. -/
def nindirect : Nat := bsize / 4

/-- `MAXFILE`: blocks of the largest file. -/
def maxfile : Nat := ndirect + nindirect

/-- `IPB`: inodes in a block. -/
def ipb : Nat := bsize / 64

/-- `BPB`: bits of the free map in a block. -/
def bpb : Nat := bsize * 8

/-- `DIRSIZ`: bytes of a name in a directory entry. -/
def dirsiz : Nat := 14

/-- `sizeof(struct dirent)`. -/
def direntSize : Nat := 16

@[simp]
theorem ndirect_eq : ndirect = 12 :=
  rfl

@[simp]
theorem nindirect_eq : nindirect = 128 :=
  rfl

@[simp]
theorem maxfile_eq : maxfile = 140 :=
  rfl

@[simp]
theorem ipb_eq : ipb = 8 :=
  rfl

@[simp]
theorem bpb_eq : bpb = 4096 :=
  rfl

@[simp]
theorem dirsiz_eq : dirsiz = 14 :=
  rfl

@[simp]
theorem direntSize_eq : direntSize = 16 :=
  rfl

/-- `struct superblock`. -/
structure Superblock where
  size : Nat
  nblocks : Nat
  ninodes : Nat
  nlog : Nat
  logstart : Nat
  inodestart : Nat
  bmapstart : Nat
deriving DecidableEq

/-- `T_DIR`, `T_FILE` and `T_DEV`; a free inode has type 0. -/
def tDir : Int16 := 1

def tFile : Int16 := 2

def tDev : Int16 := 3

/-- `struct dinode`. -/
structure Dinode where
  type : Int16
  major : Int16
  minor : Int16
  nlink : Int16
  size : UInt32
  addrs : Fin 13 → UInt32
deriving DecidableEq

/-- `struct dirent`. -/
structure Dirent where
  inum : UInt16
  name : Fin 14 → UInt8
deriving DecidableEq

/-- The 64 bytes of a `struct dinode`. -/
def dinodeLayout : Layout Dinode :=
  (Layout.i16.pair (Layout.i16.pair (Layout.i16.pair (Layout.i16.pair
    (Layout.u32.pair (Layout.array 13 Layout.u32)))))).map
    (fun f => ⟨f.1, f.2.1, f.2.2.1, f.2.2.2.1, f.2.2.2.2.1, f.2.2.2.2.2⟩)
    (fun x => (x.type, x.major, x.minor, x.nlink, x.size, x.addrs)) (fun _ => rfl)

/-- The 16 bytes of a `struct dirent`. -/
def direntLayout : Layout Dirent :=
  (Layout.u16.pair (Layout.array 14 Layout.u8)).map (fun f => ⟨f.1, f.2⟩)
    (fun x => (x.inum, x.name)) (fun _ => rfl)

@[simp]
theorem dinodeLayout_width : dinodeLayout.width = 64 :=
  rfl

@[simp]
theorem direntLayout_width : direntLayout.width = 16 :=
  rfl

/-- `readsb`. -/
def readsb (d : Disk) : Superblock :=
  let word := fun k => ((d 1).read Layout.u32 (4 * k)).toNat
  ⟨word 0, word 1, word 2, word 3, word 4, word 5, word 6⟩

/-! ## Inode table -/

/-- `IBLOCK(i, sb)`. -/
def iblock (sb : Superblock) (i : Nat) : Nat :=
  i / ipb + sb.inodestart

/-- `(struct dinode*)bp->data + inum%IPB`. -/
def dinodeAt (sb : Superblock) (d : Disk) (i : Nat) : Dinode :=
  (d (iblock sb i)).read dinodeLayout (i % ipb * 64)

/-- Store a `struct dinode` in its place. -/
def putDinode (sb : Superblock) (d : Disk) (i : Nat) (x : Dinode) : Disk :=
  Function.update d (iblock sb i) ((d (iblock sb i)).write dinodeLayout (i % ipb * 64) x)

@[simp]
theorem dinodeAt_putDinode_same (sb : Superblock) (d : Disk) (i : Nat) (x : Dinode) :
    dinodeAt sb (putDinode sb d i x) i = x := by
  have hmod := Nat.mod_lt i (show 0 < ipb by decide)
  unfold dinodeAt putDinode
  rw [Function.update_self, Bytes.read_write_same]
  simp only [dinodeLayout_width, bsize_eq, ipb_eq] at hmod ⊢
  omega

theorem dinodeAt_putDinode_ne (sb : Superblock) (d : Disk) {i j : Nat} (h : j ≠ i)
    (x : Dinode) : dinodeAt sb (putDinode sb d i x) j = dinodeAt sb d j := by
  unfold dinodeAt putDinode
  by_cases hblock : iblock sb j = iblock sb i
  · rw [hblock, Function.update_self, Bytes.read_write_disjoint]
    simp only [iblock, ipb_eq] at hblock
    simp only [dinodeLayout_width, ipb_eq]
    omega
  · rw [Function.update_of_ne hblock]

/-! ## Free map -/

/-- `BBLOCK(b, sb)`. -/
def bblock (sb : Superblock) (b : Nat) : Nat :=
  b / bpb + sb.bmapstart

/-- `m = 1 << (bi % 8)`. -/
def bitMask (bi : Nat) : UInt8 :=
  1 <<< UInt8.ofNat (bi % 8)

/-- `bp->data[bi/8] & m` is not zero: the block is in use. -/
def bitSet (sb : Superblock) (d : Disk) (b : Nat) : Bool :=
  let bi := b % bpb
  (d (bblock sb b)).byteAt (bi / 8) &&& bitMask bi ≠ 0

/-- `bp->data[bi/8] |= m`. -/
def setBit (sb : Superblock) (d : Disk) (b : Nat) : Disk :=
  let bi := b % bpb
  let block := d (bblock sb b)
  Function.update d (bblock sb b)
    (block.overwrite (bi / 8) [block.byteAt (bi / 8) ||| bitMask bi])

/-- `bp->data[bi/8] &= ~m`. -/
def clearBit (sb : Superblock) (d : Disk) (b : Nat) : Disk :=
  let bi := b % bpb
  let block := d (bblock sb b)
  Function.update d (bblock sb b)
    (block.overwrite (bi / 8) [block.byteAt (bi / 8) &&& ~~~ bitMask bi])

theorem toBitVec_bitMask (j : Nat) : (bitMask j).toBitVec = BitVec.twoPow 8 (j % 8) := by
  have hj := Nat.mod_lt j (show 0 < 8 by decide)
  unfold bitMask
  generalize j % 8 = k at hj
  interval_cases k <;> rfl

/-- The test of the code looks at one bit of the byte. -/
theorem and_bitMask_ne_zero (x : UInt8) (j : Nat) :
    x &&& bitMask j ≠ 0 ↔ x.toBitVec.getLsbD (j % 8) = true := by
  have hj := Nat.mod_lt j (show 0 < 8 by decide)
  rw [Ne, ← UInt8.toBitVec_inj, UInt8.toBitVec_and, toBitVec_bitMask, BitVec.and_twoPow]
  by_cases hbit : x.toBitVec.getLsbD (j % 8) = true
  · have hne : BitVec.twoPow 8 (j % 8) ≠ 0#8 := by
      intro hzero
      have hget := congrArg (fun v => v.getLsbD (j % 8)) hzero
      simp [hj] at hget
    rw [if_pos hbit]
    exact ⟨fun _ => hbit, fun _ => hne⟩
  · rw [if_neg hbit]
    simp [hbit]

/-- Setting one bit of a byte. -/
theorem or_and_bitMask (x : UInt8) (i j : Nat) :
    (x ||| bitMask i) &&& bitMask j ≠ 0 ↔ i % 8 = j % 8 ∨ x &&& bitMask j ≠ 0 := by
  have hi := Nat.mod_lt i (show 0 < 8 by decide)
  rw [and_bitMask_ne_zero, and_bitMask_ne_zero, UInt8.toBitVec_or, toBitVec_bitMask,
    BitVec.getLsbD_or, BitVec.getLsbD_twoPow]
  by_cases hij : i % 8 = j % 8
  · rw [hij] at hi
    simp [hij, hi]
  · simp [hij]

/-- Blocks with the same place in the free map are the same. -/
theorem eq_of_bit_place {sb : Superblock} {b c : Nat} (hblock : bblock sb c = bblock sb b)
    (hbyte : c % bpb / 8 = b % bpb / 8) (hbit : b % bpb % 8 = c % bpb % 8) : b = c := by
  simp only [bblock, bpb_eq] at *
  omega

/-- How a changed byte of the free map changes the bits. -/
theorem bitSet_overwrite (sb : Superblock) (d : Disk) (b c : Nat) (x : UInt8) :
    bitSet sb (Function.update d (bblock sb b)
      ((d (bblock sb b)).overwrite (b % bpb / 8) [x])) c =
        if bblock sb c = bblock sb b ∧ c % bpb / 8 = b % bpb / 8 then
          decide (x &&& bitMask (c % bpb) ≠ 0)
        else bitSet sb d c := by
  have hfit : b % bpb / 8 + [x].length ≤ bsize := by
    have hb := Nat.mod_lt b (show 0 < bpb by decide)
    simp only [bpb_eq, bsize_eq, List.length_singleton] at *
    omega
  unfold bitSet
  by_cases hblock : bblock sb c = bblock sb b
  · simp only [hblock, Function.update_self, true_and]
    by_cases hbyte : c % bpb / 8 = b % bpb / 8
    · have hin : 0 < [x].length := by simp
      have hread := Bytes.byteAt_overwrite_inside (b := d (bblock sb b)) hin hfit
      rw [if_pos hbyte, hbyte]
      rw [Nat.add_zero] at hread
      rw [hread]
      rfl
    · rw [if_neg hbyte, Bytes.byteAt_overwrite_outside]
      simp only [List.length_singleton]
      omega
  · simp only [Function.update_of_ne hblock, hblock, false_and, if_false]

theorem bitSet_setBit (sb : Superblock) (d : Disk) (b c : Nat) :
    bitSet sb (setBit sb d b) c = (decide (b = c) || bitSet sb d c) := by
  unfold setBit
  rw [bitSet_overwrite]
  split
  · rename_i hplace
    have hsame : bitSet sb d c =
        decide ((d (bblock sb b)).byteAt (b % bpb / 8) &&& bitMask (c % bpb) ≠ 0) := by
      rw [← hplace.1, ← hplace.2]
      rfl
    rw [hsame, ← Bool.decide_or]
    refine decide_eq_decide.mpr ?_
    rw [or_and_bitMask]
    refine or_congr_left ⟨eq_of_bit_place hplace.1 hplace.2, ?_⟩
    intro hbc
    rw [hbc]
  · rename_i hplace
    have hne : b ≠ c := by
      intro hbc
      exact hplace ⟨by rw [hbc], by rw [hbc]⟩
    simp [hne]

/-! ## Geometry -/

/-- First data block: boot block, superblock, log, inode table and free map lie
below. -/
def Superblock.nmeta (sb : Superblock) : Nat :=
  sb.bmapstart + sb.size / bpb + 1

/-- The layout that `mkfs` chooses: inode table and free map follow each other
behind the log, there is a root inode, all inode numbers fit a directory entry and
all block numbers a C `int`. -/
structure Geometry (sb : Superblock) : Prop where
  root : rootino < sb.ninodes
  inodes : 2 ≤ sb.inodestart
  bitmap : sb.inodestart + sb.ninodes / ipb + 1 ≤ sb.bmapstart
  data : sb.nmeta ≤ sb.size
  inums : sb.ninodes ≤ 65536
  blocks : sb.size + bpb < 2 ^ 31

namespace Geometry

variable {sb : Superblock}

theorem iblock_lt (h : Geometry sb) {i : Nat} (hi : i < sb.ninodes) :
    iblock sb i < sb.bmapstart := by
  have hbitmap := h.bitmap
  simp only [iblock, ipb_eq] at *
  omega

theorem le_iblock (h : Geometry sb) (i : Nat) : 2 ≤ iblock sb i := by
  have hinodes := h.inodes
  exact hinodes.trans (Nat.le_add_left _ _)

theorem le_bblock (sb : Superblock) (b : Nat) : sb.bmapstart ≤ bblock sb b :=
  Nat.le_add_left _ _

theorem bmapstart_lt (sb : Superblock) : sb.bmapstart < sb.nmeta := by
  simp only [Superblock.nmeta, bpb_eq]
  omega

theorem bblock_lt {b : Nat} (hb : b < sb.size) : bblock sb b < sb.nmeta := by
  unfold bblock Superblock.nmeta
  have hle : b / bpb ≤ sb.size / bpb := Nat.div_le_div_right hb.le
  omega

theorem two_lt_bmapstart (h : Geometry sb) : 2 < sb.bmapstart := by
  have hinodes := h.inodes
  have hbitmap := h.bitmap
  simp only [ipb_eq] at *
  omega

theorem two_lt_nmeta (h : Geometry sb) : 2 < sb.nmeta :=
  h.two_lt_bmapstart.trans (bmapstart_lt sb)

/-- Blocks behind the inode table hold no inode. -/
theorem dinodeAt_update (h : Geometry sb) (d : Disk) {b i : Nat} (hb : sb.bmapstart ≤ b)
    (hi : i < sb.ninodes) (block : Block) :
    dinodeAt sb (Function.update d b block) i = dinodeAt sb d i := by
  have hlt := h.iblock_lt hi
  unfold dinodeAt
  rw [Function.update_of_ne (by omega)]

/-- Blocks outside the free map hold no bit. -/
theorem bitSet_update (d : Disk) {b c : Nat} (hb : b < sb.bmapstart ∨ sb.nmeta ≤ b)
    (hc : c < sb.size) (block : Block) :
    bitSet sb (Function.update d b block) c = bitSet sb d c := by
  have hlt := bblock_lt hc
  have hle := le_bblock sb c
  unfold bitSet
  rw [Function.update_of_ne (by omega)]

theorem bitSet_putDinode (h : Geometry sb) (d : Disk) {i c : Nat} (hi : i < sb.ninodes)
    (hc : c < sb.size) (x : Dinode) :
    bitSet sb (putDinode sb d i x) c = bitSet sb d c :=
  bitSet_update d (Or.inl (h.iblock_lt hi)) hc _

/-- Data blocks are not affected by changes to the inode table or the free map. -/
theorem putDinode_data (h : Geometry sb) (d : Disk) {i b : Nat} (hi : i < sb.ninodes)
    (hb : sb.nmeta ≤ b) (x : Dinode) : putDinode sb d i x b = d b := by
  have hlt := h.iblock_lt hi
  have hmeta := bmapstart_lt sb
  exact Function.update_of_ne (by omega) _ _

theorem setBit_data (d : Disk) {b c : Nat} (hb : b < sb.size) (hc : sb.nmeta ≤ c) :
    setBit sb d b c = d c := by
  have hlt := bblock_lt hb
  exact Function.update_of_ne (by omega) _ _

/-- The superblock is in block 1, which is never written. -/
theorem readsb_update (d : Disk) {b : Nat} (hb : 2 ≤ b) (block : Block) :
    readsb (Function.update d b block) = readsb d := by
  unfold readsb
  rw [Function.update_of_ne (by omega)]

end Geometry

end Xv6.Fs
