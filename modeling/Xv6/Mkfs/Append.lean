import Xv6.Fs.LogSpace
import Xv6.Mkfs.Model

/-!
# mkfs - Appending to a file

The program does not mark blocks while it hands them out; it counts them and writes the free map
at the end.  {lit}`MkState.disk` is the image with the free map as it would be written now.  On
this disk, taking the next block is what `balloc` of the kernel does, so the lemmas about one
inode at work apply to the loop of `iappend`.

Main results:

- Theorem {lit}`bitSet_mark`: the free map that is written marks the blocks handed out.
- Theorem {lit}`allocated_mark`: handing out a block is an allocation.
- Theorem {lit}`appendLoop_spec`: the loop of `iappend` writes its bytes to the end of one file.
-/

namespace Xv6.Mkfs

open Foundations Xv6.Fs

/-! ## The free map -/

@[simp]
theorem nmeta_eq : nmeta = 59 :=
  rfl

@[simp]
theorem fssize_eq : fssize = 1000 :=
  rfl

@[simp]
theorem ninodes_eq : ninodes = 200 :=
  rfl

@[simp]
theorem sb_size : sb.size = 1000 :=
  rfl

@[simp]
theorem sb_ninodes : sb.ninodes = 200 :=
  rfl

@[simp]
theorem sb_inodestart : sb.inodestart = 32 :=
  rfl

@[simp]
theorem sb_bmapstart : sb.bmapstart = 58 :=
  rfl

@[simp]
theorem sb_nmeta : sb.nmeta = 59 :=
  rfl

theorem sb_geometry : Geometry sb := by
  constructor <;> decide

theorem seek_eq {sec : Nat} (h : sec < 2 ^ 23) : seek sec = sec := by
  unfold seek
  simp only [bsize_eq]
  omega

/-- The image with the free map for the first `n` blocks. -/
def mark (d : Disk) (n : Nat) : Disk :=
  Function.update d sb.bmapstart (bitmapBlock n)

theorem mark_of_ne (d : Disk) (n : Nat) {b : Nat} (h : b ≠ 58) : mark d n b = d b :=
  Function.update_of_ne h _ _

theorem mark_update (d : Disk) (n : Nat) {b : Nat} (h : b ≠ 58) (block : Block) :
    mark (Function.update d b block) n = Function.update (mark d n) b block :=
  Function.update_comm h _ _ _

theorem bblock_eq {b : Nat} (h : b < 4096) : bblock sb b = 58 := by
  simp only [bblock, bpb_eq, sb_bmapstart]
  omega

/-- One more round of the loop of `balloc` sets one more bit. -/
theorem mark_succ (d : Disk) {n : Nat} (h : n < 4096) :
    mark d (n + 1) = setBit sb (mark d n) n := by
  have hmod : n % bpb = n := Nat.mod_eq_of_lt h
  have hself : mark d n 58 = bitmapBlock n := Function.update_self ..
  unfold setBit
  rw [bblock_eq h, hmod, hself]
  unfold mark
  rw [sb_bmapstart, Function.update_idem]
  congr 1
  unfold bitmapBlock
  rw [List.range_succ, List.foldl_append]
  rfl

/-- The free map marks the first `n` blocks. -/
theorem bitSet_mark (d : Disk) {n b : Nat} (hn : n ≤ 4096) (hb : b < 4096) :
    bitSet sb (mark d n) b = decide (b < n) := by
  induction n with
  | zero =>
    have hself : mark d 0 58 = Bytes.zero bsize := Function.update_self ..
    unfold bitSet
    rw [bblock_eq hb, hself]
    simp
  | succ n ih =>
    rw [mark_succ d (by omega), bitSet_setBit, ih (by omega)]
    by_cases heq : n = b
    · simp [heq]
    · simp [heq]
      omega

/-- Handing out the next block is an allocation. -/
theorem allocated_mark {d : Disk} {n : Nat} (hlow : 59 ≤ n) (hn : n < 4096)
    (hzero : d n = Bytes.zero bsize) : allocated sb (mark d n) n = mark d (n + 1) := by
  unfold allocated
  rw [← mark_succ d hn]
  have hself : mark d (n + 1) n = Bytes.zero bsize := by
    rw [mark_of_ne d _ (by omega), hzero]
  rw [← hself, Function.update_eq_self]

theorem mark_putDinode (d : Disk) (n : Nat) {i : Nat} (hi : i < 200) (x : Dinode) :
    mark (putDinode sb d i x) n = putDinode sb (mark d n) i x := by
  have hlt := sb_geometry.iblock_lt (i := i) hi
  simp only [sb_bmapstart] at hlt
  unfold putDinode
  rw [mark_update d n (by omega), mark_of_ne d n (by omega)]

/-! ## The state while files are built -/

/-- A sector was written for what it is. -/
def SoundWrite : Purpose × Nat → Prop
  | (.inode, sec) => sb.inodestart ≤ sec ∧ sec < sb.bmapstart
  | (.data, sec) => sb.nmeta ≤ sec ∧ sec < sb.size
  | _ => True

/-- The disk, if the free map were written now. -/
def MkState.disk (s : MkState) : Disk :=
  mark s.image s.freeblock

/-- The whole image is there, blocks not handed out are zero, and all writes were sound. -/
structure Ready (s : MkState) : Prop where
  sectors : s.sectors = fssize
  low : nmeta ≤ s.freeblock
  high : s.freeblock ≤ fssize
  fresh : ∀ b, s.freeblock ≤ b → s.image b = Bytes.zero bsize
  writes : ∀ w ∈ s.writes, SoundWrite w

/-- The blocks of an inode are those of a file of `off` bytes. -/
structure Tight (d : Disk) (x : Dinode) (off : Nat) : Prop where
  mapped : ∀ bn, x.ref d (place bn) ≠ 0 ↔ bn * bsize < off
  indirect : x.ref d 12 ≠ 0 ↔ 12 * bsize < off

/-- The number of blocks of a file of `size` bytes. -/
def blocksOf (size : Nat) : Nat :=
  (size + 511) / bsize + if 12 * bsize < size then 1 else 0

/-- The number of blocks handed out for a byte at `off`. -/
def newBlocks (off : Nat) : Nat :=
  if off % bsize ≠ 0 then 0 else if off = 12 * bsize then 2 else 1

theorem blocksOf_add {off m : Nat} (hpos : 0 < m) (hm : m ≤ bsize - off % bsize) :
    blocksOf (off + m) = blocksOf off + newBlocks off := by
  simp only [bsize_eq] at hm
  show (off + m + 511) / 512 + (if 12 * 512 < off + m then 1 else 0) =
    (off + 511) / 512 + (if 12 * 512 < off then 1 else 0) +
      if off % 512 ≠ 0 then 0 else if off = 12 * 512 then 2 else 1
  split_ifs <;> omega

theorem blocksOf_mono {a b : Nat} (h : a ≤ b) : blocksOf a ≤ blocksOf b := by
  show (a + 511) / 512 + (if 12 * 512 < a then 1 else 0) ≤
    (b + 511) / 512 + if 12 * 512 < b then 1 else 0
  split_ifs <;> omega

section Sectors

variable {s : MkState}

theorem rsect_ok (h : Ready s) {sec : Nat} (hsec : sec < fssize) :
    rsect sec s = .ok (s.image sec, s) := by
  simp only [fssize_eq] at hsec
  have hseek : seek sec = sec := seek_eq (by omega)
  unfold rsect
  rw [bind_ok (a := s) (t := s) rfl, hseek, if_pos (by rw [h.sectors, fssize_eq]; exact hsec)]
  rfl

theorem rsect_end (h : s.sectors = fssize) {sec : Nat} (hsec : sec = fssize) :
    rsect sec s = .error .failure := by
  have hseek : seek sec = sec := seek_eq (by rw [hsec]; decide)
  unfold rsect
  rw [bind_ok (a := s) (t := s) rfl, hseek, if_neg (by rw [h, hsec]; exact lt_irrefl _)]
  rfl

/-- The state after a sector was written. -/
def MkState.put (s : MkState) (why : Purpose) (sec : Nat) (buf : Block) : MkState :=
  { s with image := Function.update s.image sec buf, writes := (why, sec) :: s.writes }

theorem wsect_ok (h : s.sectors = fssize) (why : Purpose) {sec : Nat} (hsec : sec < fssize)
    (buf : Block) : wsect why sec buf s = .ok ((), s.put why sec buf) := by
  simp only [fssize_eq] at hsec
  have hseek : seek sec = sec := seek_eq (by omega)
  have hmax : max s.sectors (sec + 1) = s.sectors := by
    rw [h, fssize_eq]
    omega
  simp only [wsect, Exec.modify, MkState.put, hseek, hmax]

/-- Overwriting a data block that was handed out. -/
theorem Ready.put (h : Ready s) {sec : Nat} (hlow : nmeta ≤ sec) (hlt : sec < s.freeblock)
    (buf : Block) : Ready (s.put .data sec buf) := by
  have hhigh := h.high
  simp only [nmeta_eq, fssize_eq] at hlow hhigh
  refine ⟨h.sectors, h.low, h.high, ?_, ?_⟩
  · intro b hb
    have hne : b ≠ sec := by
      rintro rfl
      exact absurd hlt (Nat.not_lt.mpr hb)
    exact (Function.update_of_ne hne _ _).trans (h.fresh b hb)
  · intro w hw
    rcases List.mem_cons.mp hw with rfl | hold
    · constructor
      · exact hlow
      · rw [sb_size]
        omega
    · exact h.writes w hold

/-- The state after a block was handed out. -/
def MkState.took (s : MkState) : MkState :=
  { s with freeblock := s.freeblock + 1 }

theorem takeBlock_ok : takeBlock s = .ok (s.freeblock, s.took) :=
  rfl

theorem Ready.took (h : Ready s) (hlt : s.freeblock < fssize) : Ready s.took := by
  refine ⟨h.sectors, Nat.le_succ_of_le h.low, hlt, ?_, h.writes⟩
  intro b hb
  exact h.fresh b (Nat.le_of_succ_le hb)

theorem Ready.bitSet (h : Ready s) {b : Nat} (hb : b < fssize) :
    Fs.bitSet sb s.disk b = decide (b < s.freeblock) := by
  have hhigh := h.high
  simp only [fssize_eq] at hhigh hb
  exact bitSet_mark _ (by omega) (by omega)

/-- The next block is free. -/
theorem Ready.unused (h : Ready s) (hlt : s.freeblock < fssize) :
    Fs.bitSet sb s.disk s.freeblock = false := by
  rw [h.bitSet hlt]
  simp

theorem Ready.allocated (h : Ready s) (hlt : s.freeblock < fssize) :
    Fs.allocated sb s.disk s.freeblock = s.took.disk := by
  have hlow := h.low
  simp only [nmeta_eq, fssize_eq] at hlow hlt
  exact allocated_mark hlow (by omega) (h.fresh _ (le_refl _))

theorem put_disk (why : Purpose) {sec : Nat} (hlow : nmeta ≤ sec) (buf : Block) :
    (s.put why sec buf).disk = Function.update s.disk sec buf := by
  simp only [nmeta_eq] at hlow
  exact mark_update _ _ (by omega) _

theorem disk_data {sec : Nat} (hlow : nmeta ≤ sec) : s.disk sec = s.image sec := by
  simp only [nmeta_eq] at hlow
  exact mark_of_ne _ _ (by omega)

/-- A block of a file was handed out. -/
theorem Ready.ref_range (h : Ready s) {i : Nat} {x : Dinode} (hw : Work sb i s.disk x) {k : Nat}
    (hk : x.ref s.disk k ≠ 0) : nmeta ≤ x.ref s.disk k ∧ x.ref s.disk k < s.freeblock := by
  have hself := refs_self sb s.disk s.disk i x k
  have hne : refs s.disk (view sb s.disk i x) (i, k) ≠ 0 := by rwa [hself]
  have hrange := hw.owned.range _ hne
  have hused := hw.owned.used_ptr hne
  rw [hself] at hrange hused
  refine ⟨hrange.1, ?_⟩
  rw [h.bitSet hrange.2] at hused
  simpa using hused

end Sectors

/-! ## Finding the block of a byte -/

namespace Tight

variable {d d' : Disk} {x x' : Dinode} {off : Nat}

/-- A byte at `off` has its block. -/
theorem succ (h : Tight d x off)
    (hother : ∀ bn, bn ≠ off / bsize → x'.ref d' (place bn) = x.ref d (place bn))
    (hself : x'.ref d' (place (off / bsize)) ≠ 0)
    (hind : x'.ref d' 12 ≠ 0 ↔ 12 * bsize ≤ off) : Tight d' x' (off + 1) := by
  constructor
  · intro bn
    by_cases hbn : bn = off / bsize
    · subst hbn
      have hle := Nat.div_mul_le_self off bsize
      exact iff_of_true hself (by omega)
    · rw [hother bn hbn, h.mapped bn]
      simp only [bsize_eq] at hbn ⊢
      omega
  · rw [hind]
    exact Nat.lt_succ_iff.symm

/-- The rest of the block adds nothing. -/
theorem extend (h : Tight d x (off + 1)) {m : Nat} (hpos : 0 < m) (hm : m ≤ bsize - off % bsize) :
    Tight d x (off + m) := by
  constructor
  · intro bn
    rw [h.mapped bn]
    simp only [bsize_eq] at hm ⊢
    omega
  · rw [h.indirect]
    simp only [bsize_eq] at hm ⊢
    omega

theorem congr (h : Tight d x off) (href : x'.ref d' = x.ref d) : Tight d' x' off := by
  constructor
  · intro bn
    rw [href]
    exact h.mapped bn
  · rw [href]
    exact h.indirect

end Tight

/-- What finding the block of the byte at `off` did: the inode became `x'`, the block is `b`, and
as many blocks as needed were handed out. -/
structure Found (s : MkState) (i : Nat) (x : Dinode) (off : Nat) (x' : Dinode) (b : Nat)
    (t : MkState) : Prop where
  ready : Ready t
  count : t.freeblock = s.freeblock + newBlocks off
  added : Added sb i s.disk x t.disk x'
  block : b = x'.ref t.disk (place (off / bsize))
  block_ne : b ≠ 0
  same : x.ref s.disk (place (off / bsize)) ≠ 0 → x' = x
  tight : Tight t.disk x' (off + 1)
  inodes : t.freeinode = s.freeinode

section MapBlock

variable {s : MkState} {i : Nat} {x : Dinode} {off : Nat}

theorem ensureAddr_present {k : Nat} (h : x.addr k ≠ 0) : ensureAddr x k s = .ok (x, s) := by
  unfold ensureAddr
  rw [if_neg h]
  rfl

theorem ensureAddr_absent {k : Nat} (h : x.addr k = 0) :
    ensureAddr x k s = .ok (x.setAddr k (UInt32.ofNat s.freeblock), s.took) := by
  unfold ensureAddr
  rw [if_pos h, bind_ok takeBlock_ok]
  rfl

theorem mapBlock_direct {fbn : Nat} (h : fbn < 12) :
    mapBlock x fbn = ensureAddr x fbn >>= fun din => pure (din, (din.addr fbn).toNat) :=
  if_pos h

theorem mapBlock_indirect {fbn : Nat} (h : ¬ fbn < 12) :
    mapBlock x fbn = ensureAddr x 12 >>= fun din => rsect (din.addr 12).toNat >>= fun indirect =>
      fillEntry (din.addr 12).toNat indirect (fbn - 12) >>= fun b => pure (din, b) := by
  unfold mapBlock
  simp only [ndirect_eq]
  exact if_neg h

theorem fillEntry_present {a j : Nat} {indirect : Block} (h : indirectEntry indirect j ≠ 0) :
    fillEntry a indirect j s = .ok ((indirectEntry indirect j).toNat, s) := by
  unfold fillEntry
  rw [if_neg h]
  rfl

theorem fillEntry_absent (hs : s.sectors = fssize) {a j : Nat} (ha : a < fssize)
    (hj : j < 128) {indirect : Block} (h : indirectEntry indirect j = 0)
    (hb : s.freeblock < 2 ^ 32) :
    fillEntry a indirect j s = .ok (s.freeblock, s.took.put .data a
      (indirect.write Layout.u32 (4 * j) (UInt32.ofNat s.freeblock))) := by
  have hwidth : Layout.u32.width = 4 := rfl
  have hread : (indirectEntry (indirect.write Layout.u32 (4 * j) (UInt32.ofNat s.freeblock))
      j).toNat = s.freeblock := by
    unfold indirectEntry
    rw [Bytes.read_write_same (by simp only [hwidth, bsize_eq]; omega)]
    exact UInt32.toNat_ofNat_of_lt' hb
  unfold fillEntry
  rw [if_pos h, bind_ok takeBlock_ok]
  show (wsect .data a _ >>= fun _ => pure (indirectEntry _ j).toNat) s.took = _
  rw [bind_ok (wsect_ok (s := s.took) hs .data ha _)]
  exact congrArg (fun b => Except.ok (b, _)) hread

theorem newBlocks_mapped (h : off % bsize ≠ 0) : newBlocks off = 0 :=
  if_pos h

theorem newBlocks_indirect (h : off = 12 * bsize) : newBlocks off = 2 := by
  rw [h]
  rfl

theorem newBlocks_one (h : off % bsize = 0) (hne : off ≠ 12 * bsize) : newBlocks off = 1 := by
  unfold newBlocks
  rw [if_neg (not_not.mpr h), if_neg hne]

/-- The byte is in the last block of the file: nothing changes. -/
theorem mapBlock_mapped (hr : Ready s) (hw : Work sb i s.disk x) (ht : Tight s.disk x off)
    (hoff : off % bsize ≠ 0) :
    ∃ b, mapBlock x (off / bsize) s = .ok ((x, b), s) ∧ Found s i x off x b s := by
  have hle := Nat.div_add_mod' off bsize
  have hmapped : x.ref s.disk (place (off / bsize)) ≠ 0 := (ht.mapped _).mpr (by omega)
  have hind : x.ref s.disk 12 ≠ 0 ↔ 12 * bsize ≤ off := by
    rw [ht.indirect]
    simp only [bsize_eq] at hoff ⊢
    omega
  have hfound : Found s i x off x (x.ref s.disk (place (off / bsize))) s := by
    refine ⟨hr, ?_, Added.refl hw, rfl, hmapped, fun _ => rfl, ?_, rfl⟩
    · rw [newBlocks_mapped hoff, Nat.add_zero]
    · exact ht.succ (fun _ _ => rfl) hmapped hind
  refine ⟨_, ?_, hfound⟩
  by_cases hdirect : off / bsize < 12
  · have href : x.ref s.disk (place (off / bsize)) = (x.addr (off / bsize)).toNat := by
      rw [place, if_pos hdirect, ref_addr hw.type (by omega)]
    rw [href] at hmapped ⊢
    have haddr : x.addr (off / bsize) ≠ 0 := by
      intro hzero
      rw [hzero] at hmapped
      exact hmapped rfl
    rw [mapBlock_direct hdirect, bind_ok (ensureAddr_present haddr)]
    rfl
  · have hplace := place_indirect hdirect
    have hin : off / bsize - 12 < 128 := by
      by_contra hout
      exact hmapped (ref_above (by omega) (Or.inr (by omega)))
    have haddr : x.addr 12 ≠ 0 := by
      intro hzero
      exact hmapped (by rw [hplace]; exact ref_above (by omega) (Or.inl hzero))
    have href12 : x.ref s.disk 12 = (x.addr 12).toNat := ref_addr hw.type (by decide)
    have hne12 : x.ref s.disk 12 ≠ 0 := by
      rw [href12]
      simpa [← UInt32.toNat_inj] using haddr
    have hrange := hr.ref_range hw hne12
    rw [href12] at hrange
    have hentry : x.ref s.disk (place (off / bsize)) =
        (indirectEntry (s.image (x.addr 12).toNat) (off / bsize - 12)).toNat := by
      rw [hplace, ref_entry hw.type haddr hin, disk_data hrange.1]
    rw [hentry] at hmapped ⊢
    have hne : indirectEntry (s.image (x.addr 12).toNat) (off / bsize - 12) ≠ 0 := by
      intro hzero
      rw [hzero] at hmapped
      exact hmapped rfl
    rw [mapBlock_indirect hdirect, bind_ok (ensureAddr_present haddr),
      bind_ok (rsect_ok hr (hrange.2.trans_le hr.high)), bind_ok (fillEntry_present hne)]
    rfl

/-- The byte starts a direct block. -/
theorem mapBlock_newDirect (hr : Ready s) (hw : Work sb i s.disk x) (ht : Tight s.disk x off)
    (hoff : off % bsize = 0) (hdirect : off / bsize < 12) (hroom : s.freeblock < fssize) :
    ∃ x' b t, mapBlock x (off / bsize) s = .ok ((x', b), t) ∧ Found s i x off x' b t := by
  have hmul := Nat.div_add_mod' off bsize
  have hplace : place (off / bsize) = off / bsize := if_pos hdirect
  have hhole : x.ref s.disk (place (off / bsize)) = 0 := by
    by_contra hmapped
    have hlt := (ht.mapped _).mp hmapped
    omega
  have haddr : x.addr (off / bsize) = 0 := by
    rw [hplace, ref_addr hw.type (by omega)] at hhole
    exact UInt32.toNat_inj.mp hhole
  have hlow := hr.low
  simp only [nmeta_eq] at hlow
  have hbn : (UInt32.ofNat s.freeblock).toNat = s.freeblock := by
    apply UInt32.toNat_ofNat_of_lt'
    simp only [fssize_eq] at hroom
    exact hroom.trans (by decide)
  have hadd := hw.storeAddr (hr.unused hroom) hroom (by omega : off / bsize < 13) haddr
  have href := hw.ref_storeAddr (hr.unused hroom) hroom (by omega : off / bsize < 13) haddr
  rw [hr.allocated hroom] at hadd href
  refine ⟨x.setAddr (off / bsize) (UInt32.ofNat s.freeblock), s.freeblock, s.took, ?_, ?_⟩
  · rw [mapBlock_direct hdirect, bind_ok (ensureAddr_absent haddr)]
    have hself : ((x.setAddr (off / bsize) (UInt32.ofNat s.freeblock)).addr (off / bsize)).toNat =
        s.freeblock := by
      rw [addr_setAddr_same x (by omega), hbn]
    show Except.ok ((_, ((x.setAddr (off / bsize) (UInt32.ofNat s.freeblock)).addr
      (off / bsize)).toNat), s.took) = _
    rw [hself]
  · have hself : (x.setAddr (off / bsize) (UInt32.ofNat s.freeblock)).ref s.took.disk
        (place (off / bsize)) = s.freeblock := by
      rw [href, hplace, Function.update_self]
    refine ⟨hr.took hroom, ?_, hadd, hself.symm, by omega,
      fun hne => absurd hhole hne, ?_, rfl⟩
    · have hone : newBlocks off = 1 := by
        apply newBlocks_one hoff
        simp only [bsize_eq] at hdirect ⊢
        omega
      rw [hone]
      rfl
    · apply ht.succ
      · intro bn hbn
        rw [href, Function.update_of_ne]
        intro heq
        rw [← hplace] at heq
        exact hbn (place_inj heq)
      · rw [hself]
        omega
      · rw [href, Function.update_of_ne (by omega), ht.indirect]
        simp only [bsize_eq] at hdirect ⊢
        omega

theorem Ready.freeblock_lt (h : Ready s) : s.freeblock < 2 ^ 32 := by
  have hhigh := h.high
  simp only [fssize_eq] at hhigh
  omega

/-- The byte starts a block behind the first one of the indirect block. -/
theorem mapBlock_newEntry (hr : Ready s) (hw : Work sb i s.disk x) (ht : Tight s.disk x off)
    (hoff : off % bsize = 0) (hdirect : 12 < off / bsize) (hfbn : off / bsize < maxfile)
    (hroom : s.freeblock < fssize) :
    ∃ x' b t, mapBlock x (off / bsize) s = .ok ((x', b), t) ∧ Found s i x off x' b t := by
  have hmul := Nat.div_add_mod' off bsize
  have hplace := place_indirect (by omega : ¬ off / bsize < 12)
  simp only [maxfile_eq] at hfbn
  generalize hj : off / bsize - 12 = j at hplace
  have hhole : x.ref s.disk (place (off / bsize)) = 0 := by
    by_contra hmapped
    have hlt := (ht.mapped _).mp hmapped
    omega
  have href12 : x.ref s.disk 12 = (x.addr 12).toNat := ref_addr hw.type (by decide)
  have hne12 : x.ref s.disk 12 ≠ 0 := by
    rw [ht.indirect]
    simp only [bsize_eq] at hdirect hoff ⊢
    omega
  have haddr : x.addr 12 ≠ 0 := by
    intro hzero
    rw [href12, hzero] at hne12
    exact hne12 rfl
  have hrange := hr.ref_range hw hne12
  rw [href12] at hrange
  have hentry : indirectEntry (s.disk (x.addr 12).toNat) j = 0 := by
    rw [hplace, ref_entry hw.type haddr (by omega)] at hhole
    exact UInt32.toNat_inj.mp hhole
  have hadd := hw.storeEntry (hr.unused hroom) hroom (by omega : j < 128) haddr hentry
  have href := hw.ref_storeEntry (hr.unused hroom) hroom (by omega : j < 128) haddr
  have hlow := hr.low
  simp only [nmeta_eq] at hlow
  have hdisk : s.took.disk (x.addr 12).toNat = s.image (x.addr 12).toNat :=
    disk_data (s := s.took) hrange.1
  rw [disk_data hrange.1] at hentry
  rw [hr.allocated hroom, hdisk, ← put_disk .data hrange.1] at hadd href
  generalize hput : s.took.put .data (x.addr 12).toNat
    ((s.image (x.addr 12).toNat).write Layout.u32 (4 * j) (UInt32.ofNat s.freeblock)) = t
    at hadd href
  refine ⟨x, s.freeblock, t, ?_, ?_⟩
  · rw [mapBlock_indirect (by omega), bind_ok (ensureAddr_present haddr),
      bind_ok (rsect_ok hr (hrange.2.trans_le hr.high)), hj,
      bind_ok (fillEntry_absent hr.sectors (hrange.2.trans_le hr.high) (by omega) hentry
        hr.freeblock_lt), hput]
    rfl
  · have hself : x.ref t.disk (place (off / bsize)) = s.freeblock := by
      rw [href, hplace, Function.update_self]
    have hready : Ready t := by
      rw [← hput]
      exact (hr.took hroom).put hrange.1 (Nat.lt_succ_of_lt hrange.2) _
    refine ⟨hready, ?_, hadd, hself.symm, by omega, fun hne => absurd hhole hne, ?_,
      by rw [← hput]; rfl⟩
    · have hone : newBlocks off = 1 := by
        apply newBlocks_one hoff
        simp only [bsize_eq] at hdirect ⊢
        omega
      rw [hone, ← hput]
      rfl
    · apply ht.succ
      · intro bn hbn
        rw [href, Function.update_of_ne]
        intro heq
        rw [← hplace] at heq
        exact hbn (place_inj heq)
      · rw [hself]
        omega
      · rw [href, Function.update_of_ne (by omega)]
        refine iff_of_true hne12 ?_
        simp only [bsize_eq] at hdirect ⊢
        omega

/-- The byte starts the first block of the indirect block. -/
theorem mapBlock_newBoth (hr : Ready s) (hw : Work sb i s.disk x) (ht : Tight s.disk x off)
    (hoff : off = 12 * bsize) (hroom : s.freeblock + 1 < fssize) :
    ∃ x' b t, mapBlock x (off / bsize) s = .ok ((x', b), t) ∧ Found s i x off x' b t := by
  have hfbn : off / bsize = 12 := by
    rw [hoff]
    rfl
  have hplace : place (off / bsize) = 13 := by
    rw [hfbn]
    rfl
  have href12 : x.ref s.disk 12 = (x.addr 12).toNat := ref_addr hw.type (by decide)
  have haddr : x.addr 12 = 0 := by
    have hzero : x.ref s.disk 12 = 0 := by
      by_contra hmapped
      have hlt := ht.indirect.mp hmapped
      omega
    rw [href12] at hzero
    exact UInt32.toNat_inj.mp hzero
  have hhole : x.ref s.disk (place (off / bsize)) = 0 := by
    rw [hplace]
    exact ref_above (by decide) (Or.inl haddr)
  have hroom' : s.freeblock < fssize := Nat.lt_of_succ_lt hroom
  have hlow := hr.low
  have hbn : (UInt32.ofNat s.freeblock).toNat = s.freeblock :=
    UInt32.toNat_ofNat_of_lt' hr.freeblock_lt
  -- first the indirect block
  generalize hx : x.setAddr 12 (UInt32.ofNat s.freeblock) = x₁
  have hadd := hw.storeAddr (hr.unused hroom') hroom' (by decide : 12 < 13) haddr
  have href := hw.ref_storeAddr (hr.unused hroom') hroom' (by decide : 12 < 13) haddr
  rw [hr.allocated hroom', hx] at hadd href
  have hready := hr.took hroom'
  have hx12 : x₁.addr 12 = UInt32.ofNat s.freeblock := by
    rw [← hx]
    exact addr_setAddr_same x (by decide) _
  simp only [nmeta_eq] at hlow
  have haddr₁ : x₁.addr 12 ≠ 0 := by
    rw [hx12, Ne, ← UInt32.toNat_inj, hbn]
    exact (by omega : s.freeblock ≠ 0)
  have hzero : s.took.disk (x₁.addr 12).toNat = Bytes.zero bsize := by
    rw [hx12, hbn, disk_data (by simp only [nmeta_eq]; omega)]
    exact hr.fresh _ (le_refl _)
  -- then its first entry
  have hentry : indirectEntry (s.took.disk (x₁.addr 12).toNat) 0 = 0 := by
    rw [hzero]
    exact indirectEntry_zero 0
  have hadd₂ := hadd.work.storeEntry (hready.unused hroom) hroom (by decide : 0 < 128) haddr₁ hentry
  have href₂ := hadd.work.ref_storeEntry (hready.unused hroom) hroom (by decide : 0 < 128) haddr₁
  have hdisk : s.took.took.disk (x₁.addr 12).toNat = Bytes.zero bsize := by
    rw [hx12, hbn, disk_data (by simp only [nmeta_eq]; omega)]
    exact hr.fresh _ (le_refl _)
  have hnmeta : nmeta ≤ (x₁.addr 12).toNat := by
    rw [hx12, hbn]
    exact hr.low
  rw [hready.allocated hroom, hdisk, ← put_disk .data hnmeta] at hadd₂ href₂
  generalize hput : s.took.took.put .data (x₁.addr 12).toNat ((Bytes.zero bsize).write Layout.u32
    (4 * 0) (UInt32.ofNat s.took.freeblock)) = t at hadd₂ href₂
  refine ⟨x₁, s.took.freeblock, t, ?_, ?_⟩
  · have hfirst : rsect (x₁.addr 12).toNat s.took = .ok (Bytes.zero bsize, s.took) := by
      have hread := rsect_ok hready hroom'
      rw [hx12, hbn, hread]
      exact congrArg (fun b => Except.ok (b, s.took)) (hr.fresh _ (le_refl _))
    rw [hzero] at hentry
    rw [mapBlock_indirect (by omega), bind_ok (ensureAddr_absent haddr), hx, bind_ok hfirst,
      hfbn, bind_ok (fillEntry_absent hready.sectors
        (by rw [hx12, hbn]; exact hroom') (by decide) hentry hready.freeblock_lt), hput]
    rfl
  · have hself : x₁.ref t.disk (place (off / bsize)) = s.took.freeblock := by
      rw [href₂, hplace, Function.update_self]
    have hsucc : s.took.freeblock = s.freeblock + 1 := rfl
    have hlt : (x₁.addr 12).toNat < s.took.took.freeblock := by
      rw [hx12, hbn]
      exact Nat.lt_add_of_pos_right (by decide : 0 < 2)
    have hready₂ : Ready t := by
      rw [← hput]
      exact (hready.took hroom).put hnmeta hlt _
    refine ⟨hready₂, ?_, hadd.trans hadd₂, hself.symm, by omega, fun hne => absurd hhole hne, ?_,
      by rw [← hput]; rfl⟩
    · rw [newBlocks_indirect hoff, ← hput]
      rfl
    · apply ht.succ
      · intro bn hbn'
        have hne : place bn ≠ 13 := by
          intro heq
          rw [← hplace] at heq
          exact hbn' (place_inj heq)
        rw [href₂, Function.update_of_ne hne, href, Function.update_of_ne (place_ne bn)]
      · rw [hself]
        omega
      · rw [href₂, Function.update_of_ne (by decide), href, Function.update_self]
        exact iff_of_true (by omega) (by omega)

/-- Finding the block of a byte, when enough blocks are left. -/
theorem mapBlock_ok (hr : Ready s) (hw : Work sb i s.disk x) (ht : Tight s.disk x off)
    (hfbn : off / bsize < maxfile) (hroom : s.freeblock + newBlocks off ≤ fssize) :
    ∃ x' b t, mapBlock x (off / bsize) s = .ok ((x', b), t) ∧ Found s i x off x' b t := by
  by_cases hoff : off % bsize = 0
  · by_cases hboth : off = 12 * bsize
    · rw [newBlocks_indirect hboth] at hroom
      exact mapBlock_newBoth hr hw ht hboth hroom
    · rw [newBlocks_one hoff hboth] at hroom
      by_cases hdirect : off / bsize < 12
      · exact mapBlock_newDirect hr hw ht hoff hdirect hroom
      · refine mapBlock_newEntry hr hw ht hoff ?_ hfbn hroom
        simp only [bsize_eq] at hoff hboth hdirect ⊢
        omega
  · obtain ⟨b, hrun, hfound⟩ := mapBlock_mapped hr hw ht hoff
    exact ⟨x, b, s, hrun, hfound⟩

/-- With too few blocks left, the program ends at the next read. -/
theorem mapBlock_full (hr : Ready s) (hw : Work sb i s.disk x) (ht : Tight s.disk x off)
    (hfbn : off / bsize < maxfile) (hfull : fssize < s.freeblock + newBlocks off) :
    mapBlock x (off / bsize) s = .error .failure ∨
      ∃ x' t, mapBlock x (off / bsize) s = .ok ((x', fssize), t) ∧ t.sectors = fssize := by
  have hhigh := hr.high
  have hlow := hr.low
  have hmul := Nat.div_add_mod' off bsize
  have hbn : (UInt32.ofNat s.freeblock).toNat = s.freeblock :=
    UInt32.toNat_ofNat_of_lt' hr.freeblock_lt
  have hoff : off % bsize = 0 := by
    by_contra hne
    rw [newBlocks_mapped hne] at hfull
    omega
  simp only [maxfile_eq] at hfbn
  have href12 : x.ref s.disk 12 = (x.addr 12).toNat := ref_addr hw.type (by decide)
  have hhole : x.ref s.disk (place (off / bsize)) = 0 := by
    by_contra hmapped
    have hlt := (ht.mapped _).mp hmapped
    omega
  by_cases hboth : off = 12 * bsize
  · have hfbn12 : off / bsize = 12 := by
      rw [hboth]
      rfl
    have haddr : x.addr 12 = 0 := by
      have hzero : x.ref s.disk 12 = 0 := by
        by_contra hmapped
        have hlt := ht.indirect.mp hmapped
        omega
      rw [href12] at hzero
      exact UInt32.toNat_inj.mp hzero
    have hself : ((x.setAddr 12 (UInt32.ofNat s.freeblock)).addr 12).toNat = s.freeblock := by
      rw [addr_setAddr_same x (by decide), hbn]
    rw [newBlocks_indirect hboth] at hfull
    rw [mapBlock_indirect (by omega), bind_ok (ensureAddr_absent haddr), hself]
    by_cases hend : s.freeblock = fssize
    · left
      exact bind_error (rsect_end (s := s.took) hr.sectors hend)
    · right
      have hlt : s.freeblock < fssize := lt_of_le_of_ne hhigh hend
      have hready := hr.took hlt
      have hfirst : rsect s.freeblock s.took = .ok (Bytes.zero bsize, s.took) := by
        rw [rsect_ok hready hlt]
        exact congrArg (fun b => Except.ok (b, s.took)) (hr.fresh _ (le_refl _))
      rw [bind_ok hfirst, bind_ok (fillEntry_absent hready.sectors hlt (by omega)
        (indirectEntry_zero _) hready.freeblock_lt)]
      have hsucc : s.took.freeblock = fssize := by
        show s.freeblock + 1 = fssize
        omega
      exact ⟨_, _, congrArg (fun b => Except.ok ((_, b), _)) hsucc, hr.sectors⟩
  · rw [newBlocks_one hoff hboth] at hfull
    have hend : s.freeblock = fssize := by omega
    right
    by_cases hdirect : off / bsize < 12
    · have haddr : x.addr (off / bsize) = 0 := by
        rw [place, if_pos hdirect, ref_addr hw.type (by omega)] at hhole
        exact UInt32.toNat_inj.mp hhole
      have hself : ((x.setAddr (off / bsize) (UInt32.ofNat s.freeblock)).addr
          (off / bsize)).toNat = fssize := by
        rw [addr_setAddr_same x (by omega), hbn, hend]
      rw [mapBlock_direct hdirect, bind_ok (ensureAddr_absent haddr)]
      exact ⟨_, _, congrArg (fun b => Except.ok ((_, b), _)) hself, hr.sectors⟩
    · have hne12 : x.ref s.disk 12 ≠ 0 := by
        rw [ht.indirect]
        simp only [bsize_eq] at hdirect hoff hboth ⊢
        omega
      have haddr : x.addr 12 ≠ 0 := by
        intro hzero
        rw [href12, hzero] at hne12
        exact hne12 rfl
      have hrange := hr.ref_range hw hne12
      rw [href12] at hrange
      have hentry : indirectEntry (s.image (x.addr 12).toNat) (off / bsize - 12) = 0 := by
        rw [place_indirect hdirect, ref_entry hw.type haddr (by omega), disk_data hrange.1] at hhole
        exact UInt32.toNat_inj.mp hhole
      rw [mapBlock_indirect hdirect, bind_ok (ensureAddr_present haddr),
        bind_ok (rsect_ok hr (hrange.2.trans_le hhigh)),
        bind_ok (fillEntry_absent hr.sectors (hrange.2.trans_le hhigh) (by omega) hentry
          hr.freeblock_lt)]
      exact ⟨_, _, congrArg (fun b => Except.ok ((_, b), _)) hend, hr.sectors⟩

end MapBlock

/-! ## The loop -/

theorem assertThat_true {s : MkState} {b : Bool} (h : b = true) : assertThat b s = .ok ((), s) := by
  unfold assertThat
  rw [if_pos h]
  rfl

theorem assertThat_false {s : MkState} {b : Bool} (h : b ≠ true) :
    assertThat b s = .error .abort := by
  unfold assertThat
  rw [if_neg h]
  rfl

/-- What appending `p` to inode `i` from `off` on did. -/
structure Appended (s : MkState) (i : Nat) (x : Dinode) (off : Nat) (p : List UInt8)
    (x' : Dinode) (t : MkState) : Prop where
  ready : Ready t
  inodes : t.freeinode = s.freeinode
  count : t.freeblock + blocksOf off = s.freeblock + blocksOf (off + p.length)
  wrote : Wrote sb i s.disk x off p t.disk x'
  tight : Tight t.disk x' (off + p.length)
  fits : off + p.length ≤ maxfile * bsize

/-- Why appending `n` bytes from `off` on ended the program: the file or the image became too
big. -/
def TooBig (s : MkState) (off n : Nat) (e : Exit) : Prop :=
  (e = .abort ∧ maxfile * bsize < off + n) ∨
    (e = .failure ∧ fssize + blocksOf off < s.freeblock + blocksOf (off + n))

section Loop

variable {s : MkState} {i : Nat} {x : Dinode} {off : Nat}

theorem Appended.nil (hr : Ready s) (hw : Work sb i s.disk x) (ht : Tight s.disk x off)
    (hle : off ≤ maxfile * bsize) : Appended s i x off [] x s :=
  ⟨hr, rfl, rfl, Wrote.nil hw, ht, hle⟩

/-- One round of the loop. -/
theorem Found.appended {x' : Dinode} {b m : Nat} {t : MkState} {p : List UInt8}
    (h : Found s i x off x' b t) (hfbn : off / bsize < maxfile) (hpos : 0 < m)
    (hm : m ≤ bsize - off % bsize) (hlen : p.length = m) :
    Appended s i x off p x' (t.put .data b ((t.image b).overwrite (off % bsize) p)) := by
  have hb := h.block
  have hne := h.block_ne
  rw [hb] at hne
  have hrange := h.ready.ref_range h.added.work hne
  rw [← hb] at hrange
  have hdisk : (t.put .data b ((t.image b).overwrite (off % bsize) p)).disk =
      Function.update t.disk (x'.ref t.disk (place (off / bsize)))
        ((t.disk (x'.ref t.disk (place (off / bsize)))).overwrite (off % bsize) p) := by
    rw [put_disk .data hrange.1, ← hb, disk_data hrange.1]
  have hwrote := Wrote.chunk h.added hne h.same (by rw [hlen]; exact hm) (by rw [hlen]; exact hpos)
  rw [← hdisk] at hwrote
  refine ⟨h.ready.put hrange.1 hrange.2 _, h.inodes, ?_, hwrote, ?_, ?_⟩
  · rw [hlen, blocksOf_add hpos hm]
    show t.freeblock + blocksOf off = _
    rw [h.count]
    omega
  · rw [hlen]
    apply (h.tight.extend hpos hm).congr
    rw [hdisk]
    exact (h.added.work.overwrite hne _).1
  · rw [hlen]
    simp only [bsize_eq, maxfile_eq] at hfbn hm ⊢
    omega

theorem Appended.append {p q : List UInt8} {x' x'' : Dinode} {t u : MkState}
    (h : Appended s i x off p x' t) (h' : Appended t i x' (off + p.length) q x'' u) :
    Appended s i x off (p ++ q) x'' u := by
  have hlen : off + (p ++ q).length = off + p.length + q.length := by
    rw [List.length_append, Nat.add_assoc]
  have hcount := h.count
  have hcount' := h'.count
  refine ⟨h'.ready, h'.inodes.trans h.inodes, ?_, h.wrote.append h'.wrote, ?_, ?_⟩
  · rw [hlen]
    omega
  · rw [hlen]
    exact h'.tight
  · rw [hlen]
    exact h'.fits

/-- The loop of `iappend`. -/
theorem appendLoop_spec {fuel : Nat} :
    ∀ {s : MkState} {x : Dinode} {off : Nat} {p : List UInt8}, Ready s → Work sb i s.disk x →
      Tight s.disk x off → off ≤ maxfile * bsize → p.length ≤ fuel →
      wp (appendLoop fuel x off p) (fun r t => r.2 = off + p.length ∧ Appended s i x off p r.1 t)
        (TooBig s off p.length) s := by
  induction fuel with
  | zero =>
    intro s x off p hr hw ht hle hfuel
    have hp : p = [] := List.eq_nil_of_length_eq_zero (by omega)
    subst hp
    exact ⟨rfl, Appended.nil hr hw ht hle⟩
  | succ fuel ih =>
    intro s x off p hr hw ht hle hfuel
    unfold appendLoop
    by_cases hp : p = []
    · rw [if_pos hp]
      subst hp
      exact ⟨rfl, Appended.nil hr hw ht hle⟩
    · rw [if_neg hp]
      have hpos : 0 < p.length := List.length_pos_of_ne_nil hp
      have hmod : off % bsize < bsize := Nat.mod_lt _ (by decide)
      have hdiv := Nat.div_add_mod' off bsize
      have hsucc : (off / bsize + 1) * bsize = off / bsize * bsize + bsize := Nat.succ_mul _ _
      have hin : off - off / bsize * bsize = off % bsize := by omega
      have hroomIn : (off / bsize + 1) * bsize - off = bsize - off % bsize := by omega
      simp only [hin, hroomIn]
      generalize hm : min p.length (bsize - off % bsize) = m
      have hmpos : 0 < m := by omega
      have hmle : m ≤ bsize - off % bsize := by omega
      have hlen : (p.take m).length = m := List.length_take_of_le (by omega)
      by_cases hfbn : off / bsize < maxfile
      · rw [wp_bind, wp_of_ok (assertThat_true (decide_eq_true hfbn))]
        have hcost := blocksOf_add hmpos hmle
        have hmono := blocksOf_mono (by omega : off + m ≤ off + p.length)
        by_cases hroom : s.freeblock + newBlocks off ≤ fssize
        · obtain ⟨x', b, t, hrun, hfound⟩ := mapBlock_ok hr hw ht hfbn hroom
          have hround := hfound.appended hfbn hmpos hmle hlen
          have hb := hfound.block
          have hrange := hfound.ready.ref_range hfound.added.work (hb ▸ hfound.block_ne)
          rw [← hb] at hrange
          have hlt : b < fssize := hrange.2.trans_le hfound.ready.high
          rw [wp_bind, wp_of_ok hrun]
          show wp (rsect b >>= fun buf => wsect .data b (buf.overwrite (off % bsize) (p.take m)) >>=
            fun _ => appendLoop fuel x' (off + m) (p.drop m)) _ _ t
          rw [wp_bind, wp_of_ok (rsect_ok hfound.ready hlt), wp_bind,
            wp_of_ok (wsect_ok hfound.ready.sectors .data hlt _)]
          have hcount := hround.count
          rw [hlen] at hcount
          have hrest : off + m + (p.drop m).length = off + p.length := by
            rw [List.length_drop]
            omega
          have htight := hround.tight
          have hfits := hround.fits
          rw [hlen] at htight hfits
          refine wp_mono (ih hround.ready hround.wrote.work htight hfits
            (by rw [List.length_drop]; omega)) ?_ ?_
          · rintro ⟨x'', off'⟩ u ⟨hoff', happ⟩
            refine ⟨hoff'.trans hrest, ?_⟩
            have happ' := hround.append (by rw [hlen]; exact happ)
            rwa [List.take_append_drop] at happ'
          · rintro e (⟨he, hbig⟩ | ⟨he, hbig⟩)
            · exact Or.inl ⟨he, by omega⟩
            · refine Or.inr ⟨he, ?_⟩
              rw [hrest] at hbig
              omega
        · have hfull : fssize < s.freeblock + newBlocks off := by omega
          have htoo : TooBig s off p.length .failure := Or.inr ⟨rfl, by omega⟩
          rcases mapBlock_full hr hw ht hfbn hfull with herr | ⟨x', t, hrun, hsec⟩
          · rw [wp_bind, wp_of_error herr]
            exact htoo
          · rw [wp_bind, wp_of_ok hrun]
            show wp (rsect fssize >>= fun buf => wsect .data fssize
              (buf.overwrite (off % bsize) (p.take m)) >>=
                fun _ => appendLoop fuel x' (off + m) (p.drop m)) _ _ t
            rw [wp_bind, wp_of_error (rsect_end hsec rfl)]
            exact htoo
      · have hfalse : decide (off / bsize < maxfile) ≠ true :=
          fun htrue => hfbn (of_decide_eq_true htrue)
        rw [wp_bind, wp_of_error (assertThat_false hfalse)]
        refine Or.inl ⟨rfl, ?_⟩
        have hge : maxfile * bsize ≤ off / bsize * bsize :=
          Nat.mul_le_mul_right _ (Nat.le_of_not_lt hfbn)
        omega

end Loop

end Xv6.Mkfs
