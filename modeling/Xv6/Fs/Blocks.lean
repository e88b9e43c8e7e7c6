import Xv6.Foundations.Ownership
import Xv6.Fs.Kernel

/-!
# File system - Allocation of blocks

An inode refers to blocks at numbered places: its direct blocks, its indirect
block and the entries of the indirect block.  The free map is exact for these
references while the code allocates blocks for one inode, whose copy in the cache is
ahead of the disk.

Main results:

- Theorem {lit}`balloc_spec`: the allocator.
- Theorem {lit}`bmap_spec`: {lit}`bmap` returns the block of a file's contents,
  and keeps the map exact when it allocates.
-/

namespace Xv6.Fs

open Foundations

/-! ## References to blocks -/

/-- The block number at place `k` of an inode: a direct block for `k < 12`, the
indirect block for `k = 12`, entry `k - 13` of the indirect block above. -/
def Dinode.ref (d : Disk) (x : Dinode) (k : Nat) : Nat :=
  if x.type = 0 then 0
  else if k < 13 then (x.addr k).toNat
  else if x.addr 12 = 0 ∨ 141 ≤ k then 0
  else (indirectEntry (d (x.addr 12).toNat) (k - 13)).toNat

/-- The references of all inodes of a table. -/
def refs (d : Disk) (F : Nat → Dinode) (q : Nat × Nat) : Nat :=
  (F q.1).ref d q.2

/-- The inode table on disk. -/
def inodeTable (sb : Superblock) (d : Disk) (i : Nat) : Dinode :=
  if i < sb.ninodes then dinodeAt sb d i else Dinode.fresh 0

/-- The inode table, with `x` in the place of inode `i`. -/
def view (sb : Superblock) (d : Disk) (i : Nat) (x : Dinode) : Nat → Dinode :=
  Function.update (inodeTable sb d) i x

theorem addr_setAddr_same (x : Dinode) {k : Nat} (hk : k < 13) (a : UInt32) :
    (x.setAddr k a).addr k = a := by
  simp [Dinode.addr, Dinode.setAddr, hk]

theorem addr_setAddr_ne (x : Dinode) {k l : Nat} (h : l ≠ k) (a : UInt32) :
    (x.setAddr k a).addr l = x.addr l := by
  simp [Dinode.addr, Dinode.setAddr, h]

theorem ref_free {d : Disk} {x : Dinode} (h : x.type = 0) (k : Nat) : x.ref d k = 0 :=
  if_pos h

theorem ref_addr {d : Disk} {x : Dinode} (h : x.type ≠ 0) {k : Nat} (hk : k < 13) :
    x.ref d k = (x.addr k).toNat := by
  rw [Dinode.ref, if_neg h, if_pos hk]

theorem ref_entry {d : Disk} {x : Dinode} (h : x.type ≠ 0) (hind : x.addr 12 ≠ 0)
    {j : Nat} (hj : j < 128) :
    x.ref d (13 + j) = (indirectEntry (d (x.addr 12).toNat) j).toNat := by
  have hin : ¬(x.addr 12 = 0 ∨ 141 ≤ 13 + j) := by
    rintro (hzero | hle)
    · exact hind hzero
    · omega
  rw [Dinode.ref, if_neg h, if_neg (by omega), if_neg hin, Nat.add_sub_cancel_left]

theorem ref_above {d : Disk} {x : Dinode} {k : Nat} (hk : 13 ≤ k)
    (h : x.addr 12 = 0 ∨ 141 ≤ k) : x.ref d k = 0 := by
  rw [Dinode.ref, if_neg (by omega : ¬k < 13), if_pos h]
  split <;> rfl

/-- Only the contents of the indirect block matter. -/
theorem ref_congr {d d' : Disk} {x : Dinode}
    (h : x.ref d 12 ≠ 0 → d' (x.ref d 12) = d (x.ref d 12)) (k : Nat) :
    x.ref d' k = x.ref d k := by
  by_cases htype : x.type = 0
  · rw [ref_free htype, ref_free htype]
  · rw [ref_addr htype (by omega)] at h
    by_cases hind : x.addr 12 = 0
    · simp [Dinode.ref, hind]
    · have hne : (x.addr 12).toNat ≠ 0 := by
        simpa [← UInt32.toNat_inj] using hind
      rw [Dinode.ref, Dinode.ref, h hne]

theorem indirectEntry_zero (j : Nat) : indirectEntry (Bytes.zero bsize) j = 0 := by
  have hslice : (Bytes.zero bsize).slice (4 * j) 4 = [0, 0, 0, 0] := by
    simp [Bytes.slice, List.range_succ]
  unfold indirectEntry Bytes.read
  have hwidth : Layout.u32.width = 4 := rfl
  rw [hwidth, hslice]
  rfl

/-- Storing a block number in the inode. -/
theorem ref_setAddr {d : Disk} {x : Dinode} (h : x.type ≠ 0) {k b : Nat} (hk : k < 13)
    (hb : b < 2 ^ 32) (hind : k = 12 → x.addr 12 = 0 ∧ d b = Bytes.zero bsize) :
    (x.setAddr k (UInt32.ofNat b)).ref d = Function.update (x.ref d) k b := by
  have hbn : (UInt32.ofNat b).toNat = b := UInt32.toNat_ofNat_of_lt' hb
  funext l
  by_cases hl : l < 13
  · rw [ref_addr (by exact h) hl]
    by_cases hlk : l = k
    · rw [hlk, addr_setAddr_same x hk, Function.update_self, hbn]
    · rw [addr_setAddr_ne x hlk, Function.update_of_ne hlk, ref_addr h hl]
  · rw [Function.update_of_ne (by omega)]
    by_cases hk12 : k = 12
    · subst hk12
      rw [ref_above (by omega) (Or.inl (hind rfl).1)]
      by_cases hl' : 141 ≤ l
      · exact ref_above (by omega) (Or.inr hl')
      · by_cases hzero : (x.setAddr 12 (UInt32.ofNat b)).addr 12 = 0
        · exact ref_above (by omega) (Or.inl hzero)
        · have hentry := ref_entry (d := d) (j := l - 13) (by exact h) hzero (by omega)
          rw [show 13 + (l - 13) = l by omega] at hentry
          rw [hentry, addr_setAddr_same x hk, hbn, (hind rfl).2, indirectEntry_zero]
          rfl
    · unfold Dinode.ref
      rw [addr_setAddr_ne x (Ne.symm hk12), if_neg hl, if_neg hl]
      rfl

/-- Storing a block number in the indirect block. -/
theorem ref_writeEntry {d : Disk} {x : Dinode} (h : x.type ≠ 0) (hind : x.addr 12 ≠ 0)
    {j c : Nat} (hj : j < 128) (hc : c < 2 ^ 32) :
    x.ref (Function.update d (x.addr 12).toNat
      ((d (x.addr 12).toNat).write Layout.u32 (4 * j) (UInt32.ofNat c))) =
        Function.update (x.ref d) (13 + j) c := by
  have hcn : (UInt32.ofNat c).toNat = c := UInt32.toNat_ofNat_of_lt' hc
  funext l
  by_cases hl : l < 13
  · rw [ref_addr h hl, Function.update_of_ne (by omega), ref_addr h hl]
  · by_cases hl' : 141 ≤ l
    · rw [ref_above (by omega) (Or.inr hl'), Function.update_of_ne (by omega),
        ref_above (by omega) (Or.inr hl')]
    · have hlj : l = 13 + (l - 13) := by omega
      rw [hlj, ref_entry h hind (by omega), Function.update_self]
      unfold indirectEntry
      by_cases hsame : l - 13 = j
      · rw [hsame, Bytes.read_write_same, Function.update_self, hcn]
        simp only [bsize_eq]
        have hwidth : Layout.u32.width = 4 := rfl
        omega
      · rw [Bytes.read_write_disjoint, Function.update_of_ne (by omega),
          ref_entry h hind (by omega)]
        · rfl
        · have hwidth : Layout.u32.width = 4 := rfl
          omega

/-- References of a table are unchanged when the indirect blocks are. -/
theorem refs_congr {d d' : Disk} {F : Nat → Dinode}
    (h : ∀ j, refs d F (j, 12) ≠ 0 → d' (refs d F (j, 12)) = d (refs d F (j, 12))) :
    refs d' F = refs d F := by
  funext q
  exact ref_congr (h q.1) q.2

/-- A changed reference of one inode is a changed reference of the table. -/
theorem refs_update_ref {d : Disk} {T : Nat → Dinode} {i k b : Nat} {x x' : Dinode}
    (h : x'.ref d = Function.update (x.ref d) k b) :
    refs d (Function.update T i x') =
      Function.update (refs d (Function.update T i x)) (i, k) b := by
  funext q
  obtain ⟨j, l⟩ := q
  unfold refs
  by_cases hj : j = i
  · subst hj
    simp only [Function.update_self, h]
    by_cases hl : l = k
    · subst hl
      rw [Function.update_self, Function.update_self]
    · rw [Function.update_of_ne hl, Function.update_of_ne (by simp [hl]), Function.update_self]
  · rw [Function.update_of_ne (a := (j, l)) (by simp [hj])]
    simp only [Function.update_of_ne hj]

theorem refs_self (sb : Superblock) (d d' : Disk) (i : Nat) (x : Dinode) (k : Nat) :
    refs d' (view sb d i x) (i, k) = x.ref d' k := by
  simp [refs, view]

/-! ## The disk after an allocation -/

/-- The disk after `balloc` returned `b`. -/
def allocated (sb : Superblock) (d : Disk) (b : Nat) : Disk :=
  Function.update (setBit sb d b) b (Bytes.zero bsize)

theorem inodeTable_update {sb : Superblock} (h : Geometry sb) (d : Disk) {b : Nat}
    (hb : sb.bmapstart ≤ b) (block : Block) :
    inodeTable sb (Function.update d b block) = inodeTable sb d := by
  funext i
  unfold inodeTable
  by_cases hi : i < sb.ninodes
  · rw [if_pos hi, if_pos hi, h.dinodeAt_update d hb hi]
  · rw [if_neg hi, if_neg hi]

section Allocated

variable {sb : Superblock} {d : Disk} {b : Nat}

theorem bitSet_allocated (hb : sb.nmeta ≤ b) {c : Nat} (hc : c < sb.size) :
    bitSet sb (allocated sb d b) c = (decide (b = c) || bitSet sb d c) := by
  unfold allocated
  rw [Geometry.bitSet_update _ (Or.inr hb) hc, bitSet_setBit]

@[simp]
theorem allocated_self : allocated sb d b b = Bytes.zero bsize :=
  Function.update_self ..

theorem allocated_data (hlt : b < sb.size) {c : Nat} (hc : sb.nmeta ≤ c) (hne : c ≠ b) :
    allocated sb d b c = d c := by
  unfold allocated
  rw [Function.update_of_ne hne, Geometry.setBit_data d hlt hc]

theorem inodeTable_allocated (h : Geometry sb) (hb : sb.nmeta ≤ b) :
    inodeTable sb (allocated sb d b) = inodeTable sb d := by
  have hle := Geometry.bmapstart_lt sb
  unfold allocated setBit
  rw [inodeTable_update h _ (by omega), inodeTable_update h _ (Geometry.le_bblock sb b)]

theorem readsb_allocated (h : Geometry sb) (hb : sb.nmeta ≤ b) :
    readsb (allocated sb d b) = readsb d := by
  have htwo := h.two_lt_bmapstart
  have hmeta := Geometry.bmapstart_lt sb
  have hle := Geometry.le_bblock sb b
  unfold allocated setBit
  rw [Geometry.readsb_update _ (by omega), Geometry.readsb_update _ (by omega)]

/-- Nobody refers to a block that was free. -/
theorem refs_allocated {F : Nat → Dinode}
    (h : Owned sb.nmeta sb.size (bitSet sb d) (refs d F)) (hb : bitSet sb d b = false)
    (hlt : b < sb.size) {q : Nat × Nat} (hq : refs d F q ≠ 0) :
    allocated sb d b (refs d F q) = d (refs d F q) :=
  allocated_data hlt (h.range q hq).1 (h.ptr_ne_of_unused hb hq)

end Allocated

/-! ## One inode at work -/

/-- The code works on inode `i`, whose copy in memory is `x`; the free map is exact
for the references of `x` and of the other inodes on disk. -/
structure Work (sb : Superblock) (i : Nat) (d : Disk) (x : Dinode) : Prop where
  geo : Geometry sb
  super : readsb d = sb
  inum : i < sb.ninodes
  type : x.type ≠ 0
  owned : Owned sb.nmeta sb.size (bitSet sb d) (refs d (view sb d i x))

/-- References stay and data blocks keep their contents. -/
structure Grows (d : Disk) (F : Nat → Dinode) (d' : Disk) (F' : Nat → Dinode) : Prop where
  refs_eq : ∀ q, refs d F q ≠ 0 → refs d' F' q = refs d F q
  data_eq : ∀ q, q.2 ≠ 12 → refs d F q ≠ 0 → d' (refs d F q) = d (refs d F q)

theorem Grows.refl (d : Disk) (F : Nat → Dinode) : Grows d F d F :=
  ⟨fun _ _ => rfl, fun _ _ _ => rfl⟩

theorem Grows.trans {d d' d'' : Disk} {F F' F'' : Nat → Dinode} (h : Grows d F d' F')
    (h' : Grows d' F' d'' F'') : Grows d F d'' F'' := by
  constructor
  · intro q hq
    have hq' : refs d' F' q ≠ 0 := by rwa [h.refs_eq q hq]
    rw [h'.refs_eq q hq', h.refs_eq q hq]
  · intro q hne hq
    have hq' : refs d' F' q ≠ 0 := by rwa [h.refs_eq q hq]
    have hdata := h'.data_eq q hne hq'
    rw [h.refs_eq q hq] at hdata
    rw [hdata, h.data_eq q hne hq]

/-- The blocks of the inodes other than `i` have the same contents on `d` and `d'`. -/
def Spares (sb : Superblock) (i : Nat) (d : Disk) (x : Dinode) (d' : Disk) : Prop :=
  ∀ q : Nat × Nat, q.1 ≠ i → refs d (view sb d i x) q ≠ 0 →
    d' (refs d (view sb d i x) q) = d (refs d (view sb d i x) q)

namespace Spares

variable {sb : Superblock} {i : Nat} {d d' d'' : Disk} {x x' : Dinode}

theorem refl : Spares sb i d x d :=
  fun _ _ _ => rfl

theorem trans (h : Spares sb i d x d')
    (hrefs : ∀ q, refs d (view sb d i x) q ≠ 0 →
      refs d' (view sb d' i x') q = refs d (view sb d i x) q)
    (h' : Spares sb i d' x' d'') : Spares sb i d x d'' := by
  intro q hi hq
  have hsame := hrefs q hq
  have hlater := h' q hi (by rwa [hsame])
  rw [hsame] at hlater
  rw [hlater, h q hi hq]

/-- Overwriting a block of inode `i`. -/
theorem update (hw : Work sb i d x) (k : Nat) (block : Block) :
    Spares sb i d x (Function.update d (x.ref d k) block) := by
  intro q hi hq
  have hself := refs_self sb d d i x k
  apply Function.update_of_ne
  rw [← hself]
  apply hw.owned.ptr_ne hq
  intro heq
  exact hi (congrArg Prod.fst heq)

/-- Taking a free block. -/
theorem allocated (hw : Work sb i d x) {b : Nat} (hb : bitSet sb d b = false)
    (hlt : b < sb.size) : Spares sb i d x (Fs.allocated sb d b) :=
  fun _ _ hq => refs_allocated hw.owned hb hlt hq

end Spares

/-- Blocks were added to inode `i`: `d` and `x` became `d'` and `x'`. -/
structure Added (sb : Superblock) (i : Nat) (d : Disk) (x : Dinode) (d' : Disk)
    (x' : Dinode) : Prop where
  work : Work sb i d' x'
  table : inodeTable sb d' = inodeTable sb d
  attrs : x' = { x with addrs := x'.addrs }
  grows : Grows d (view sb d i x) d' (view sb d' i x')
  spares : Spares sb i d x d'

theorem Added.refl {sb : Superblock} {i : Nat} {d : Disk} {x : Dinode}
    (h : Work sb i d x) : Added sb i d x d x :=
  ⟨h, rfl, rfl, Grows.refl _ _, Spares.refl⟩

theorem Added.trans {sb : Superblock} {i : Nat} {d d' d'' : Disk} {x x' x'' : Dinode}
    (h : Added sb i d x d' x') (h' : Added sb i d' x' d'' x'') :
    Added sb i d x d'' x'' := by
  refine ⟨h'.work, h'.table.trans h.table, ?_, h.grows.trans h'.grows,
    h.spares.trans h.grows.refs_eq h'.spares⟩
  have hx := h.attrs
  have hx' := h'.attrs
  rw [hx] at hx'
  exact hx'

namespace Work

variable {sb : Superblock} {i : Nat} {d : Disk} {x : Dinode}

/-- A free block becomes block `k` of the inode. -/
theorem storeAddr (h : Work sb i d x) {k b : Nat} (hb : bitSet sb d b = false)
    (hlt : b < sb.size) (hk : k < 13) (haddr : x.addr k = 0) :
    Added sb i d x (allocated sb d b) (x.setAddr k (UInt32.ofNat b)) := by
  have hle := h.owned.le_of_unused hb hlt
  have hsize := h.geo.blocks
  have htable := inodeTable_allocated (d := d) h.geo hle
  have hframe : refs (allocated sb d b) (view sb d i x) = refs d (view sb d i x) :=
    refs_congr fun j hj => refs_allocated h.owned hb hlt hj
  have href := ref_setAddr (d := allocated sb d b) h.type hk (by omega : b < 2 ^ 32)
    (fun hk12 => ⟨hk12 ▸ haddr, allocated_self⟩)
  have hrefs : refs (allocated sb d b)
      (view sb (allocated sb d b) i (x.setAddr k (UInt32.ofNat b))) =
        Function.update (refs d (view sb d i x)) (i, k) b := by
    unfold view at hframe ⊢
    rw [htable, refs_update_ref href, hframe]
  have hempty : refs d (view sb d i x) (i, k) = 0 := by
    rw [refs_self, ref_addr h.type hk, haddr]
    rfl
  refine ⟨⟨h.geo, ?_, h.inum, h.type, ?_⟩, htable, rfl, ⟨?_, ?_⟩, Spares.allocated h hb hlt⟩
  · rw [readsb_allocated h.geo hle, h.super]
  · rw [hrefs]
    have hmeta := h.geo.two_lt_nmeta
    exact h.owned.store (by omega) hb hlt hempty
      fun c hc => bitSet_allocated hle hc
  · intro q hq
    have hne : q ≠ (i, k) := by
      rintro rfl
      exact hq hempty
    rw [hrefs, Function.update_of_ne hne]
  · intro q _ hq
    exact refs_allocated h.owned hb hlt hq

/-- A free block becomes entry `j` of the indirect block. -/
theorem storeEntry (h : Work sb i d x) {j c : Nat} (hc : bitSet sb d c = false)
    (hlt : c < sb.size) (hj : j < 128) (hind : x.addr 12 ≠ 0)
    (hentry : indirectEntry (d (x.addr 12).toNat) j = 0) :
    Added sb i d x (Function.update (allocated sb d c) (x.addr 12).toNat
      ((allocated sb d c (x.addr 12).toNat).write Layout.u32 (4 * j) (UInt32.ofNat c))) x := by
  have hle := h.owned.le_of_unused hc hlt
  have hsize := h.geo.blocks
  have hself : refs d (view sb d i x) (i, 12) = (x.addr 12).toNat := by
    rw [refs_self, ref_addr h.type (by omega)]
  have hself0 : refs d (view sb d i x) (i, 12) ≠ 0 := by
    rw [hself]
    simpa [← UInt32.toNat_inj] using hind
  have hrange := h.owned.range _ hself0
  have hbm := Geometry.bmapstart_lt sb
  have htwo := h.geo.two_lt_bmapstart
  rw [hself] at hrange
  have hframe : refs (allocated sb d c) (view sb d i x) = refs d (view sb d i x) :=
    refs_congr fun j hj => refs_allocated h.owned hc hlt hj
  generalize hd' : Function.update (allocated sb d c) (x.addr 12).toNat
    ((allocated sb d c (x.addr 12).toNat).write Layout.u32 (4 * j) (UInt32.ofNat c)) = d'
  have htable : inodeTable sb d' = inodeTable sb d := by
    rw [← hd', inodeTable_update h.geo _ (by omega), inodeTable_allocated h.geo hle]
  have hother : ∀ q, q ≠ (i, 12) → refs d (view sb d i x) q ≠ 0 →
      d' (refs d (view sb d i x) q) = d (refs d (view sb d i x) q) := by
    intro q hne hq
    have hneq := h.owned.ptr_ne hq hne
    rw [hself] at hneq
    rw [← hd', Function.update_of_ne hneq]
    exact refs_allocated h.owned hc hlt hq
  have hrefs : refs d' (view sb d' i x) =
      Function.update (refs d (view sb d i x)) (i, 13 + j) c := by
    have hview : view sb d' i x = view sb d i x := by
      unfold view
      rw [htable]
    rw [hview]
    funext q
    rcases q with ⟨i', l⟩
    by_cases hi : i' = i
    · subst hi
      have href := ref_writeEntry (d := allocated sb d c) h.type hind hj
        (by omega : c < 2 ^ 32)
      rw [hd'] at href
      rw [refs_self, href]
      by_cases hl : l = 13 + j
      · subst hl
        rw [Function.update_self, Function.update_self]
      · rw [Function.update_of_ne hl, Function.update_of_ne (by simp [hl]), ← hframe, refs_self]
    · rw [Function.update_of_ne (by simp [hi])]
      refine ref_congr (fun h0 => hother (i', 12) (by simp [hi]) h0) l
  have hempty : refs d (view sb d i x) (i, 13 + j) = 0 := by
    rw [refs_self, ref_entry h.type hind hj, hentry]
    rfl
  have hspares : Spares sb i d x d' := fun q hi hq =>
    hother q (fun heq => hi (congrArg Prod.fst heq)) hq
  refine ⟨⟨h.geo, ?_, h.inum, h.type, ?_⟩, htable, rfl, ⟨?_, ?_⟩, hspares⟩
  · rw [← hd', Geometry.readsb_update _ (by omega), readsb_allocated h.geo hle, h.super]
  · rw [hrefs]
    refine h.owned.store (by omega) hc hlt hempty fun c' hc' => ?_
    rw [← hd', Geometry.bitSet_update _ (Or.inr hrange.1) hc', bitSet_allocated hle hc']
  · intro q hq
    have hne : q ≠ (i, 13 + j) := by
      rintro rfl
      exact hq hempty
    rw [hrefs, Function.update_of_ne hne]
  · intro q hne hq
    refine hother q ?_ hq
    rintro rfl
    exact hne rfl

end Work

/-! ## The code -/

/-- Stops for lack of space, in the log or on the disk. -/
def Stop.Space (e : Stop) : Prop :=
  e = .tooBigATransaction ∨ (∃ l, e = .ballocOutOfBlocks l) ∨ e = .beginOpSleeps

/-- The state with another disk and log. -/
def FsState.wrote (s : FsState) (d : Disk) (l : List Nat) : FsState :=
  { s with disk := d, lh := l }

/-- The state with another disk and log and another copy of a cached inode. -/
def FsState.worked (s : FsState) (ip : Fin ninode) (d : Disk) (l : List Nat)
    (x : Dinode) : FsState :=
  { s with disk := d, lh := l,
           icache := Function.update s.icache ip { s.icache ip with copy := x } }

section States

variable (s : FsState) (ip : Fin ninode) (d d' : Disk) (l l' : List Nat) (x x' : Dinode)

@[simp]
theorem worked_wrote : (s.worked ip d l x).wrote d' l' = s.worked ip d' l' x :=
  rfl

@[simp]
theorem worked_worked : (s.worked ip d l x).worked ip d' l' x' = s.worked ip d' l' x' := by
  simp [FsState.worked]

theorem worked_self : s.worked ip s.disk s.lh (s.icache ip).copy = s := by
  simp [FsState.worked]

theorem wrote_eq_worked : s.wrote d l = s.worked ip d l (s.icache ip).copy := by
  simp [FsState.wrote, FsState.worked]

theorem worked_copy : ((s.worked ip d l x).icache ip).copy = x := by
  simp [FsState.worked]

end States

/-- `log_write` inside a transaction only changes the log. -/
theorem logWrite_spec {s : FsState} (b : Nat) (hout : 1 ≤ s.outstanding) :
    wp (logWrite b) (fun _ t => ∃ l, t = s.wrote s.disk l) Stop.Space s := by
  unfold logWrite
  simp only [wp_bind, wp_get]
  split
  · exact Or.inl rfl
  · rw [if_neg (by omega)]
    exact ⟨_, rfl⟩

theorem freeBlock_some {sb : Superblock} {d : Disk} {b : Nat} (h : freeBlock sb d = some b) :
    b < sb.size ∧ bitSet sb d b = false := by
  rcases List.exists_of_findSome?_eq_some h with ⟨k, _, hk⟩
  rcases Option.map_eq_some_iff.mp hk with ⟨bi, hbi, rfl⟩
  have hfound := List.find?_some hbi
  simp only [decide_eq_true_eq] at hfound
  exact hfound

/-- `balloc` marks and clears a block that was free. -/
theorem balloc_spec {s : FsState} (hout : 1 ≤ s.outstanding) :
    wp balloc (fun b t => b < s.sb.size ∧ bitSet s.sb s.disk b = false ∧
      ∃ l, t = s.wrote (allocated s.sb s.disk b) l) Stop.Space s := by
  unfold balloc bzero bmodify
  simp only [wp_bind, wp_get]
  cases hb : freeBlock s.sb s.disk with
  | none => exact Or.inr (Or.inl ⟨s.lh, rfl⟩)
  | some b =>
    have hfree := freeBlock_some hb
    simp only [wp_bind, wp_modify]
    refine wp_mono (logWrite_spec _ hout) ?_ fun _ he => he
    rintro _ _ ⟨l, rfl⟩
    refine wp_mono (logWrite_spec _ hout) ?_ fun _ he => he
    rintro _ _ ⟨l', rfl⟩
    exact ⟨hfree.1, hfree.2, l', rfl⟩

/-- The place of a file's block. -/
def place (bn : Nat) : Nat :=
  if bn < 12 then bn else bn + 1

theorem place_ne (bn : Nat) : place bn ≠ 12 := by
  unfold place
  split <;> omega

theorem place_inj {bn bn' : Nat} (h : place bn = place bn') : bn = bn' := by
  unfold place at h
  split at h <;> split at h <;> omega

theorem bmap_direct (ip : Fin ninode) {bn : Nat} (h : bn < 12) :
    bmap ip bn = mapAddr ip bn :=
  if_pos h

theorem bmap_indirect (ip : Fin ninode) {bn : Nat} (h : ¬bn < 12) (hin : bn - 12 < 128) :
    bmap ip bn = mapAddr ip 12 >>= fun b => mapEntry b (bn - 12) :=
  (if_neg h).trans (if_pos hin)

/-- `bmap` leaves everything as it is when the block is there. -/
theorem bmap_mapped {s : FsState} {ip : Fin ninode} {bn : Nat}
    (htype : (s.icache ip).copy.type ≠ 0)
    (href : (s.icache ip).copy.ref s.disk (place bn) ≠ 0) :
    bmap ip bn s = .ok ((s.icache ip).copy.ref s.disk (place bn), s) := by
  unfold place at *
  by_cases hbn : bn < 12
  · rw [if_pos hbn] at href ⊢
    rw [ref_addr htype (by omega)] at href ⊢
    rw [bmap_direct ip hbn]
    unfold mapAddr
    rw [bind_ok (a := s) (t := s) rfl, if_neg]
    · rfl
    · intro hzero
      rw [hzero] at href
      exact href rfl
  · rw [if_neg hbn] at href ⊢
    have hin : bn - 12 < 128 := by
      by_contra hout
      exact href (ref_above (by omega) (Or.inr (by omega)))
    have hind : (s.icache ip).copy.addr 12 ≠ 0 := by
      intro hzero
      exact href (ref_above (by omega) (Or.inl hzero))
    rw [show bn + 1 = 13 + (bn - 12) by omega, ref_entry htype hind hin] at href ⊢
    rw [bmap_indirect ip hbn hin]
    have haddr : mapAddr ip 12 s = .ok (((s.icache ip).copy.addr 12).toNat, s) := by
      unfold mapAddr
      rw [bind_ok (a := s) (t := s) rfl, if_neg hind]
      rfl
    rw [bind_ok haddr]
    unfold mapEntry
    rw [bind_ok (a := s) (t := s) rfl, if_neg]
    · rfl
    · intro hzero
      rw [hzero] at href
      exact href rfl

section Bmap

variable {s : FsState} {ip : Fin ninode} {i : Nat}

theorem mapAddr_spec (hw : Work s.sb i s.disk (s.icache ip).copy)
    (hout : 1 ≤ s.outstanding) {k : Nat} (hk : k < 13) :
    wp (mapAddr ip k) (fun b t => ∃ d l x, t = s.worked ip d l x ∧
      Added s.sb i s.disk (s.icache ip).copy d x ∧ b = (x.addr k).toNat ∧ x.addr k ≠ 0)
      Stop.Space s := by
  unfold mapAddr
  simp only [wp_bind, wp_get]
  split
  · rename_i hzero
    simp only [wp_bind, setCopy, setInode, wp_modify, wp_pure]
    refine wp_mono (balloc_spec hout) ?_ fun _ he => he
    rintro b _ ⟨hlt, hfree, l, rfl⟩
    have hle := hw.owned.le_of_unused hfree hlt
    have htwo := hw.geo.two_lt_nmeta
    have hsize := hw.geo.blocks
    have hbn : (UInt32.ofNat b).toNat = b := UInt32.toNat_ofNat_of_lt' (by omega : b < 2 ^ 32)
    refine ⟨_, l, _, rfl, hw.storeAddr hfree hlt hk hzero, ?_, ?_⟩
    · rw [addr_setAddr_same _ hk, hbn]
    · rw [addr_setAddr_same _ hk, Ne, ← UInt32.toNat_inj, hbn]
      exact (by omega : b ≠ 0)
  · rename_i hne
    exact ⟨s.disk, s.lh, (s.icache ip).copy, (worked_self s ip).symm, Added.refl hw, rfl, hne⟩

theorem mapEntry_spec (hw : Work s.sb i s.disk (s.icache ip).copy)
    (hout : 1 ≤ s.outstanding) (hind : (s.icache ip).copy.addr 12 ≠ 0) {j : Nat}
    (hj : j < 128) :
    wp (mapEntry ((s.icache ip).copy.addr 12).toNat j) (fun b t => ∃ d l,
      t = s.worked ip d l (s.icache ip).copy ∧
      Added s.sb i s.disk (s.icache ip).copy d (s.icache ip).copy ∧
      b = (s.icache ip).copy.ref d (13 + j) ∧ b ≠ 0) Stop.Space s := by
  unfold mapEntry
  simp only [wp_bind, wp_get]
  split
  · rename_i hzero
    simp only [wp_bind, bmodify, wp_modify, wp_pure]
    refine wp_mono (balloc_spec hout) ?_ fun _ he => he
    rintro b _ ⟨hlt, hfree, l, rfl⟩
    have hle := hw.owned.le_of_unused hfree hlt
    have htwo := hw.geo.two_lt_nmeta
    have hsize := hw.geo.blocks
    have hadd := hw.storeEntry hfree hlt hj hind hzero
    refine wp_mono (logWrite_spec _ hout) ?_ fun _ he => he
    rintro _ _ ⟨l', rfl⟩
    refine ⟨_, l', wrote_eq_worked s ip _ l', hadd, ?_, by omega⟩
    · rw [ref_writeEntry hw.type hind hj (by omega), Function.update_self]
  · rename_i hne
    refine ⟨s.disk, s.lh, (worked_self s ip).symm, Added.refl hw, ?_, ?_⟩
    · rw [ref_entry hw.type hind hj]
    · simpa [← UInt32.toNat_inj] using hne

-- the goals below mention these, and must not be evaluated
attribute [local irreducible] mapAddr mapEntry

theorem bmap_allocates (hw : Work s.sb i s.disk (s.icache ip).copy)
    (hout : 1 ≤ s.outstanding) {bn : Nat} (hbn : bn < maxfile) :
    wp (bmap ip bn) (fun b t => ∃ d l x, t = s.worked ip d l x ∧
      Added s.sb i s.disk (s.icache ip).copy d x ∧ b = x.ref d (place bn) ∧ b ≠ 0)
      Stop.Space s := by
  unfold place
  simp only [maxfile_eq] at hbn
  by_cases hdirect : bn < 12
  · rw [if_pos hdirect, bmap_direct ip hdirect]
    refine wp_mono (mapAddr_spec hw hout (by omega)) ?_ fun _ he => he
    rintro b t ⟨d, l, x, rfl, hadd, rfl, hne⟩
    refine ⟨d, l, x, rfl, hadd, ?_, ?_⟩
    · rw [ref_addr hadd.work.type (by omega)]
    · simpa [← UInt32.toNat_inj] using hne
  · rw [if_neg hdirect, bmap_indirect ip hdirect (by omega)]
    refine wp_bind_of (mapAddr_spec hw hout (by omega)) ?_
    rintro b t ⟨d, l, x, rfl, hadd, rfl, hne⟩
    have hcopy := worked_copy s ip d l x
    have hw' : Work (s.worked ip d l x).sb i (s.worked ip d l x).disk
        ((s.worked ip d l x).icache ip).copy := by
      rw [hcopy]
      exact hadd.work
    have hentry := mapEntry_spec (j := bn - 12) hw' hout (by rwa [hcopy]) (by omega)
    rw [hcopy] at hentry
    refine wp_mono hentry ?_ fun _ he => he
    rintro b t ⟨d', l', rfl, hadd', rfl, hne'⟩
    refine ⟨d', l', x, worked_worked .., hadd.trans hadd', ?_, hne'⟩
    rw [show bn + 1 = 13 + (bn - 12) by omega]

/-- `bmap` returns the block of the file's contents; the inode changes only when the
block was not there. -/
theorem bmap_spec (hw : Work s.sb i s.disk (s.icache ip).copy) (hout : 1 ≤ s.outstanding)
    {bn : Nat} (hbn : bn < maxfile) :
    wp (bmap ip bn) (fun b t => ∃ d l x, t = s.worked ip d l x ∧
      Added s.sb i s.disk (s.icache ip).copy d x ∧ b = x.ref d (place bn) ∧ b ≠ 0 ∧
      ((s.icache ip).copy.ref s.disk (place bn) ≠ 0 → x = (s.icache ip).copy))
      Stop.Space s := by
  by_cases hmapped : (s.icache ip).copy.ref s.disk (place bn) = 0
  · refine wp_mono (bmap_allocates hw hout hbn) ?_ fun _ he => he
    rintro b t ⟨d, l, x, ht, hadd, hb, hne⟩
    exact ⟨d, l, x, ht, hadd, hb, hne, fun h => absurd hmapped h⟩
  · rw [wp_of_ok (bmap_mapped hw.type hmapped)]
    exact ⟨s.disk, s.lh, (s.icache ip).copy, (worked_self s ip).symm, Added.refl hw, rfl,
      hmapped, fun _ => rfl⟩

end Bmap

/-! ## Inodes on disk -/

theorem inodeTable_putDinode (sb : Superblock) (d : Disk) {i : Nat} (hi : i < sb.ninodes)
    (x : Dinode) :
    inodeTable sb (putDinode sb d i x) = Function.update (inodeTable sb d) i x := by
  funext j
  unfold inodeTable
  by_cases hj : j = i
  · subst hj
    rw [if_pos hi, dinodeAt_putDinode_same, Function.update_self]
  · rw [dinodeAt_putDinode_ne sb d hj, Function.update_of_ne hj]

theorem readsb_putDinode {sb : Superblock} (h : Geometry sb) (d : Disk) (i : Nat)
    (x : Dinode) : readsb (putDinode sb d i x) = readsb d :=
  Geometry.readsb_update d (h.le_iblock i) _

/-- `iupdate` stores the copy. -/
theorem iupdate_spec {s : FsState} {ip : Fin ninode} (hout : 1 ≤ s.outstanding) :
    wp (iupdate ip) (fun _ t => ∃ l, t =
      s.wrote (putDinode s.sb s.disk (s.icache ip).inum (s.icache ip).copy) l)
      Stop.Space s := by
  unfold iupdate
  simp only [wp_bind, wp_get, wp_modify]
  refine wp_mono (logWrite_spec _ hout) ?_ fun _ he => he
  rintro _ _ ⟨l, rfl⟩
  exact ⟨l, rfl⟩

end Xv6.Fs
