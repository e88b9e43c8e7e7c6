import Xv6.Foundations.ByteLayout
import Xv6.Foundations.Program

/-!
# Virtual memory - Physical pages

Physical memory is a map from page numbers to pages of 4096 bytes; the kernel reaches
page {lit}`f` at the address `P2V(f * PGSIZE)`.  A page can be read as a table of 512
entries of 64 bits.  `kalloc` and `kfree` work on the free list, which the kernel links
through the first words of the free pages and which is a list here.

Main definitions:

- {lit}`Machine`: memory, free list and the end of the kernel.
- {lit}`kalloc`, {lit}`kfree`: the allocator.
- {lit}`Machine.pte`, {lit}`Machine.setPte`: entries of a table.
-/

namespace Xv6.Vm

open Foundations

/-! ## Constants -/

/-- `PGSIZE`. -/
def pgsize : Nat := 4096

/-- `PHYSTOP`: top of physical memory. -/
def phystop : Nat := 0xE000000

/-- `KERNBASE`: first kernel address. -/
def kernbase : Nat := 0xFFFF800000000000

/-- `PTE_P`: present. -/
def pteP : UInt64 := 1

/-- `PTE_W`: writeable. -/
def pteW : UInt64 := 2

/-- `PTE_U`: user. -/
def pteU : UInt64 := 4

/-- Contents of one page. -/
abbrev Page := Bytes pgsize

/-- Index of an entry in a table. -/
abbrev Index := Fin 512

theorem neZero_index : NeZero 512 :=
  ⟨Nat.succ_ne_zero 511⟩

/-! ## Memory -/

/-- Physical memory and the free list; `kend` is the physical address of `end`, which is
not 0, and `kpdpt` the page of the kernel's table.  {lit}`refreed` is not in the source
and not read by it: whether `kfree` was called for a page that was free. -/
structure Machine where
  mem : Nat → Page
  free : List Nat
  kend : Nat
  kend_pos : 0 < kend
  kpdpt : Nat
  refreed : Bool

/-- Why the kernel stops: its panics, and a read through a null pointer. -/
inductive VmStop
  | kfree
  | remap
  | freevmNoPgdir
  | clearpteu
  | copyuvmPteShouldExist
  | copyuvmPageNotPresent
  | loaduvmNotAligned
  | loaduvmAddressShouldExist
  | switchuvmNoPgdir
  | fileclose
  | filedup
  | initExiting
  | nullPointer
deriving DecidableEq

/-- Kernel code that works on memory. -/
abbrev VmM := Exec Machine VmStop

namespace Machine

/-- Entry `i` of the table in page `t`. -/
def pte (m : Machine) (t : Nat) (i : Index) : UInt64 :=
  (m.mem t).read Layout.u64 (8 * i.val)

/-- Change the contents of page `f`. -/
def setPage (m : Machine) (f : Nat) (x : Page) : Machine :=
  { m with mem := Function.update m.mem f x }

/-- Store to entry `i` of the table in page `t`. -/
def setPte (m : Machine) (t : Nat) (i : Index) (e : UInt64) : Machine :=
  m.setPage t ((m.mem t).write Layout.u64 (8 * i.val) e)

/-- The tests of `kfree` accept page `f`. -/
def Freeable (m : Machine) (f : Nat) : Prop :=
  m.kend ≤ f * pgsize ∧ f * pgsize < phystop

instance (m : Machine) (f : Nat) : Decidable (m.Freeable f) :=
  inferInstanceAs (Decidable (_ ∧ _))

/-- The pointer to the first free page. -/
def freelist (m : Machine) : UInt64 :=
  match m.free with
  | [] => 0
  | f :: _ => UInt64.ofNat (kernbase + f * pgsize)

/-- A page filled with ones, and linked to the free list. -/
def junk (m : Machine) : Page :=
  Bytes.write Layout.u64 (fun _ => 1) 0 m.freelist

end Machine

/-- `kalloc`. -/
def kalloc : VmM (Option Nat) := do
  let m ← Exec.get
  match m.free with
  | [] => pure none
  | f :: fs => do
    Exec.modify fun m => { m with free := fs }
    pure (some f)

/-- `kfree` of page `f`. -/
def kfree (f : Nat) : VmM Unit := do
  let m ← Exec.get
  if m.Freeable f then
    Exec.modify fun m => { m.setPage f m.junk with
      free := f :: m.free, refreed := m.refreed || decide (f ∈ m.free) }
  else
    Exec.stop .kfree

/-! ## Entries -/

/-- `e & PTE_P`. -/
def present (e : UInt64) : Bool :=
  e &&& pteP ≠ 0

/-- `PTE_ADDR(e)` as a page number. -/
def frame (e : UInt64) : Nat :=
  e.toNat / pgsize

/-- The physical address of page `f`. -/
def physAddr (f : Nat) : UInt64 :=
  UInt64.ofNat (f * pgsize)

/-- The present bit is the lowest bit of an entry. -/
theorem present_iff (e : UInt64) : present e = true ↔ e.toNat % 2 = 1 := by
  have hand : (e &&& pteP).toNat = e.toNat % 2 := by
    rw [UInt64.toNat_and]
    exact Nat.and_one_is_mod e.toNat
  unfold present
  rw [decide_eq_true_eq, ne_eq, ← UInt64.toNat_inj, hand]
  have hlt := Nat.mod_lt e.toNat (Nat.zero_lt_two)
  change ¬e.toNat % 2 = 0 ↔ _
  omega

/-- An entry is present once `PTE_P` is set. -/
theorem present_or (e : UInt64) : present (e ||| pteP) = true := by
  rw [present_iff, UInt64.toNat_or, Nat.mod_two_eq_one_iff_testBit_zero, Nat.testBit_or]
  have hbit : pteP.toNat.testBit 0 = true := by decide
  rw [hbit, Bool.or_true]

/-- The entries of a cleared table are not present. -/
@[simp]
theorem present_zero : present 0 = false := by
  decide

/-- Flags do not change the page an entry points to. -/
theorem frame_physAddr_or {f : Nat} (hf : f < 2 ^ 52) {flags : UInt64}
    (hflags : flags.toNat < pgsize) :
    frame (physAddr f ||| flags) = f := by
  have haddr : (physAddr f).toNat = f * 2 ^ 12 := by
    rw [physAddr, UInt64.toNat_ofNat_of_lt' (by simp [UInt64.size, pgsize]; omega)]
    rfl
  have hlow : flags.toNat / 2 ^ 12 = 0 := Nat.div_eq_of_lt hflags
  have hor := Nat.shiftRight_or_distrib (a := f * 2 ^ 12) (b := flags.toNat) (i := 12)
  simp only [Nat.shiftRight_eq_div_pow] at hor
  change (physAddr f ||| flags).toNat / 2 ^ 12 = f
  rw [UInt64.toNat_or, haddr, hor, hlow, Nat.mul_div_cancel _ (by decide), Nat.or_zero]

namespace Machine

variable (m : Machine) (t : Nat) (i : Index) (e : UInt64)

@[simp]
theorem setPage_mem_self (f : Nat) (x : Page) : (m.setPage f x).mem f = x :=
  Function.update_self ..

/-- Storing a page leaves the others alone. -/
theorem setPage_mem_of_ne {f g : Nat} (x : Page) (h : g ≠ f) : (m.setPage f x).mem g = m.mem g :=
  Function.update_of_ne h ..

/-- Setting an entry changes only the page of its table. -/
theorem setPte_mem_of_ne {g : Nat} (h : g ≠ t) : (m.setPte t i e).mem g = m.mem g :=
  Function.update_of_ne h ..

/-- An entry that was set is read back. -/
@[simp]
theorem pte_setPte_self : (m.setPte t i e).pte t i = e := by
  unfold pte setPte
  rw [setPage_mem_self]
  apply Bytes.read_write_same
  have hi := i.isLt
  simp only [Layout.u64, pgsize]
  omega

/-- The other entries, in this table and in the others, stay. -/
theorem pte_setPte_of_ne {s : Nat} {j : Index} (h : s ≠ t ∨ j ≠ i) :
    (m.setPte t i e).pte s j = m.pte s j := by
  unfold pte setPte
  by_cases hs : s = t
  · subst hs
    rw [setPage_mem_self]
    apply Bytes.read_write_disjoint
    have hij : j.val ≠ i.val := fun hbad =>
      h.elim (fun hne => hne rfl) fun hne => hne (Fin.ext hbad)
    simp only [Layout.u64]
    omega
  · rw [setPage_mem_of_ne _ _ hs]

/-- An entry depends on the page of its table alone. -/
theorem pte_of_mem_eq {n : Machine} {s : Nat} (h : n.mem s = m.mem s) (j : Index) :
    n.pte s j = m.pte s j := by
  unfold pte
  rw [h]

/-- All entries of a cleared page are zero. -/
@[simp]
theorem pte_setPage_zero {f : Nat} {j : Index} :
    (m.setPage f (Bytes.zero pgsize)).pte f j = 0 := by
  unfold pte Bytes.read
  rw [setPage_mem_self]
  have hslice : Bytes.slice (Bytes.zero pgsize) (8 * j.val) Layout.u64.width =
      List.replicate 8 0 := by
    simp [Bytes.slice, Layout.u64, List.range, List.range.loop, List.replicate]
  rw [hslice]
  decide

end Machine

end Xv6.Vm
