import Xv6.User.FreeList

/-!
# User heap - Whole runs of malloc and free

Every byte obtained from `sbrk` is on the free list or in one block that is held, and a held
block is a live allocation or, inside a call, the block on its way to the free list.  The
account is kept by each call as long as no joined block has 2^32 units or more: the size in a
header is a 32-bit number.

Main results:

- Theorem {lit}`Account.insertFree`: a held block becomes free.
- Theorem {lit}`Account.morecore`: a new region becomes free.
- Theorem {lit}`Account.allocate`: a part of a free block becomes held.
- Theorem {lit}`heap_sound_of_no_overflow`: the heap in every state of a run.
-/

namespace Xv6.Umalloc

open Foundations

/-- The blocks do not overlap. -/
def Apart (f g : Block) : Prop :=
  f.1 + 16 * f.2 ≤ g.1 ∨ g.1 + 16 * g.2 ≤ f.1

/-- The memory obtained from `sbrk` is the free blocks `fs` and the blocks `held`. -/
structure Account (h : Heap) (fs held : List Block) : Prop where
  list : FreeList h fs
  units : ∀ f ∈ fs, 0 < f.2
  heldUnits : ∀ g ∈ held, 0 < g.2
  headers : ∀ g ∈ held, (h.size g.1).toNat = g.2
  apart : held.Pairwise Apart
  free : ∀ x, Covers fs x → ¬ Covers held x
  obtained : ∀ x, Covers h.regions x ↔ Covers fs x ∨ Covers held x
  regions : ∀ r ∈ h.regions, h.base + 16 ≤ r.1 ∧ r.1 + 16 * r.2 ≤ h.brk
  top : h.base + 16 ≤ h.brk
  based : 0 < h.base
  sum : total fs + total held = total h.regions
  bound : fs.length ≤ h.inserts

section Blocks

variable {fs gs : List Block} {f g : Block} {x : Nat}

theorem Apart.symm (h : Apart f g) : Apart g f :=
  Or.symm h

instance : Std.Symm Apart :=
  ⟨fun _ _ => Apart.symm⟩

/-- Blocks without a common byte do not overlap. -/
theorem Apart.of_bytes (hf : 0 < f.2) (hg : 0 < g.2)
    (h : ∀ x, f.1 ≤ x ∧ x < f.1 + 16 * f.2 → ¬ (g.1 ≤ x ∧ x < g.1 + 16 * g.2)) : Apart f g := by
  have hfirst := h f.1
  have hsecond := h g.1
  unfold Apart
  omega

theorem covers_of_mem (hf : f ∈ fs) (hx : f.1 ≤ x ∧ x < f.1 + 16 * f.2) : Covers fs x :=
  ⟨f, hf, hx⟩

theorem covers_start (hf : f ∈ fs) (hpos : 0 < f.2) : Covers fs f.1 :=
  covers_of_mem hf (by omega)

theorem covers_perm (h : fs.Perm gs) : Covers fs x ↔ Covers gs x := by
  constructor
  · rintro ⟨f, hf, hx⟩
    exact ⟨f, h.mem_iff.mp hf, hx⟩
  · rintro ⟨f, hf, hx⟩
    exact ⟨f, h.mem_iff.mpr hf, hx⟩

theorem total_perm (h : fs.Perm gs) : total fs = total gs :=
  (h.map Prod.snd).sum_eq

/-- A block apart from all the others shares no byte with them. -/
theorem not_covers_of_apart (h : ∀ g ∈ fs, Apart f g) (hx : f.1 ≤ x ∧ x < f.1 + 16 * f.2) :
    ¬ Covers fs x := by
  rintro ⟨g, hg, hgx⟩
  have hfg := h g hg
  unfold Apart at hfg
  omega

end Blocks

namespace Account

variable {h : Heap} {fs held : List Block} {b u : Nat}

/-- All blocks are in the memory obtained from `sbrk`. -/
theorem above (hacc : Account h fs held) {x : Nat} (hx : Covers fs x ∨ Covers held x) :
    h.base + 16 ≤ x ∧ x < h.brk := by
  obtain ⟨r, hr, hrx⟩ := (hacc.obtained x).mpr hx
  have hbounds := hacc.regions r hr
  omega

theorem free_apart (hacc : Account h fs held) {f g : Block} (hf : f ∈ fs) (hg : g ∈ held) :
    Apart f g := by
  refine Apart.of_bytes (hacc.units f hf) (hacc.heldUnits g hg) ?_
  intro x hfx hgx
  exact hacc.free x (covers_of_mem hf hfx) (covers_of_mem hg hgx)

/-- No byte of a held block is the header of a free one. -/
theorem not_mem_list (hacc : Account h fs held) {x : Nat} (hx : Covers held x) :
    x ∉ ((h.base, 0) :: fs).map Prod.fst := by
  intro hmem
  obtain ⟨f, hf, rfl⟩ := List.mem_map.mp hmem
  rcases List.mem_cons.mp hf with hf | hf
  · have habove := hacc.above (Or.inr hx)
    rw [hf] at habove
    simp only at habove
    omega
  · exact hacc.free f.1 (covers_start hf (hacc.units f hf)) hx

theorem perm (hacc : Account h fs held) {held' : List Block} (hperm : held.Perm held') :
    Account h fs held' where
  list := hacc.list
  units := hacc.units
  heldUnits g hg := hacc.heldUnits g (hperm.mem_iff.mpr hg)
  headers g hg := hacc.headers g (hperm.mem_iff.mpr hg)
  apart := (hperm.pairwise_iff Apart.symm).mp hacc.apart
  free x hx := by
    rw [← covers_perm hperm]
    exact hacc.free x hx
  obtained x := by
    rw [← covers_perm hperm]
    exact hacc.obtained x
  regions := hacc.regions
  top := hacc.top
  based := hacc.based
  sum := by
    rw [← total_perm hperm]
    exact hacc.sum
  bound := hacc.bound

/-- The account does not depend on the list of live allocations. -/
theorem setLive (hacc : Account h fs held) (live : List Alloc) :
    Account { h with live := live } fs held where
  list := hacc.list.congr rfl rfl (fun _ _ => rfl) fun _ _ => rfl
  units := hacc.units
  heldUnits := hacc.heldUnits
  headers := hacc.headers
  apart := hacc.apart
  free := hacc.free
  obtained := hacc.obtained
  regions := hacc.regions
  top := hacc.top
  based := hacc.based
  sum := hacc.sum
  bound := hacc.bound

/-- The account depends only on the headers of its blocks. -/
theorem setHeader (hacc : Account h fs held) {x p : Nat} {n : UInt32}
    (hlist : x ∉ ((h.base, 0) :: fs).map Prod.fst) (hheld : ∀ g ∈ held, g.1 ≠ x) :
    Account { h with
      ptr := Function.update h.ptr x p, size := Function.update h.size x n } fs held where
  list := by
    have hne : ∀ y ∈ ((h.base, 0) :: fs).map Prod.fst, y ≠ x := by
      intro y hy heq
      rw [heq] at hy
      exact hlist hy
    exact hacc.list.congr rfl rfl (fun y hy => Function.update_of_ne (hne y hy) _ _)
      fun y hy => Function.update_of_ne (hne y hy) _ _
  units := hacc.units
  heldUnits := hacc.heldUnits
  headers g hg := by
    simp only [Function.update_of_ne (hheld g hg)]
    exact hacc.headers g hg
  apart := hacc.apart
  free := hacc.free
  obtained := hacc.obtained
  regions := hacc.regions
  top := hacc.top
  based := hacc.based
  sum := hacc.sum
  bound := hacc.bound

/-- A held block is put on the free list. -/
theorem insertFree (hacc : Account h fs ((b, u) :: held)) (hfit : touching fs b u < 2 ^ 32) :
    ∃ h' fs', h.insertFree b = some h' ∧ Inserted h fs b u h' fs' ∧ Account h' fs' held := by
  have hu : 0 < u := hacc.heldUnits (b, u) List.mem_cons_self
  have hcovered : Covers ((b, u) :: held) b :=
    covers_of_mem List.mem_cons_self ⟨Nat.le_refl b, by simp only; omega⟩
  have hb : h.base < b := by
    have habove := hacc.above (Or.inr hcovered)
    omega
  obtain ⟨hheld, hrest⟩ := List.pairwise_cons.mp hacc.apart
  obtain ⟨h', fs', hins, hinserted⟩ := hacc.list.insertFree hacc.units hb
    (hacc.headers (b, u) List.mem_cons_self) hu
    (fun g hg => hacc.free_apart hg List.mem_cons_self) hacc.bound hfit
  refine ⟨h', fs', hins, hinserted, ?_⟩
  have hmerged := hinserted.merged
  have hregions : h'.regions = h.regions := by rw [hinserted.rest]
  have hbase : h'.base = h.base := by rw [hinserted.rest]
  have hbrk : h'.brk = h.brk := by rw [hinserted.rest]
  have hinserts : h'.inserts = h.inserts + 1 := by rw [hinserted.rest]
  constructor
  · exact hinserted.list
  · exact hmerged.units
  · intro g hg
    exact hacc.heldUnits g (List.mem_cons_of_mem _ hg)
  · intro g hg
    have hgmem : g ∈ (b, u) :: held := List.mem_cons_of_mem _ hg
    have hpos := hacc.heldUnits g hgmem
    have hgb : g.1 ≠ b := by
      have hapart := hheld g hg
      unfold Apart at hapart
      simp only at hapart
      omega
    rw [hinserted.sizes g.1 hgb (hacc.not_mem_list (covers_start hgmem hpos))]
    exact hacc.headers g hgmem
  · exact hrest
  · intro x hx
    rcases (hmerged.covers x).mp hx with hx | hx
    · intro hcov
      exact hacc.free x hx (covers_cons.mpr (Or.inr hcov))
    · exact not_covers_of_apart hheld hx
  · intro x
    rw [hregions, hacc.obtained, hmerged.covers, covers_cons, or_assoc]
  · rw [hregions, hbase, hbrk]
    exact hacc.regions
  · rw [hbase, hbrk]
    exact hacc.top
  · rw [hbase]
    exact hacc.based
  · have hsum := hacc.sum
    have htotal := hmerged.total
    rw [total_cons] at hsum
    rw [hregions]
    simp only at hsum
    omega
  · have hlength := hmerged.length
    have hbound := hacc.bound
    omega

/-- A new region is a held block. -/
theorem region (hacc : Account h fs held) {p : Nat} {nu : UInt32} (hp : h.brk ≤ p)
    (hnu : 0 < nu.toNat) :
    Account { h with
      size := Function.update h.size p nu
      regions := h.regions ++ [(p, nu.toNat)]
      brk := p + 16 * nu.toNat } fs ((p, nu.toNat) :: held) := by
  have hbelow : ∀ x, Covers fs x ∨ Covers held x → x < p := by
    intro x hx
    have habove := hacc.above hx
    omega
  have htop := hacc.top
  have hother : ∀ x ∈ ((h.base, 0) :: fs).map Prod.fst,
      Function.update h.size p nu x = h.size x := by
    intro x hx
    refine Function.update_of_ne ?_ _ _
    obtain ⟨f, hf, rfl⟩ := List.mem_map.mp hx
    rcases List.mem_cons.mp hf with hf | hf
    · rw [hf]
      simp only
      omega
    · exact Nat.ne_of_lt (hbelow f.1 (Or.inl (covers_start hf (hacc.units f hf))))
  have hheld : ∀ g ∈ held, g.1 + 16 * g.2 ≤ p := by
    intro g hg
    have hpos := hacc.heldUnits g hg
    have hlast := hbelow (g.1 + 16 * g.2 - 1) (Or.inr (covers_of_mem hg (by omega)))
    omega
  constructor
  · exact hacc.list.congr rfl rfl (fun x _ => rfl) hother
  · exact hacc.units
  · intro g hg
    rcases List.mem_cons.mp hg with hg | hg
    · rw [hg]
      exact hnu
    · exact hacc.heldUnits g hg
  · intro g hg
    rcases List.mem_cons.mp hg with hg | hg
    · rw [hg]
      simp only [Function.update_self]
    · have hpos := hacc.heldUnits g hg
      have hle := hheld g hg
      have hne : g.1 ≠ p := by omega
      simp only [Function.update_of_ne hne]
      exact hacc.headers g hg
  · refine List.pairwise_cons.mpr ⟨?_, hacc.apart⟩
    intro g hg
    exact Or.inr (hheld g hg)
  · intro x hx hcov
    rcases covers_cons.mp hcov with hin | hcov
    · have hlt := hbelow x (Or.inl hx)
      simp only at hin
      omega
    · exact hacc.free x hx hcov
  · intro x
    simp only [covers_append, covers_cons, hacc.obtained, not_covers_nil, or_false]
    simp only [or_comm, or_left_comm]
  · intro r hr
    rcases List.mem_append.mp hr with hr | hr
    · have hbounds := hacc.regions r hr
      simp only
      omega
    · rw [List.mem_singleton.mp hr]
      simp only
      omega
  · simp only
    omega
  · exact hacc.based
  · have hsum := hacc.sum
    simp only [total_cons, total_append, total_nil]
    omega
  · exact hacc.bound

end Account

theorem le_coreUnits (nunits : UInt32) : nunits.toNat ≤ (Heap.coreUnits nunits).toNat := by
  unfold Heap.coreUnits
  split_ifs with hsmall
  · have hlt := UInt32.lt_iff_toNat_lt.mp hsmall
    exact Nat.le_of_lt hlt
  · exact Nat.le_refl _

section Calls

variable {h : Heap} {fs held : List Block} {nunits : UInt32}

/-- What `morecore` does: the list then has a block that is large enough. -/
theorem Account.morecore (hacc : Account h fs held) {p : Nat} (hp : h.brk ≤ p)
    (hpos : 0 < nunits.toNat)
    (hfit : touching fs p (Heap.coreUnits nunits).toNat < 2 ^ 32) :
    ∃ h' fs', h.morecore nunits p = some h' ∧ Account h' fs' held ∧
      (∃ f ∈ fs', nunits.toNat ≤ f.2) ∧ h'.live = h.live ∧ h'.stuck = h.stuck := by
  have hcore := le_coreUnits nunits
  obtain ⟨h', fs', hins, hinserted, hacc'⟩ :=
    (hacc.region hp (Nat.lt_of_lt_of_le hpos hcore)).insertFree hfit
  obtain ⟨f, hf, hlarge⟩ := hinserted.merged.large
  refine ⟨h', fs', hins, hacc', ⟨f, hf, Nat.le_trans hcore hlarge⟩, ?_, ?_⟩
  · rw [hinserted.rest]
  · rw [hinserted.rest]

/-- Taking a free block or its tail makes it a held block. -/
theorem Account.allocate (hacc : Account h fs held) {q : Nat}
    (hq : q ∈ ((h.base, 0) :: fs).map Prod.fst) (hlarge : nunits ≤ h.size (h.ptr q))
    (hpos : 0 < nunits.toNat) (bytes : Nat) :
    ∃ h' a fs', h.allocate nunits bytes q (h.ptr q) = (h', a + 16) ∧
      TakenFrom h fs nunits.toNat bytes h' fs' a ∧
      Account h' fs' (held ++ [(a, nunits.toNat)]) := by
  obtain ⟨h', a, fs', halloc, htaken⟩ := hacc.list.allocate hacc.units hq hlarge hpos bytes
  refine ⟨h', a, fs', halloc, htaken, ?_⟩
  have hregions : h'.regions = h.regions := by rw [htaken.rest]
  have hbase : h'.base = h.base := by rw [htaken.rest]
  have hbrk : h'.brk = h.brk := by rw [htaken.rest]
  have hinserts : h'.inserts = h.inserts := by rw [htaken.rest]
  -- the bytes taken were free, so no held block has one of them
  have hwasfree : ∀ x, a ≤ x ∧ x < a + 16 * nunits.toNat → Covers fs x := fun x hx =>
    (htaken.covers x).mpr (Or.inr hx)
  have hcovers : ∀ x, Covers (held ++ [(a, nunits.toNat)]) x ↔
      Covers held x ∨ (a ≤ x ∧ x < a + 16 * nunits.toNat) := by
    intro x
    rw [covers_append, covers_cons, or_iff_left not_covers_nil]
  constructor
  · exact htaken.list
  · exact htaken.units
  · intro g hg
    rcases List.mem_append.mp hg with hg | hg
    · exact hacc.heldUnits g hg
    · rw [List.mem_singleton.mp hg]
      exact hpos
  · intro g hg
    rcases List.mem_append.mp hg with hg | hg
    · have hcov := covers_start hg (hacc.heldUnits g hg)
      have hne : g.1 ≠ a := by
        intro heq
        rw [heq] at hcov
        exact hacc.free a (hwasfree a (by omega)) hcov
      have hnot : g.1 ∉ fs.map Prod.fst := fun hmem =>
        hacc.not_mem_list hcov (List.mem_cons_of_mem _ hmem)
      rw [htaken.sizes g.1 hne hnot]
      exact hacc.headers g hg
    · rw [List.mem_singleton.mp hg]
      exact htaken.size
  · refine List.pairwise_append.mpr ⟨hacc.apart, List.pairwise_singleton _ _, ?_⟩
    intro g hg k hk
    rw [List.mem_singleton.mp hk]
    refine Apart.of_bytes (hacc.heldUnits g hg) hpos ?_
    intro x hgx hax
    exact hacc.free x (hwasfree x hax) (covers_of_mem hg hgx)
  · intro x hx hcov
    rcases (hcovers x).mp hcov with hcov | hin
    · exact hacc.free x ((htaken.covers x).mpr (Or.inl hx)) hcov
    · exact htaken.apart x hx hin
  · intro x
    rw [hregions, hacc.obtained, htaken.covers, hcovers]
    simp only [or_assoc, or_comm, or_left_comm]
  · rw [hregions, hbase, hbrk]
    exact hacc.regions
  · rw [hbase, hbrk]
    exact hacc.top
  · rw [hbase]
    exact hacc.based
  · have hsum := hacc.sum
    have htotal := htaken.total
    simp only [total_append, total_cons, total_nil]
    rw [hregions]
    omega
  · have hlength := htaken.length
    have hbound := hacc.bound
    omega

/-- If every free block is too small, so is the block where the search ends. -/
theorem Account.too_small (hacc : Account h fs held) (hpos : 0 < nunits.toNat)
    (hsmall : ∀ f ∈ fs, f.2 < nunits.toNat) {q : Nat}
    (hq : q ∈ ((h.base, 0) :: fs).map Prod.fst) : ¬ nunits ≤ h.size (h.ptr q) := by
  rw [UInt32.le_iff_toNat_le, Nat.not_le]
  by_cases hne : h.ptr q = h.base
  · have hzero : (h.size h.base).toNat = 0 := hacc.list.sizes (h.base, 0) List.mem_cons_self
    rw [hne]
    omega
  · obtain ⟨lo, g, f, hi, hsplit, -, hf⟩ := hacc.list.behind hq hne
    obtain ⟨pre, hfs, -⟩ := sentinel_split hsplit
    have hmem : f ∈ fs := by
      rw [hfs]
      simp
    rw [← hf, hacc.list.sizes f (List.mem_cons_of_mem _ hmem)]
    exact hsmall f hmem

end Calls

/-! ## The invariant -/

/-- The units of an allocation, with its header. -/
def Alloc.block (a : Alloc) : Block :=
  (a.bp, a.units)

/-- The heap once `malloc` has been called: the blocks that are held are the live
allocations, and each has room for what was asked for. -/
structure HeapInv (h : Heap) (fs : List Block) : Prop where
  account : Account h fs (h.live.map Alloc.block)
  room : ∀ a ∈ h.live, a.bytes + 16 ≤ 16 * a.units
  running : h.stuck = false

/-- No call of `malloc` yet. -/
structure NotStarted (h : Heap) : Prop where
  freep : h.freep = 0
  live : h.live = []
  regions : h.regions = []
  top : h.base + 16 ≤ h.brk
  based : 0 < h.base
  running : h.stuck = false

/-- What holds between calls. -/
def HeapSound (h : Heap) : Prop :=
  NotStarted h ∨ ∃ fs, HeapInv h fs

theorem HeapSound.running {h : Heap} (hsound : HeapSound h) : h.stuck = false := by
  rcases hsound with hnot | ⟨fs, hinv⟩
  · exact hnot.running
  · exact hinv.running

/-- The blocks found by following the list from `p` to the sentinel. -/
def walkFree (h : Heap) : Nat → Nat → List Block
  | 0, _ => []
  | n + 1, p => if p = h.base then [] else (p, (h.size p).toNat) :: walkFree h n (h.ptr p)

/-- The blocks of the free list. -/
def freeBlocks (h : Heap) : List Block :=
  if h.freep = 0 then [] else walkFree h h.inserts (h.ptr h.base)

theorem walkFree_eq {h : Heap} {fs : List Block} {n p : Nat}
    (hleads : Leads h.ptr p (fs.map Prod.fst) h.base)
    (hsizes : ∀ f ∈ fs, (h.size f.1).toNat = f.2) (hne : ∀ f ∈ fs, f.1 ≠ h.base)
    (hn : fs.length ≤ n) : walkFree h n p = fs := by
  induction fs generalizing n p with
  | nil =>
    have hp : p = h.base := hleads
    cases n with
    | zero => rfl
    | succ n => rw [walkFree, if_pos hp]
  | cons f fs ih =>
    obtain ⟨hp, hrest⟩ := hleads
    cases n with
    | zero => simp at hn
    | succ n =>
      have hfne := hne f List.mem_cons_self
      rw [walkFree, hp, if_neg hfne, hsizes f List.mem_cons_self]
      rw [ih hrest (fun k hk => hsizes k (List.mem_cons_of_mem f hk))
        (fun k hk => hne k (List.mem_cons_of_mem f hk)) (by simpa using hn)]

theorem Account.freep_ne_zero {h : Heap} {fs held : List Block} (hacc : Account h fs held) :
    h.freep ≠ 0 := by
  have hbased := hacc.based
  obtain ⟨f, hf, hfreep⟩ := List.mem_map.mp hacc.list.start
  rcases List.mem_cons.mp hf with hf | hf
  · rw [← hfreep, hf]
    simp only
    omega
  · have habove := hacc.above (Or.inl (covers_start hf (hacc.units f hf)))
    omega

theorem Account.freeBlocks_eq {h : Heap} {fs held : List Block} (hacc : Account h fs held) :
    freeBlocks h = fs := by
  rw [freeBlocks, if_neg hacc.freep_ne_zero]
  refine walkFree_eq hacc.list.cycle.2 ?_ ?_ hacc.bound
  · intro f hf
    exact hacc.list.sizes f (List.mem_cons_of_mem _ hf)
  · intro f hf
    have habove := hacc.above (Or.inl (covers_start hf (hacc.units f hf)))
    omega

/-! ## The calls -/

/-- The condition: no block that the step puts on the free list is joined to 2^32 units or
more.  `malloc` puts one there if no free block is large enough and `sbrk` returns one. -/
def NoOverflow (h : Heap) : HeapAct → Prop
  | .malloc nbytes (some p :: _) =>
    (∀ f ∈ freeBlocks h, f.2 < (Heap.unitsFor nbytes).toNat) →
      touching (freeBlocks h) p (Heap.coreUnits (Heap.unitsFor nbytes)).toNat < 2 ^ 32
  | .free ap => ∀ a ∈ h.live, a.bp + 16 = ap → touching (freeBlocks h) a.bp a.units < 2 ^ 32
  | _ => True

instance (h : Heap) : ∀ a : HeapAct, Decidable (NoOverflow h a)
  | .malloc nbytes (some p :: _) => inferInstanceAs (Decidable
      ((∀ f ∈ freeBlocks h, f.2 < (Heap.unitsFor nbytes).toNat) →
        touching (freeBlocks h) p (Heap.coreUnits (Heap.unitsFor nbytes)).toNat < 2 ^ 32))
  | .malloc _ [] => isTrue trivial
  | .malloc _ (none :: _) => isTrue trivial
  | .free ap => inferInstanceAs (Decidable
      (∀ a ∈ h.live, a.bp + 16 = ap → touching (freeBlocks h) a.bp a.units < 2 ^ 32))
  | .store _ _ _ => isTrue trivial

theorem toNat_unitsFor (nbytes : UInt32) :
    (Heap.unitsFor nbytes).toNat = (nbytes.toNat + 15) / 16 + 1 := by
  have hlt := nbytes.toNat_lt
  rw [Heap.unitsFor, UInt32.toNat_ofNat', Nat.mod_eq_of_lt]
  omega

/-- `malloc` returned a new allocation at `a`. -/
structure Granted (h : Heap) (n bytes : Nat) (h' : Heap) (a : Nat) : Prop where
  inv : ∃ fs', HeapInv h' fs'
  live : h'.live = h.live ++ [⟨a, n, bytes⟩]

section Malloc

variable {h : Heap} {fs : List Block} {nunits : UInt32} {bytes : Nat}

/-- A free block is large enough. -/
theorem HeapInv.mallocLoop_found (hinv : HeapInv h fs) (hpos : 0 < nunits.toNat)
    (hroom : bytes + 16 ≤ 16 * nunits.toNat) (hlarge : ∃ f ∈ fs, nunits.toNat ≤ f.2)
    (answers : List (Option Nat)) :
    ∃ h' a, h.mallocLoop nunits bytes answers = some (h', a + 16) ∧
      Granted h nunits.toNat bytes h' a := by
  obtain ⟨q, hq, hsearch, hfound⟩ := hinv.account.list.search nunits hinv.account.bound
  have hstop : nunits ≤ h.size (h.ptr q) := by
    rcases hfound with hfound | hsmall
    · exact hfound
    · obtain ⟨f, hf, hle⟩ := hlarge
      have hlt := hsmall f hf
      omega
  obtain ⟨h', a, fs', halloc, htaken, hacc⟩ := hinv.account.allocate hq hstop hpos bytes
  have hlive : h'.live = h.live ++ [⟨a, nunits.toNat, bytes⟩] := by rw [htaken.rest]
  refine ⟨h', a, ?_, ⟨fs', ?_, ?_, ?_⟩, hlive⟩
  · rw [Heap.mallocLoop.eq_def, hsearch]
    simp only [if_pos hstop, halloc]
  · rw [hlive, List.map_append]
    exact hacc
  · intro b hb
    rw [hlive] at hb
    rcases List.mem_append.mp hb with hb | hb
    · exact hinv.room b hb
    · rw [List.mem_singleton.mp hb]
      exact hroom
  · rw [htaken.rest]
    exact hinv.running

/-- No free block is large enough: the search comes back to where it started. -/
theorem HeapInv.mallocLoop_small (hinv : HeapInv h fs) (hpos : 0 < nunits.toNat)
    (hsmall : ∀ f ∈ fs, f.2 < nunits.toNat) (answers : List (Option Nat)) :
    h.mallocLoop nunits bytes answers =
      match answers with
      | [] => none
      | none :: _ => some (h, 0)
      | some p :: answers =>
        if h.brk ≤ p then
          match h.morecore nunits p with
          | none => some ({ h with stuck := true }, 0)
          | some h => h.mallocLoop nunits bytes answers
        else none := by
  obtain ⟨q, hq, hsearch, -⟩ := hinv.account.list.search nunits hinv.account.bound
  rw [Heap.mallocLoop.eq_def, hsearch]
  have hsmall' := hinv.account.too_small hpos hsmall hq
  cases answers with
  | nil => exact if_neg hsmall'
  | cons answer answers =>
    cases answer with
    | none | some p => exact if_neg hsmall'

/-- One region from `sbrk` is enough. -/
theorem HeapInv.mallocLoop_more (hinv : HeapInv h fs) (hpos : 0 < nunits.toNat)
    (hroom : bytes + 16 ≤ 16 * nunits.toNat) (hsmall : ∀ f ∈ fs, f.2 < nunits.toNat) {p : Nat}
    (hp : h.brk ≤ p) (hfit : touching fs p (Heap.coreUnits nunits).toNat < 2 ^ 32)
    (answers : List (Option Nat)) :
    ∃ h' a, h.mallocLoop nunits bytes (some p :: answers) = some (h', a + 16) ∧
      Granted h nunits.toNat bytes h' a := by
  obtain ⟨h₁, fs₁, hmore, hacc₁, hlarge, hlive, hstuck⟩ := hinv.account.morecore hp hpos hfit
  have hinv₁ : HeapInv h₁ fs₁ := by
    refine ⟨?_, ?_, hstuck.trans hinv.running⟩
    · rw [hlive]
      exact hacc₁
    · rw [hlive]
      exact hinv.room
  obtain ⟨h', a, hloop, hgranted⟩ := hinv₁.mallocLoop_found hpos hroom hlarge answers
  refine ⟨h', a, ?_, hgranted.inv, ?_⟩
  · rw [hinv.mallocLoop_small hpos hsmall]
    simp only [if_pos hp, hmore]
    exact hloop
  · rw [hgranted.live, hlive]

end Malloc

/-- The first call of `malloc` makes the empty list; a later call finds it. -/
theorem HeapSound.init {h : Heap} (hsound : HeapSound h) :
    HeapInv h.init (freeBlocks h) ∧ h.init.live = h.live ∧ h.init.brk = h.brk := by
  rcases hsound with hnot | ⟨fs, hinv⟩
  · have hempty : freeBlocks h = [] := by rw [freeBlocks, if_pos hnot.freep]
    have hbased := hnot.based
    rw [hempty, Heap.init, if_pos hnot.freep]
    refine ⟨⟨⟨⟨?_, ?_, ?_, ?_⟩, ?_, ?_, ?_, ?_, ?_, ?_, ?_, hnot.top, hbased, ?_, ?_⟩, ?_, ?_⟩,
      rfl, rfl⟩
    · exact ⟨rfl, Function.update_self _ _ _⟩
    · intro f hf
      rw [List.mem_singleton.mp hf]
      simp only [Function.update_self]
      rfl
    · exact List.pairwise_singleton _ _
    · exact List.mem_cons_self
    · simp
    · simp [hnot.live]
    · simp [hnot.live]
    · simp [hnot.live]
    · intro x hx
      exact absurd hx not_covers_nil
    · intro x
      simp [hnot.live, hnot.regions, not_covers_nil]
    · simp [hnot.regions]
    · simp [hnot.live, hnot.regions]
    · simp
    · simp [hnot.live]
    · exact hnot.running
  · rw [hinv.account.freeBlocks_eq, Heap.init, if_neg hinv.account.freep_ne_zero]
    exact ⟨hinv, rfl, rfl⟩

/-- What `malloc` returns: a new allocation, or null with the allocations as they were. -/
def Answered (h : Heap) (nbytes : UInt32) (h' : Heap) (r : Nat) : Prop :=
  (∃ a, r = a + 16 ∧ Granted h (Heap.unitsFor nbytes).toNat nbytes.toNat h' a) ∨
    (r = 0 ∧ h'.live = h.live ∧ ∃ fs, HeapInv h' fs)

section Requests

variable {h : Heap} {nbytes : UInt32}

/-- A free block is large enough or all are too small. -/
theorem large_or_small (fs : List Block) (n : Nat) :
    (∃ f ∈ fs, n ≤ f.2) ∨ ∀ f ∈ fs, f.2 < n := by
  by_cases hlarge : ∃ f ∈ fs, n ≤ f.2
  · exact Or.inl hlarge
  · right
    intro f hf
    by_contra hge
    exact hlarge ⟨f, hf, Nat.le_of_not_lt hge⟩

theorem unitsFor_pos : 0 < (Heap.unitsFor nbytes).toNat := by
  rw [toNat_unitsFor]
  omega

theorem unitsFor_room : nbytes.toNat + 16 ≤ 16 * (Heap.unitsFor nbytes).toNat := by
  rw [toNat_unitsFor]
  omega

theorem Granted.of_init {h' : Heap} {n bytes a : Nat} (hg : Granted h.init n bytes h' a)
    (hlive : h.init.live = h.live) : Granted h n bytes h' a :=
  ⟨hg.inv, by rw [hg.live, hlive]⟩

/-- `malloc` returns if `sbrk` does: with one answer of it the search ends. -/
theorem HeapSound.malloc_answered (hsound : HeapSound h) (nbytes : UInt32) (answer : Option Nat)
    (rest : List (Option Nat)) (hfresh : ∀ p, answer = some p → h.brk ≤ p)
    (hno : NoOverflow h (.malloc nbytes (answer :: rest))) :
    ∃ h' r, h.malloc nbytes (answer :: rest) = some (h', r) ∧ Answered h nbytes h' r ∧
      (answer ≠ none → r ≠ 0) := by
  obtain ⟨hinv, hlive, hbrk⟩ := hsound.init
  rcases large_or_small (freeBlocks h) (Heap.unitsFor nbytes).toNat with hlarge | hsmall
  · obtain ⟨h', a, hloop, hgranted⟩ :=
      hinv.mallocLoop_found unitsFor_pos unitsFor_room hlarge (answer :: rest)
    exact ⟨h', a + 16, hloop, Or.inl ⟨a, rfl, hgranted.of_init hlive⟩, fun _ => by omega⟩
  · cases answer with
    | none =>
      refine ⟨h.init, 0, ?_, Or.inr ⟨rfl, hlive, _, hinv⟩, fun hne => absurd rfl hne⟩
      rw [Heap.malloc, hinv.mallocLoop_small unitsFor_pos hsmall]
    | some p =>
      obtain ⟨h', a, hloop, hgranted⟩ := hinv.mallocLoop_more unitsFor_pos unitsFor_room hsmall
        (by rw [hbrk]; exact hfresh p rfl) (hno hsmall) rest
      exact ⟨h', a + 16, hloop, Or.inl ⟨a, rfl, hgranted.of_init hlive⟩, fun _ => by omega⟩

/-- Every return of `malloc`. -/
theorem HeapSound.malloc (hsound : HeapSound h) {answers : List (Option Nat)}
    (hno : NoOverflow h (.malloc nbytes answers)) {h' : Heap} {r : Nat}
    (hmalloc : h.malloc nbytes answers = some (h', r)) : Answered h nbytes h' r := by
  obtain ⟨hinv, hlive, hbrk⟩ := hsound.init
  rcases large_or_small (freeBlocks h) (Heap.unitsFor nbytes).toNat with hlarge | hsmall
  · obtain ⟨h₁, a, hloop, hgranted⟩ :=
      hinv.mallocLoop_found unitsFor_pos unitsFor_room hlarge answers
    rw [Heap.malloc, hloop] at hmalloc
    obtain ⟨rfl, rfl⟩ := Prod.ext_iff.mp (Option.some.inj hmalloc)
    exact Or.inl ⟨a, rfl, hgranted.of_init hlive⟩
  · have hstep := hmalloc
    rw [Heap.malloc, hinv.mallocLoop_small unitsFor_pos hsmall] at hstep
    cases answers with
    | nil => exact absurd hstep (by simp)
    | cons answer rest =>
      -- an answer below the break is no step
      have hfresh : ∀ p, answer = some p → h.brk ≤ p := by
        rintro p rfl
        by_contra hlow
        rw [← hbrk] at hlow
        simp [if_neg hlow] at hstep
      obtain ⟨h₁, r₁, heq, hanswered, -⟩ := hsound.malloc_answered nbytes answer rest hfresh hno
      rw [heq] at hmalloc
      obtain ⟨rfl, rfl⟩ := Prod.ext_iff.mp (Option.some.inj hmalloc)
      exact hanswered

theorem Answered.sound {h' : Heap} {r : Nat} (hanswered : Answered h nbytes h' r) :
    HeapSound h' := by
  rcases hanswered with ⟨a, -, hgranted⟩ | ⟨-, -, hinv⟩
  · exact Or.inr hgranted.inv
  · exact Or.inr hinv

end Requests

/-- `free` returns, with the block on the free list. -/
theorem HeapSound.free {h : Heap} (hsound : HeapSound h) {ap : Nat} {a : Alloc}
    (hfind : (h.live.find? fun a => a.bp + 16 = ap) = some a) (hno : NoOverflow h (.free ap)) :
    ∃ h' fs', h.free ap = some h' ∧ HeapInv h' fs' ∧ h'.live = h.live.erase a := by
  have hmem : a ∈ h.live := List.mem_of_find?_eq_some hfind
  have hap : a.bp + 16 = ap := by simpa using List.find?_some hfind
  rcases hsound with hnot | ⟨fs, hinv⟩
  · rw [hnot.live] at hmem
    simp at hmem
  · have hfit := hno a hmem hap
    rw [hinv.account.freeBlocks_eq] at hfit
    have hperm : (h.live.map Alloc.block).Perm
        ((a.bp, a.units) :: (h.live.erase a).map Alloc.block) :=
      (List.perm_cons_erase hmem).map Alloc.block
    obtain ⟨h', fs', hins, hinserted, hacc⟩ :=
      ((hinv.account.perm hperm).setLive (h.live.erase a)).insertFree hfit
    have hlive : h'.live = h.live.erase a := by rw [hinserted.rest]
    refine ⟨h', fs', ?_, ⟨?_, ?_, ?_⟩, hlive⟩
    · simp only [Heap.free, hfind, Option.map_some, hins, Option.getD_some]
    · rw [hlive]
      exact hacc
    · intro b hb
      rw [hlive] at hb
      exact hinv.room b (List.mem_of_mem_erase hb)
    · rw [hinserted.rest]
      exact hinv.running

/-- A store into the bytes of an allocation changes no header. -/
theorem HeapSound.store {h h' : Heap} (hsound : HeapSound h) {addr ptr : Nat} {size : UInt32}
    (hstep : heapStep h (.store addr ptr size) = some h') : HeapSound h' := by
  rw [heapStep, if_neg (by simp [hsound.running])] at hstep
  split_ifs at hstep with hinside
  obtain ⟨a, ha, hbounds⟩ := List.any_eq_true.mp hinside
  simp only [Bool.and_eq_true, decide_eq_true_eq] at hbounds
  rcases hsound with hnot | ⟨fs, hinv⟩
  · rw [hnot.live] at ha
    simp at ha
  · have hacc := hinv.account
    have hablock : a.block ∈ h.live.map Alloc.block := List.mem_map_of_mem ha
    have hcov : Covers (h.live.map Alloc.block) addr :=
      covers_of_mem hablock (by simp only [Alloc.block]; omega)
    have hheld : ∀ g ∈ h.live.map Alloc.block, g.1 ≠ addr := by
      intro g hg heq
      by_cases hga : g = a.block
      · rw [hga] at heq
        simp only [Alloc.block] at heq
        omega
      · have hpos := hacc.heldUnits g hg
        have hapart : Apart g a.block := hacc.apart.forall hg hablock hga
        simp only [Apart, Alloc.block] at hapart
        omega
    cases hstep
    exact Or.inr ⟨fs, hacc.setHeader (hacc.not_mem_list hcov) hheld, hinv.room, hinv.running⟩

/-- Each step that meets the condition keeps the heap sound. -/
theorem heapStep_sound (h : Heap) (act : HeapAct) (h' : Heap) (hsound : HeapSound h)
    (hno : NoOverflow h act) (hstep : heapStep h act = some h') : HeapSound h' := by
  have hrunning : ¬ h.stuck = true := by simp [hsound.running]
  cases act with
  | malloc nbytes answers =>
    simp only [heapStep, if_neg hrunning] at hstep
    obtain ⟨⟨h₁, r⟩, hmalloc, rfl⟩ := Option.map_eq_some_iff.mp hstep
    exact (hsound.malloc hno hmalloc).sound
  | free ap =>
    simp only [heapStep, if_neg hrunning] at hstep
    cases hfind : h.live.find? fun a => a.bp + 16 = ap with
    | none => simp [Heap.free, hfind] at hstep
    | some a =>
      obtain ⟨h₁, fs', hfree, hinv, -⟩ := hsound.free hfind hno
      rw [hfree] at hstep
      cases hstep
      exact Or.inr ⟨fs', hinv⟩
  | store addr ptr size => exact hsound.store hstep

/-! ## Runs -/

/-- Every non-null result of `malloc` is a region with the bytes asked for, in memory obtained
from `sbrk` and apart from all live allocations, and it is then the newest allocation. -/
def ResultsSound (h : Heap) : Prop :=
  ∀ nbytes answers h' r, NoOverflow h (.malloc nbytes answers) →
    h.malloc nbytes answers = some (h', r) → r ≠ 0 →
      (∃ a, h'.live = h.live ++ [a] ∧ a.bp + 16 = r ∧ a.bytes = nbytes.toNat) ∧
      ∀ x, r ≤ x → x < r + nbytes.toNat →
        Covers h'.regions x ∧ ¬ Covers (h.live.map Alloc.block) x

/-- The calls return: `malloc` once `sbrk` has answered, with a block if it answered with a
region, and `free` on every live allocation. -/
def CallsReturn (h : Heap) : Prop :=
  (∀ nbytes p, h.brk ≤ p → NoOverflow h (.malloc nbytes [some p]) →
    ∃ h' r, h.malloc nbytes [some p] = some (h', r) ∧ r ≠ 0 ∧ h'.stuck = false) ∧
  (∀ nbytes, ∃ h' r, h.malloc nbytes [none] = some (h', r) ∧ h'.stuck = false) ∧
  ∀ a ∈ h.live, NoOverflow h (.free (a.bp + 16)) →
    ∃ h', h.free (a.bp + 16) = some h' ∧ h'.stuck = false

theorem HeapSound.resultsSound {h : Heap} (hsound : HeapSound h) : ResultsSound h := by
  intro nbytes answers h' r hno hmalloc hr
  rcases hsound.malloc hno hmalloc with ⟨a, rfl, hgranted⟩ | ⟨hzero, -, -⟩
  · refine ⟨⟨_, hgranted.live, rfl, rfl⟩, ?_⟩
    intro x hlow hhigh
    obtain ⟨fs', hinv⟩ := hgranted.inv
    have hacc := hinv.account
    rw [hgranted.live, List.map_append] at hacc
    obtain ⟨-, -, hcross⟩ := List.pairwise_append.mp hacc.apart
    have hroom : nbytes.toNat + 16 ≤ 16 * (Heap.unitsFor nbytes).toNat := unitsFor_room
    have hbytes : a ≤ x ∧ x < a + 16 * (Heap.unitsFor nbytes).toNat := by omega
    constructor
    · refine (hacc.obtained x).mpr (Or.inr (covers_append.mpr (Or.inr ?_)))
      exact covers_of_mem List.mem_cons_self hbytes
    · have hapart : ∀ g ∈ h.live.map Alloc.block, Apart (a, (Heap.unitsFor nbytes).toNat) g :=
        fun g hg => (hcross g hg _ List.mem_cons_self).symm
      exact not_covers_of_apart hapart hbytes
  · exact absurd hzero hr

theorem HeapSound.callsReturn {h : Heap} (hsound : HeapSound h) : CallsReturn h := by
  refine ⟨?_, ?_, ?_⟩
  · intro nbytes p hp hno
    obtain ⟨h', r, hmalloc, hanswered, hr⟩ := hsound.malloc_answered nbytes (some p) []
      (fun q hq => Option.some.inj hq ▸ hp) hno
    exact ⟨h', r, hmalloc, hr (by simp), hanswered.sound.running⟩
  · intro nbytes
    obtain ⟨h', r, hmalloc, hanswered, -⟩ := hsound.malloc_answered nbytes none []
      (fun q hq => by simp at hq) trivial
    exact ⟨h', r, hmalloc, hanswered.sound.running⟩
  · intro a ha hno
    cases hfind : h.live.find? fun b => b.bp + 16 = a.bp + 16 with
    | none =>
      have hnone := List.find?_eq_none.mp hfind a ha
      simp at hnone
    | some b =>
      obtain ⟨h', fs', hfree, hinv, -⟩ := hsound.free hfind hno
      exact ⟨h', hfree, hinv.running⟩

theorem heapInit_notStarted {base brk : Nat} (ptr : Nat → Nat) (size : Nat → UInt32)
    (hbase : 0 < base) (hbrk : base + 16 ≤ brk) : NotStarted (heapInit base brk ptr size) :=
  ⟨rfl, rfl, rfl, hbrk, hbase, rfl⟩

/-- In every run in which no joined block has 2^32 units or more, the heap is sound in every
state, and so is every result of `malloc`, and every call returns. -/
theorem heap_sound_of_no_overflow (base brk : Nat) (ptr : Nat → Nat) (size : Nat → UInt32)
    (acts : List HeapAct) (hbase : 0 < base) (hbrk : base + 16 ≤ brk)
    (hmeets : Meets heapStep NoOverflow (heapInit base brk ptr size) acts) :
    AllStates heapStep (fun h => HeapSound h ∧ ResultsSound h ∧ CallsReturn h)
      (heapInit base brk ptr size) acts := by
  refine allStates_of_meets (I := HeapSound) ?_ heapStep_sound ?_ hmeets
  · intro h hsound
    exact ⟨hsound, hsound.resultsSound, hsound.callsReturn⟩
  · exact Or.inl (heapInit_notStarted ptr size hbase hbrk)

/-- Two allocations from one region, a store into the first, and both freed. -/
def twoBlocks : List HeapAct :=
  [.malloc 100 [some 4096], .malloc 50 [], .store 69520 7 7, .free 69520, .free 69440]

theorem heap_sound_twoBlocks :
    (runFrom heapStep (heapInit 16 4096 (fun _ => 0) fun _ => 0) twoBlocks).isSome = true ∧
      AllStates heapStep (fun h => HeapSound h ∧ ResultsSound h ∧ CallsReturn h)
        (heapInit 16 4096 (fun _ => 0) fun _ => 0) twoBlocks :=
  ⟨by decide +kernel,
    heap_sound_of_no_overflow 16 4096 _ _ twoBlocks (by decide) (by decide) (by decide +kernel)⟩

/-- The start of the `i`-th of adjacent regions that each have the units for 4294967295
bytes. -/
def hugeRegion (i : Nat) : Nat :=
  4096 + i * (16 * 268435457)

/-- Sixteen allocations of 4294967295 bytes in adjacent regions, and all of them freed. -/
def sixteenHuge : List HeapAct :=
  (List.range 16).map (fun i => .malloc 4294967295 [some (hugeRegion i)]) ++
    (List.range 16).map fun i => .free (hugeRegion i + 16)

/-- The free blocks of a sound heap without live allocations are all of its memory. -/
theorem HeapSound.total_freeBlocks {h : Heap} (hsound : HeapSound h) (hlive : h.live = []) :
    total (freeBlocks h) = total h.regions := by
  rcases hsound with hnot | ⟨fs, hinv⟩
  · rw [freeBlocks, if_pos hnot.freep, hnot.regions]
  · have hsum := hinv.account.sum
    rw [hlive] at hsum
    rw [hinv.account.freeBlocks_eq]
    simpa using hsum

/-- The last `free` joins all blocks, and the size in the header wraps around: of the
4294967312 units that were freed the list has 16. -/
theorem free_loses_units :
    ∃ h, runFrom heapStep (heapInit 16 4096 (fun _ => 0) fun _ => 0) sixteenHuge = some h ∧
      h.live = [] ∧ freeBlocks h = [(4096, 16)] ∧ total h.regions = 4294967312 ∧
      ¬ HeapSound h := by
  have heval : (runFrom heapStep (heapInit 16 4096 (fun _ => 0) fun _ => 0) sixteenHuge).map
      (fun h => (h.live, freeBlocks h, total h.regions)) =
        some ([], [(4096, 16)], 4294967312) := by
    decide +kernel
  obtain ⟨h, hrun, hfinal⟩ := Option.map_eq_some_iff.mp heval
  simp only [Prod.mk.injEq] at hfinal
  obtain ⟨hlive, hblocks, hregions⟩ := hfinal
  refine ⟨h, hrun, hlive, hblocks, hregions, ?_⟩
  intro hsound
  have hsum := hsound.total_freeBlocks hlive
  rw [hblocks, hregions] at hsum
  exact absurd hsum (by decide)

end Xv6.Umalloc
