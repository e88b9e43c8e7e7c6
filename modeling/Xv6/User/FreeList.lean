import Xv6.User.Umalloc

/-!
# User heap - The free list

The free list as a list of blocks with their units: circular through the sentinel, ordered by
address, with a gap between any two blocks.  The sentinel is the block of no units at the
front.  `free` puts a block at its place and joins it with the blocks that touch it.

Main results:

- Theorem {lit}`place_iff`: where the search of `free` ends.
- Theorem {lit}`FreeList.insertFree`: what `free` does to the free list.
- Theorem {lit}`FreeList.search`: what the search of `malloc` finds.
- Theorem {lit}`FreeList.allocate`: what taking a block does to the free list.
-/

namespace Xv6.Umalloc

open Foundations

/-- An address and a number of units. -/
abbrev Block := Nat × Nat

/-- The byte `x` is in one of the blocks. -/
def Covers (fs : List Block) (x : Nat) : Prop :=
  ∃ f ∈ fs, f.1 ≤ x ∧ x < f.1 + 16 * f.2

/-- The blocks are ordered by address, and no two of them touch. -/
def Gaps (fs : List Block) : Prop :=
  fs.Pairwise fun f g => f.1 + 16 * f.2 < g.1

/-- The units of the blocks. -/
def total (fs : List Block) : Nat :=
  (fs.map Prod.snd).sum

/-- The free list of the heap has the blocks `fs`. -/
structure FreeList (h : Heap) (fs : List Block) : Prop where
  cycle : Leads h.ptr h.base (((h.base, 0) :: fs).map Prod.fst) h.base
  sizes : ∀ f ∈ (h.base, 0) :: fs, (h.size f.1).toNat = f.2
  gaps : Gaps ((h.base, 0) :: fs)
  start : h.freep ∈ ((h.base, 0) :: fs).map Prod.fst

section Blocks

variable {fs gs : List Block} {f : Block} {x b u : Nat}

theorem covers_append : Covers (fs ++ gs) x ↔ Covers fs x ∨ Covers gs x := by
  simp [Covers, or_and_right, exists_or]

theorem covers_cons : Covers (f :: fs) x ↔ (f.1 ≤ x ∧ x < f.1 + 16 * f.2) ∨ Covers fs x := by
  simp [Covers]

theorem not_covers_nil : ¬ Covers [] x := by
  simp [Covers]

@[simp]
theorem total_nil : total [] = 0 := rfl

@[simp]
theorem total_cons : total (f :: fs) = f.2 + total fs := rfl

@[simp]
theorem total_append : total (fs ++ gs) = total fs + total gs := by
  simp [total]

theorem Gaps.sorted (h : Gaps fs) : (fs.map Prod.fst).Pairwise (· < ·) := by
  rw [List.pairwise_map]
  exact h.imp fun {f g} hfg => by omega

theorem Gaps.nodup (h : Gaps fs) : (fs.map Prod.fst).Nodup :=
  h.sorted.imp fun hab => Nat.ne_of_lt hab

/-- A block that overlaps none of the ordered blocks has its place between them. -/
theorem Gaps.split {e : Block} (hgaps : Gaps (e :: fs)) (he : e.1 + 16 * e.2 ≤ b)
    (hapart : ∀ f ∈ fs, f.1 + 16 * f.2 ≤ b ∨ b + 16 * u ≤ f.1) :
    ∃ lo f hi, e :: fs = lo ++ f :: hi ∧ (∀ g ∈ lo ++ [f], g.1 + 16 * g.2 ≤ b) ∧
      ∀ g ∈ hi, b + 16 * u ≤ g.1 := by
  induction fs generalizing e with
  | nil => exact ⟨[], e, [], rfl, by simpa using he, by simp⟩
  | cons g gs ih =>
    rcases hapart g List.mem_cons_self with hg | hg
    · have hrest : Gaps (g :: gs) := (List.pairwise_cons.mp hgaps).2
      obtain ⟨lo, f, hi, hsplit, hlo, hhi⟩ :=
        ih hrest hg fun f hf => hapart f (List.mem_cons_of_mem g hf)
      refine ⟨e :: lo, f, hi, by rw [hsplit]; rfl, ?_, hhi⟩
      intro k hk
      rcases List.mem_cons.mp hk with hk | hk
      · rw [hk]
        exact he
      · exact hlo k hk
    · refine ⟨[], e, g :: gs, rfl, by simpa using he, ?_⟩
      intro k hk
      rcases List.mem_cons.mp hk with hk | hk
      · rw [hk]
        exact hg
      · have hlater := (List.pairwise_cons.mp (List.pairwise_cons.mp hgaps).2).1 k hk
        omega

/-- Join a block with the first of the blocks behind it if they touch. -/
def joinHi (b u : Nat) : List Block → Nat × List Block
  | [] => (u, [])
  | g :: hi => if b + 16 * u = g.1 then (u + g.2, hi) else (u, g :: hi)

/-- What joining with the blocks behind does. -/
structure JoinedHi (b u : Nat) (hi : List Block) (r : Nat × List Block) : Prop where
  gap : ∀ g ∈ r.2, b + 16 * r.1 < g.1
  sublist : r.2.Sublist hi
  units : r.1 + total r.2 = u + total hi
  more : u ≤ r.1
  covers : ∀ x, (b ≤ x ∧ x < b + 16 * r.1) ∨ Covers r.2 x ↔
    (b ≤ x ∧ x < b + 16 * u) ∨ Covers hi x

theorem joinHi_spec {hi : List Block} (hgaps : Gaps hi) (hle : ∀ g ∈ hi, b + 16 * u ≤ g.1) :
    JoinedHi b u hi (joinHi b u hi) := by
  cases hi with
  | nil => exact ⟨by simp [joinHi], List.Sublist.refl [], rfl, Nat.le_refl u, fun x => Iff.rfl⟩
  | cons g hi =>
    have hlater := (List.pairwise_cons.mp hgaps).1
    by_cases htouch : b + 16 * u = g.1
    · simp only [joinHi, if_pos htouch]
      refine ⟨?_, List.sublist_cons_self g hi, ?_, Nat.le_add_right u g.2, ?_⟩
      · intro k hk
        have hgap := hlater k hk
        show b + 16 * (u + g.2) < k.1
        omega
      · simp only [total_cons]
        omega
      · intro x
        rw [covers_cons, ← or_assoc]
        have hunion : (b ≤ x ∧ x < b + 16 * (u + g.2)) ↔
            (b ≤ x ∧ x < b + 16 * u) ∨ (g.1 ≤ x ∧ x < g.1 + 16 * g.2) := by
          omega
        rw [hunion]
    · simp only [joinHi, if_neg htouch]
      refine ⟨?_, List.Sublist.refl _, rfl, Nat.le_refl u, fun x => Iff.rfl⟩
      intro k hk
      have hfirst := hle g List.mem_cons_self
      rcases List.mem_cons.mp hk with hk | hk
      · rw [hk]
        show b + 16 * u < g.1
        omega
      · have hgap := hlater k hk
        show b + 16 * u < k.1
        omega

end Blocks

/-! ## Where the search of free ends -/

/-- The search of `free` for `b` ends at the last block before it. -/
theorem place_iff {h : Heap} {addrs : List Nat} {b q : Nat}
    (hcycle : Leads h.ptr h.base (h.base :: addrs) h.base)
    (hsorted : (h.base :: addrs).Pairwise (· < ·)) (hb : h.base < b)
    (hq : q ∈ h.base :: addrs) :
    h.place b q = true ↔ q < b ∧ ∀ r ∈ h.base :: addrs, r ≤ q ∨ b < r := by
  have hbase : h.base ≤ q := by
    rcases List.mem_cons.mp hq with hq | hq
    · exact Nat.le_of_eq hq.symm
    · exact Nat.le_of_lt ((List.pairwise_cons.mp hsorted).1 q hq)
  obtain ⟨before, after, hsplit⟩ := List.append_of_mem hq
  rw [hsplit] at hcycle hsorted ⊢
  have hnext := (leads_append_cons.mp hcycle).2.start_eq
  obtain ⟨-, hfrom, hcross⟩ := List.pairwise_append.mp hsorted
  have hbefore : ∀ r ∈ before, r ≤ q := fun r hr =>
    Nat.le_of_lt (hcross r hr q List.mem_cons_self)
  cases after with
  | nil =>
    have hwrap : h.ptr q = h.base := hnext
    have hall : ∀ r ∈ before ++ [q], r ≤ q ∨ b < r := by
      intro r hr
      rcases List.mem_append.mp hr with hr | hr
      · exact Or.inl (hbefore r hr)
      · exact Or.inl (Nat.le_of_eq (List.mem_singleton.mp hr))
    simp only [Heap.place, hwrap, Bool.or_eq_true, Bool.and_eq_true, decide_eq_true_eq]
    constructor
    · intro hplace
      exact ⟨by omega, hall⟩
    · intro hplace
      omega
  | cons c after =>
    have hsucc : h.ptr q = c := hnext
    have hqc : q < c := (List.pairwise_cons.mp hfrom).1 c List.mem_cons_self
    simp only [Heap.place, hsucc, Bool.or_eq_true, Bool.and_eq_true, decide_eq_true_eq]
    constructor
    · intro hplace
      have hbc : q < b ∧ b < c := by omega
      refine ⟨hbc.1, ?_⟩
      intro r hr
      rcases List.mem_append.mp hr with hr | hr
      · exact Or.inl (hbefore r hr)
      · rcases List.mem_cons.mp hr with hr | hr
        · exact Or.inl (Nat.le_of_eq hr)
        · rcases List.mem_cons.mp hr with hr | hr
          · exact Or.inr (hr ▸ hbc.2)
          · have hcr := (List.pairwise_cons.mp (List.pairwise_cons.mp hfrom).2).1 r hr
            exact Or.inr (Nat.lt_trans hbc.2 hcr)
    · intro hplace
      have hc := hplace.2 c (by simp)
      omega

/-! ## Joining -/

/-- The units of the blocks that touch the block `b` of `u` units, and of that block. -/
def touching (fs : List Block) (b u : Nat) : Nat :=
  total (fs.filter fun f => f.1 + 16 * f.2 = b) + u + total (fs.filter fun f => b + 16 * u = f.1)

theorem le_total_of_mem {fs : List Block} {f : Block} (hf : f ∈ fs) : f.2 ≤ total fs :=
  List.le_sum_of_mem (List.mem_map_of_mem hf)

/-- The units of a block joined on both sides. -/
theorem joined_le_touching {fs lo hi : List Block} {e f : Block} {b u : Nat}
    (hsplit : e :: fs = lo ++ f :: hi) (he : e.2 = 0) :
    (if f.1 + 16 * f.2 = b then f.2 else 0) + (joinHi b u hi).1 ≤ touching fs b u := by
  have hmem : ∀ g ∈ lo ++ f :: hi, g.2 = 0 ∨ g ∈ fs := by
    intro g hg
    rw [← hsplit] at hg
    rcases List.mem_cons.mp hg with hg | hg
    · exact Or.inl (hg ▸ he)
    · exact Or.inr hg
  have hleft : (if f.1 + 16 * f.2 = b then f.2 else 0) ≤
      total (fs.filter fun f => f.1 + 16 * f.2 = b) := by
    split_ifs with htouch
    · rcases hmem f (by simp) with hzero | hf
      · omega
      · exact le_total_of_mem (List.mem_filter.mpr ⟨hf, by simpa using htouch⟩)
    · exact Nat.zero_le _
  have hright : (joinHi b u hi).1 ≤ u + total (fs.filter fun f => b + 16 * u = f.1) := by
    cases hi with
    | nil => exact Nat.le_add_right _ _
    | cons g hi =>
      rw [joinHi]
      split_ifs with htouch
      · rcases hmem g (by simp) with hzero | hg
        · omega
        · have hle := le_total_of_mem (List.mem_filter.mpr ⟨hg, by simpa using htouch⟩ :
            g ∈ fs.filter fun f => b + 16 * u = f.1)
          show u + g.2 ≤ _
          omega
      · exact Nat.le_add_right _ _
  unfold touching
  omega

section Joining

variable {h : Heap} {b u : Nat} {f : Block} {hi : List Block}

theorem toNat_add_of_lt {a c : UInt32} (hlt : a.toNat + c.toNat < 2 ^ 32) :
    (a + c).toNat = a.toNat + c.toNat := by
  rw [UInt32.toNat_add, Nat.mod_eq_of_lt hlt]

/-- What the first test of `free` does: only the header of `b` changes. -/
structure LinkedNext (h : Heap) (b u : Nat) (hi : List Block) (h' : Heap) : Prop where
  leads : Leads h.ptr (h'.ptr b) ((joinHi b u hi).2.map Prod.fst) h.base
  size : (h'.size b).toNat = (joinHi b u hi).1
  ptrs : ∀ x, x ≠ b → h'.ptr x = h.ptr x
  sizes : ∀ x, x ≠ b → h'.size x = h.size x
  rest : h' = { h with ptr := h'.ptr, size := h'.size }

theorem joinNext_spec (hb : h.base < b) (hsize : (h.size b).toNat = u)
    (hnext : Leads h.ptr (h.ptr f.1) (hi.map Prod.fst) h.base)
    (hsizes : ∀ g ∈ hi, (h.size g.1).toNat = g.2) (hfit : (joinHi b u hi).1 < 2 ^ 32) :
    LinkedNext h b u hi (h.joinNext b f.1) := by
  have hstop : h.stop b = b + 16 * u := by rw [Heap.stop, hsize]
  cases hi with
  | nil =>
    have hwrap : h.ptr f.1 = h.base := hnext
    have hne : ¬ h.stop b = h.ptr f.1 := by
      rw [hstop, hwrap]
      omega
    simp only [Heap.joinNext, if_neg hne]
    refine ⟨?_, hsize, ?_, fun x _ => rfl, rfl⟩
    · simp only [Function.update_self, hwrap]
      rfl
    · intro x hx
      exact Function.update_of_ne hx _ _
  | cons g hi =>
    have hsucc : h.ptr f.1 = g.1 := hnext.1
    by_cases htouch : b + 16 * u = g.1
    · have hjoin : h.stop b = h.ptr f.1 := by rw [hstop, hsucc, htouch]
      simp only [joinHi, if_pos htouch] at hfit
      simp only [Heap.joinNext, if_pos hjoin]
      refine ⟨?_, ?_, ?_, ?_, rfl⟩
      · simp only [Function.update_self, hsucc, joinHi, if_pos htouch]
        exact hnext.2
      · have hg := hsizes g List.mem_cons_self
        simp only [Function.update_self, hsucc, joinHi, if_pos htouch]
        rw [toNat_add_of_lt (by rw [hsize, hg]; exact hfit), hsize, hg]
      · intro x hx
        exact Function.update_of_ne hx _ _
      · intro x hx
        exact Function.update_of_ne hx _ _
    · have hne : ¬ h.stop b = h.ptr f.1 := by
        rw [hstop, hsucc]
        exact htouch
      simp only [Heap.joinNext, if_neg hne]
      refine ⟨?_, ?_, ?_, fun x _ => rfl, rfl⟩
      · simp only [Function.update_self, joinHi, if_neg htouch]
        exact hnext
      · simp only [joinHi, if_neg htouch]
        exact hsize
      · intro x hx
        exact Function.update_of_ne hx _ _

/-- The blocks from the one before `b` on, once `b` is in its place. -/
def joinLo (f : Block) (b : Nat) (r : Nat × List Block) : List Block :=
  if f.1 + 16 * f.2 = b then (f.1, f.2 + r.1) :: r.2 else f :: (b, r.1) :: r.2

/-- What the second test of `free` does: only the header before `b` changes. -/
structure LinkedPrev (h : Heap) (f : Block) (b : Nat) (r : Nat × List Block) (h' : Heap) :
    Prop where
  leads : Leads h'.ptr f.1 ((joinLo f b r).map Prod.fst) h.base
  sizes : ∀ g ∈ joinLo f b r, (h'.size g.1).toNat = g.2
  ptrs : ∀ x, x ≠ f.1 → h'.ptr x = h.ptr x
  others : ∀ x, x ≠ f.1 → h'.size x = h.size x
  rest : h' = { h with ptr := h'.ptr, size := h'.size }

theorem joinPrev_spec {r : Nat × List Block} (hfb : f.1 < b)
    (hf : (h.size f.1).toNat = f.2) (hsize : (h.size b).toNat = r.1)
    (hleads : Leads h.ptr (h.ptr b) (r.2.map Prod.fst) h.base)
    (hsizes : ∀ g ∈ r.2, (h.size g.1).toNat = g.2) (hhi : ∀ g ∈ r.2, f.1 < g.1)
    (hfit : (if f.1 + 16 * f.2 = b then f.2 else 0) + r.1 < 2 ^ 32) :
    LinkedPrev h f b r (h.joinPrev b f.1) := by
  have hstop : h.stop f.1 = f.1 + 16 * f.2 := by rw [Heap.stop, hf]
  have hbf : b ≠ f.1 := by omega
  have hkeep : ∀ {β : Type} (m : Nat → β) (v : β), ∀ g ∈ r.2,
      Function.update m f.1 v g.1 = m g.1 := by
    intro β m v g hg
    have hne : g.1 ≠ f.1 := Nat.ne_of_gt (hhi g hg)
    exact Function.update_of_ne hne v m
  have htail : ∀ v, Leads (Function.update h.ptr f.1 v) (h.ptr b) (r.2.map Prod.fst) h.base := by
    intro v
    apply hleads.congr
    intro x hx
    obtain ⟨g, hg, rfl⟩ := List.mem_map.mp hx
    exact hkeep h.ptr v g hg
  by_cases htouch : f.1 + 16 * f.2 = b
  · have hjoin : h.stop f.1 = b := by rw [hstop, htouch]
    rw [if_pos htouch] at hfit
    simp only [Heap.joinPrev, if_pos hjoin]
    refine ⟨?_, ?_, ?_, ?_, rfl⟩
    · simp only [joinLo, if_pos htouch, List.map_cons]
      refine ⟨rfl, ?_⟩
      rw [Function.update_self]
      exact htail _
    · intro g hg
      simp only [joinLo, if_pos htouch] at hg
      rcases List.mem_cons.mp hg with hg | hg
      · rw [hg]
        simp only [Function.update_self]
        rw [toNat_add_of_lt (by rw [hf, hsize]; exact hfit), hf, hsize]
      · simp only [hkeep h.size _ g hg]
        exact hsizes g hg
    · intro x hx
      exact Function.update_of_ne hx _ _
    · intro x hx
      exact Function.update_of_ne hx _ _
  · have hne : ¬ h.stop f.1 = b := by
      rw [hstop]
      exact htouch
    simp only [Heap.joinPrev, if_neg hne]
    refine ⟨?_, ?_, ?_, fun x _ => rfl, rfl⟩
    · simp only [joinLo, if_neg htouch, List.map_cons]
      refine ⟨rfl, ?_⟩
      rw [Function.update_self]
      refine ⟨rfl, ?_⟩
      rw [Function.update_of_ne hbf]
      exact htail b
    · intro g hg
      simp only [joinLo, if_neg htouch] at hg
      rcases List.mem_cons.mp hg with hg | hg
      · rw [hg]
        exact hf
      · rcases List.mem_cons.mp hg with hg | hg
        · rw [hg]
          exact hsize
        · exact hsizes g hg
    · intro x hx
      exact Function.update_of_ne hx _ _

/-- What joining with the block before does to the blocks. -/
structure JoinedLo (f : Block) (b : Nat) (r : Nat × List Block) (gs : List Block) : Prop where
  gaps : Gaps gs
  first : ∀ g ∈ gs, f.1 ≤ g.1
  units : total gs = f.2 + (r.1 + total r.2)
  length : gs.length ≤ r.2.length + 2
  large : ∃ g ∈ gs, r.1 ≤ g.2
  pos : 0 < r.1 → (∀ g ∈ r.2, 0 < g.2) → ∀ g ∈ gs, g = f ∨ 0 < g.2
  covers : ∀ x, Covers gs x ↔
    (f.1 ≤ x ∧ x < f.1 + 16 * f.2) ∨ (b ≤ x ∧ x < b + 16 * r.1) ∨ Covers r.2 x

theorem joinLo_spec {r : Nat × List Block} (hle : f.1 + 16 * f.2 ≤ b) (hfb : f.1 < b)
    (hgaps : Gaps r.2) (hgap : ∀ g ∈ r.2, b + 16 * r.1 < g.1) :
    JoinedLo f b r (joinLo f b r) := by
  have hhi : ∀ g ∈ r.2, f.1 ≤ g.1 := by
    intro g hg
    have hlt := hgap g hg
    omega
  by_cases htouch : f.1 + 16 * f.2 = b
  · simp only [joinLo, if_pos htouch]
    refine ⟨?_, ?_, ?_, ?_, ?_, ?_, ?_⟩
    · refine List.pairwise_cons.mpr ⟨?_, hgaps⟩
      intro g hg
      have hlt := hgap g hg
      show f.1 + 16 * (f.2 + r.1) < g.1
      omega
    · intro g hg
      rcases List.mem_cons.mp hg with hg | hg
      · rw [hg]
      · exact hhi g hg
    · simp only [total_cons]
      omega
    · simp
    · exact ⟨_, List.mem_cons_self, Nat.le_add_left _ _⟩
    · intro hpos hall g hg
      rcases List.mem_cons.mp hg with hg | hg
      · rw [hg]
        exact Or.inr (Nat.lt_of_lt_of_le hpos (Nat.le_add_left _ _))
      · exact Or.inr (hall g hg)
    · intro x
      rw [covers_cons, ← or_assoc]
      have hunion : (f.1 ≤ x ∧ x < f.1 + 16 * (f.2 + r.1)) ↔
          (f.1 ≤ x ∧ x < f.1 + 16 * f.2) ∨ (b ≤ x ∧ x < b + 16 * r.1) := by
        omega
      rw [hunion]
  · simp only [joinLo, if_neg htouch]
    refine ⟨?_, ?_, ?_, ?_, ?_, ?_, ?_⟩
    · refine List.pairwise_cons.mpr ⟨?_, List.pairwise_cons.mpr ⟨hgap, hgaps⟩⟩
      intro g hg
      rcases List.mem_cons.mp hg with hg | hg
      · rw [hg]
        show f.1 + 16 * f.2 < b
        omega
      · have hlt := hgap g hg
        omega
    · intro g hg
      rcases List.mem_cons.mp hg with hg | hg
      · rw [hg]
      · rcases List.mem_cons.mp hg with hg | hg
        · rw [hg]
          exact Nat.le_of_lt hfb
        · exact hhi g hg
    · simp only [total_cons]
    · simp
    · exact ⟨(b, r.1), by simp, Nat.le_refl _⟩
    · intro hpos hall g hg
      rcases List.mem_cons.mp hg with hg | hg
      · exact Or.inl hg
      · rcases List.mem_cons.mp hg with hg | hg
        · rw [hg]
          exact Or.inr hpos
        · exact Or.inr (hall g hg)
    · intro x
      rw [covers_cons, covers_cons]

end Joining

/-! ## The place of a block -/

/-- The block `b` of `u` units belongs behind `f`, the last block before it; `e` is the
sentinel. -/
structure Site (e : Block) (fs : List Block) (b u : Nat) (lo : List Block) (f : Block)
    (hi : List Block) : Prop where
  split : e :: fs = lo ++ f :: hi
  sentinel : e.2 = 0
  inside : e.1 < b
  unit : 0 < u
  units : ∀ g ∈ fs, 0 < g.2
  gapsLo : Gaps lo
  gapsHi : Gaps hi
  lower : ∀ g ∈ lo, g.1 + 16 * g.2 < f.1
  left : f.1 + 16 * f.2 ≤ b
  before : f.1 < b
  right : ∀ g ∈ hi, b + 16 * u ≤ g.1

theorem Gaps.site {e : Block} {fs : List Block} {b u : Nat} (hgaps : Gaps (e :: fs))
    (he : e.2 = 0) (hb : e.1 < b) (hu : 0 < u) (hunits : ∀ g ∈ fs, 0 < g.2)
    (hapart : ∀ g ∈ fs, g.1 + 16 * g.2 ≤ b ∨ b + 16 * u ≤ g.1) :
    ∃ lo f hi, Site e fs b u lo f hi := by
  obtain ⟨lo, f, hi, hsplit, hbelow, habove⟩ := hgaps.split (by omega) hapart
  have hwhole := hgaps
  rw [hsplit] at hwhole
  obtain ⟨hlo, hfhi, hcross⟩ := List.pairwise_append.mp hwhole
  have hleft : f.1 + 16 * f.2 ≤ b := hbelow f (by simp)
  have hfmem : f ∈ e :: fs := by
    rw [hsplit]
    simp
  have hbefore : f.1 < b := by
    rcases List.mem_cons.mp hfmem with heq | hmem
    · rw [heq]
      exact hb
    · have hpos := hunits f hmem
      omega
  exact ⟨lo, f, hi, hsplit, he, hb, hu, hunits, hlo, (List.pairwise_cons.mp hfhi).2,
    fun g hg => hcross g hg f List.mem_cons_self, hleft, hbefore, habove⟩

/-- The blocks `fs'` are the blocks `fs` and the block `b` of `u` units. -/
structure Merged (fs : List Block) (b u : Nat) (fs' : List Block) : Prop where
  covers : ∀ x, Covers fs' x ↔ Covers fs x ∨ (b ≤ x ∧ x < b + 16 * u)
  total : total fs' = total fs + u
  length : fs'.length ≤ fs.length + 1
  units : ∀ f ∈ fs', 0 < f.2
  large : ∃ f ∈ fs', u ≤ f.2

section Site

variable {e f : Block} {fs lo hi : List Block} {b u : Nat}

/-- The sentinel stays where it is. -/
theorem Site.shape (h : Site e fs b u lo f hi) (r : Nat × List Block) :
    ∃ fs', lo ++ joinLo f b r = e :: fs' := by
  cases lo with
  | nil =>
    have hsent : e = f := (List.cons.inj h.split).1
    have hne : ¬ f.1 + 16 * f.2 = b := by
      rw [← hsent, h.sentinel]
      exact Nat.ne_of_lt h.inside
    rw [joinLo, if_neg hne, ← hsent]
    exact ⟨_, rfl⟩
  | cons g lo =>
    have hsent : e = g := (List.cons.inj h.split).1
    rw [← hsent]
    exact ⟨_, rfl⟩

theorem Site.positive (h : Site e fs b u lo f hi) {g : Block} (hg : g ∈ lo ++ f :: hi)
    (hne : g ≠ e) : 0 < g.2 := by
  rw [← h.split] at hg
  exact h.units g ((List.mem_cons.mp hg).resolve_left hne)

theorem Site.joined (h : Site e fs b u lo f hi) :
    JoinedHi b u hi (joinHi b u hi) ∧
      JoinedLo f b (joinHi b u hi) (joinLo f b (joinHi b u hi)) := by
  have hhi := joinHi_spec h.gapsHi h.right
  exact ⟨hhi, joinLo_spec h.left h.before (h.gapsHi.sublist hhi.sublist) hhi.gap⟩

theorem Site.gaps (h : Site e fs b u lo f hi) : Gaps (lo ++ joinLo f b (joinHi b u hi)) := by
  obtain ⟨-, hlo⟩ := h.joined
  refine List.pairwise_append.mpr ⟨h.gapsLo, hlo.gaps, ?_⟩
  intro g hg k hk
  have hgf := h.lower g hg
  have hfk := hlo.first k hk
  omega

theorem Site.hi_mem (h : Site e fs b u lo f hi) {g : Block} (hg : g ∈ (joinHi b u hi).2) :
    g ∈ hi ∧ b < g.1 := by
  have hmem := h.joined.1.sublist.subset hg
  have hle := h.right g hmem
  have hu := h.unit
  exact ⟨hmem, by omega⟩

theorem Site.merged (h : Site e fs b u lo f hi) {fs' : List Block}
    (hshape : lo ++ joinLo f b (joinHi b u hi) = e :: fs') : Merged fs b u fs' := by
  obtain ⟨hhi, hlo⟩ := h.joined
  have hgaps := h.gaps
  rw [hshape] at hgaps
  have hne : ∀ g ∈ fs', g ≠ e := by
    intro g hg heq
    have hlt := (List.pairwise_cons.mp hgaps).1 g hg
    rw [heq] at hlt
    omega
  constructor
  · intro x
    have hnew : Covers (e :: fs') x ↔ Covers (lo ++ joinLo f b (joinHi b u hi)) x := by
      rw [hshape]
    have hold : Covers (e :: fs) x ↔ Covers (lo ++ f :: hi) x := by rw [h.split]
    have hsent : ¬ (e.1 ≤ x ∧ x < e.1 + 16 * e.2) := by
      rw [h.sentinel]
      omega
    rw [covers_cons, covers_append, hlo.covers, hhi.covers] at hnew
    rw [covers_cons, covers_append, covers_cons] at hold
    rw [or_iff_right hsent] at hnew hold
    rw [hnew, hold]
    simp only [or_comm, or_left_comm]
  · have hnew : total (e :: fs') = total (lo ++ joinLo f b (joinHi b u hi)) := by rw [hshape]
    have hold : total (e :: fs) = total (lo ++ f :: hi) := by rw [h.split]
    simp only [total_cons, total_append, hlo.units, hhi.units] at hnew hold
    omega
  · have hnew := congrArg List.length hshape
    have hold := congrArg List.length h.split
    have hlength := hlo.length
    have hshorter := hhi.sublist.length_le
    simp only [List.length_append, List.length_cons] at hnew hold
    omega
  · intro g hg
    have hmem : g ∈ lo ++ joinLo f b (joinHi b u hi) := by
      rw [hshape]
      exact List.mem_cons_of_mem e hg
    rcases List.mem_append.mp hmem with hmem | hmem
    · exact h.positive (List.mem_append_left _ hmem) (hne g hg)
    · have hlater : ∀ k ∈ (joinHi b u hi).2, 0 < k.2 := by
        intro k hk
        obtain ⟨hkhi, hbk⟩ := h.hi_mem hk
        refine h.positive (by simp [hkhi]) ?_
        intro heq
        have hin := h.inside
        rw [heq] at hbk
        omega
      rcases hlo.pos (Nat.lt_of_lt_of_le h.unit hhi.more) hlater g hmem with heq | hpos
      · exact h.positive (by simp [heq]) (hne g hg)
      · exact hpos
  · obtain ⟨g, hg, hle⟩ := hlo.large
    have hmem : g ∈ e :: fs' := by
      rw [← hshape]
      exact List.mem_append_right lo hg
    have hmore := hhi.more
    have hu := h.unit
    refine ⟨g, (List.mem_cons.mp hmem).resolve_left ?_, Nat.le_trans hmore hle⟩
    intro heq
    rw [heq, h.sentinel] at hle
    omega

/-- The two tests of `free` link the list anew and join the sizes. -/
theorem FreeList.join {h : Heap} (hlist : FreeList h fs) (hsite : Site (h.base, 0) fs b u lo f hi)
    (hsize : (h.size b).toNat = u) (hfit : touching fs b u < 2 ^ 32) :
    LinkedPrev (h.joinNext b f.1) f b (joinHi b u hi) ((h.joinNext b f.1).joinPrev b f.1) ∧
      LinkedNext h b u hi (h.joinNext b f.1) := by
  have hjoined := joined_le_touching (b := b) (u := u) hsite.split rfl
  have hsizes := hlist.sizes
  have hcycle := hlist.cycle
  rw [hsite.split] at hsizes hcycle
  rw [List.map_append, List.map_cons] at hcycle
  have hnext := joinNext_spec (f := f) hsite.inside hsize (leads_append_cons.mp hcycle).2
    (fun g hg => hsizes g (by simp [hg])) (by omega)
  refine ⟨?_, hnext⟩
  have hbase : (h.joinNext b f.1).base = h.base := by rw [hnext.rest]
  refine joinPrev_spec hsite.before ?_ hnext.size ?_ ?_ ?_ (by omega)
  · rw [hnext.sizes f.1 (Nat.ne_of_lt hsite.before)]
    exact hsizes f (by simp)
  · rw [hbase]
    apply hnext.leads.congr
    intro x hx
    obtain ⟨g, hg, rfl⟩ := List.mem_map.mp hx
    exact hnext.ptrs g.1 (Nat.ne_of_gt (hsite.hi_mem hg).2)
  · intro g hg
    obtain ⟨hmem, hbg⟩ := hsite.hi_mem hg
    rw [hnext.sizes g.1 (Nat.ne_of_gt hbg)]
    exact hsizes g (by simp [hmem])
  · intro g hg
    exact Nat.lt_trans hsite.before (hsite.hi_mem hg).2

end Site

/-! ## What free does -/

/-- The search of `free` ends at the block before `b`. -/
theorem FreeList.seek_place {h : Heap} {fs lo hi : List Block} {f : Block} {b u : Nat}
    (hlist : FreeList h fs) (hsite : Site (h.base, 0) fs b u lo f hi)
    (hbound : fs.length ≤ h.inserts) :
    seek h.ptr (h.place b) (h.inserts + 1) h.freep = some f.1 := by
  have hmap : ((h.base, 0) :: fs).map Prod.fst = h.base :: fs.map Prod.fst := rfl
  have hcycle := hlist.cycle
  have hsorted := hlist.gaps.sorted
  rw [hmap] at hcycle hsorted
  have hall : ∀ r ∈ h.base :: fs.map Prod.fst, r ≤ f.1 ∨ b < r := by
    intro r hr
    rw [← hmap, hsite.split] at hr
    obtain ⟨g, hg, rfl⟩ := List.mem_map.mp hr
    rcases List.mem_append.mp hg with hg | hg
    · have hlt := hsite.lower g hg
      exact Or.inl (by omega)
    · rcases List.mem_cons.mp hg with hg | hg
      · rw [hg]
        exact Or.inl (Nat.le_refl f.1)
      · have hle := hsite.right g hg
        have hu := hsite.unit
        exact Or.inr (by omega)
  have hfmem : f.1 ∈ h.base :: fs.map Prod.fst := by
    rw [← hmap, hsite.split]
    simp
  have hplace := (place_iff hcycle hsorted hsite.inside hfmem).mpr ⟨hsite.before, hall⟩
  have hlength : (h.base :: fs.map Prod.fst).length ≤ h.inserts + 1 := by
    simpa using hbound
  obtain ⟨q, hq, hqplace, hfound, -⟩ :=
    seek_of_cycle hcycle (hsorted.imp fun hab => Nat.ne_of_lt hab) hlist.start
      ⟨f.1, hfmem, hplace⟩ hlength
  obtain ⟨hqb, hqall⟩ := (place_iff hcycle hsorted hsite.inside hq).mp hqplace
  -- both are the last block before `b`
  have heq : q = f.1 := by
    have hfb := hsite.before
    rcases hqall f.1 hfmem with hle | hlt
    · rcases hall q hq with hle' | hlt'
      · exact Nat.le_antisymm hle' hle
      · omega
    · omega
  rw [hfound, heq]

/-- The block `b` of `u` units is put on the free list. -/
structure Inserted (h : Heap) (fs : List Block) (b u : Nat) (h' : Heap) (fs' : List Block) :
    Prop where
  list : FreeList h' fs'
  merged : Merged fs b u fs'
  sizes : ∀ x, x ≠ b → x ∉ ((h.base, 0) :: fs).map Prod.fst → h'.size x = h.size x
  rest : h' = { h with
    ptr := h'.ptr, size := h'.size, freep := h'.freep, inserts := h.inserts + 1 }

/-- `free` on a block that overlaps no free block, unless the joined size overflows. -/
theorem FreeList.insertFree {h : Heap} {fs : List Block} {b u : Nat} (hlist : FreeList h fs)
    (hunits : ∀ g ∈ fs, 0 < g.2) (hb : h.base < b) (hsize : (h.size b).toNat = u) (hu : 0 < u)
    (hapart : ∀ g ∈ fs, g.1 + 16 * g.2 ≤ b ∨ b + 16 * u ≤ g.1)
    (hbound : fs.length ≤ h.inserts) (hfit : touching fs b u < 2 ^ 32) :
    ∃ h' fs', h.insertFree b = some h' ∧ Inserted h fs b u h' fs' := by
  obtain ⟨lo, f, hi, hsite⟩ := hlist.gaps.site rfl hb hu hunits hapart
  obtain ⟨fs', hshape⟩ := hsite.shape (joinHi b u hi)
  obtain ⟨hprev, hnext⟩ := hlist.join hsite hsize hfit
  have hgaps := hsite.gaps
  have hcycle := hlist.cycle
  have hsizes := hlist.sizes
  rw [hsite.split] at hsizes hcycle
  rw [List.map_append, List.map_cons] at hcycle
  have hfound := hlist.seek_place hsite hbound
  refine ⟨_, fs', by rw [Heap.insertFree, hfound]; rfl, ?_, hsite.merged hshape, ?_, ?_⟩
  · have hbase1 : (h.joinNext b f.1).base = h.base := by rw [hnext.rest]
    have hbase2 : ((h.joinNext b f.1).joinPrev b f.1).base = h.base := by
      rw [hprev.rest]
      exact hbase1
    have hlo : ∀ g ∈ lo, g.1 ≠ f.1 ∧ g.1 ≠ b := by
      intro g hg
      have hlt := hsite.lower g hg
      have hfb := hsite.before
      omega
    constructor
    · simp only [hbase2]
      rw [← hshape, List.map_append]
      refine leads_append.mpr ⟨f.1, ?_, hbase1 ▸ hprev.leads⟩
      apply (leads_append_cons.mp hcycle).1.congr
      intro x hx
      obtain ⟨g, hg, rfl⟩ := List.mem_map.mp hx
      exact (hprev.ptrs g.1 (hlo g hg).1).trans (hnext.ptrs g.1 (hlo g hg).2)
    · simp only [hbase2]
      rw [← hshape]
      intro g hg
      rcases List.mem_append.mp hg with hg | hg
      · rw [hprev.others g.1 (hlo g hg).1, hnext.sizes g.1 (hlo g hg).2]
        exact hsizes g (by simp [hg])
      · exact hprev.sizes g hg
    · simp only [hbase2]
      rw [← hshape]
      exact hgaps
    · simp only [hbase2]
      rw [← hshape, List.map_append]
      apply List.mem_append_right
      unfold joinLo
      split_ifs <;> simp
  · intro x hxb hxmem
    have hxf : x ≠ f.1 := by
      intro heq
      rw [hsite.split, heq] at hxmem
      exact hxmem (by simp)
    exact (hprev.others x hxf).trans (hnext.sizes x hxb)
  · simp only [Heap.joinPrev, Heap.joinNext]
    split_ifs <;> rfl

/-! ## What malloc does -/

section Malloc

variable {h : Heap} {fs : List Block} {nunits : UInt32}

variable (nunits) in
/-- The search of `malloc` ends before a block that is large enough, or there is none. -/
theorem FreeList.search (hlist : FreeList h fs) (hbound : fs.length ≤ h.inserts) :
    ∃ q ∈ ((h.base, 0) :: fs).map Prod.fst, h.search nunits = some q ∧
      (nunits ≤ h.size (h.ptr q) ∨ ∀ f ∈ fs, f.2 < nunits.toNat) := by
  have hlength : (((h.base, 0) :: fs).map Prod.fst).length ≤ h.inserts + 1 := by
    simpa using hbound
  obtain ⟨p, hp, hnext⟩ := hlist.cycle.exists_before hlist.start
  have hexists : ∃ q ∈ ((h.base, 0) :: fs).map Prod.fst,
      (decide (nunits ≤ h.size (h.ptr q)) || h.ptr q == h.freep) = true :=
    ⟨p, hp, by simp [hnext]⟩
  obtain ⟨q, hq, hstop, hfound, honly⟩ :=
    seek_of_cycle hlist.cycle hlist.gaps.nodup hlist.start hexists hlength
  refine ⟨q, hq, hfound, ?_⟩
  by_cases hlarge : nunits ≤ h.size (h.ptr q)
  · exact Or.inl hlarge
  · right
    have hlast : h.ptr q = h.freep := by simpa [hlarge] using hstop
    intro f hf
    by_contra hge
    -- the block before `f` would be a place to stop, so it is `q`
    obtain ⟨r, hr, hrf⟩ := hlist.cycle.exists_before
      (List.mem_map_of_mem (List.mem_cons_of_mem _ hf))
    have hfsize := hlist.sizes f (List.mem_cons_of_mem _ hf)
    have hflarge : nunits ≤ h.size (h.ptr r) := by
      rw [hrf, UInt32.le_iff_toNat_le, hfsize]
      omega
    have hrq := honly hlast r hr (by simp [hflarge])
    rw [hrq] at hflarge
    exact hlarge hflarge

/-- The block `a` of `n` units is taken from the free list. -/
structure TakenFrom (h : Heap) (fs : List Block) (n bytes : Nat) (h' : Heap)
    (fs' : List Block) (a : Nat) : Prop where
  list : FreeList h' fs'
  covers : ∀ x, Covers fs x ↔ Covers fs' x ∨ (a ≤ x ∧ x < a + 16 * n)
  apart : ∀ x, Covers fs' x → ¬ (a ≤ x ∧ x < a + 16 * n)
  total : total fs = total fs' + n
  length : fs'.length ≤ fs.length
  units : ∀ f ∈ fs', 0 < f.2
  size : (h'.size a).toNat = n
  sizes : ∀ x, x ≠ a → x ∉ fs.map Prod.fst → h'.size x = h.size x
  rest : h' = { h with
    ptr := h'.ptr, size := h'.size, freep := h'.freep, live := h.live ++ [⟨a, n, bytes⟩] }

/-- The block behind `q` on the free list. -/
theorem FreeList.behind (hlist : FreeList h fs) {q : Nat}
    (hq : q ∈ ((h.base, 0) :: fs).map Prod.fst) (hne : h.ptr q ≠ h.base) :
    ∃ lo g f hi, (h.base, 0) :: fs = lo ++ g :: f :: hi ∧ g.1 = q ∧ f.1 = h.ptr q := by
  obtain ⟨g, hg, hgq⟩ := List.mem_map.mp hq
  obtain ⟨lo, rest, hsplit⟩ := List.append_of_mem hg
  have hcycle := hlist.cycle
  rw [hsplit, List.map_append, List.map_cons] at hcycle
  have hnext := (leads_append_cons.mp hcycle).2.start_eq
  rw [hgq] at hnext
  cases rest with
  | nil => exact absurd hnext hne
  | cons f hi => exact ⟨lo, g, f, hi, hsplit, hgq, hnext.symm⟩

/-- The blocks before and behind `f` without the sentinel. -/
theorem sentinel_split {e g f : Block} {fs lo hi : List Block}
    (hsplit : e :: fs = lo ++ g :: f :: hi) :
    ∃ pre, fs = pre ++ f :: hi ∧ lo ++ [g] = e :: pre := by
  cases lo with
  | nil =>
    obtain ⟨heg, hfs⟩ := List.cons.inj hsplit
    exact ⟨[], hfs, by rw [heg]; rfl⟩
  | cons c lo =>
    obtain ⟨hec, hfs⟩ := List.cons.inj hsplit
    refine ⟨lo ++ [g], ?_, by rw [hec]; rfl⟩
    rw [hfs, List.append_assoc]
    rfl

section Gaps

variable {pre hi : List Block} {f : Block}

/-- The other blocks lie before a block or behind it. -/
theorem Gaps.beside (hgaps : Gaps (pre ++ f :: hi)) {k : Block} (hk : k ∈ pre ++ hi) :
    k.1 + 16 * k.2 < f.1 ∨ f.1 + 16 * f.2 < k.1 := by
  obtain ⟨-, hfhi, hcross⟩ := List.pairwise_append.mp hgaps
  rcases List.mem_append.mp hk with hk | hk
  · exact Or.inl (hcross k hk f List.mem_cons_self)
  · exact Or.inr ((List.pairwise_cons.mp hfhi).1 k hk)

/-- The bytes of a block are in no other block. -/
theorem Gaps.apart (hgaps : Gaps (pre ++ f :: hi)) {x : Nat} (hcovers : Covers (pre ++ hi) x) :
    ¬ (f.1 ≤ x ∧ x < f.1 + 16 * f.2) := by
  obtain ⟨k, hk, hkx⟩ := hcovers
  rcases hgaps.beside hk with hlt | hlt <;> omega

/-- A block may get smaller. -/
theorem Gaps.shrink (hgaps : Gaps (pre ++ f :: hi)) {u : Nat} (hu : u ≤ f.2) :
    Gaps (pre ++ (f.1, u) :: hi) := by
  obtain ⟨hpre, hfhi, hcross⟩ := List.pairwise_append.mp hgaps
  obtain ⟨hf, hhi⟩ := List.pairwise_cons.mp hfhi
  refine List.pairwise_append.mpr ⟨hpre, List.pairwise_cons.mpr ⟨?_, hhi⟩, ?_⟩
  · intro k hk
    have hlt := hf k hk
    show f.1 + 16 * u < k.1
    omega
  · intro k hk j hj
    rcases List.mem_cons.mp hj with rfl | hj
    · exact hcross k hk f List.mem_cons_self
    · exact hcross k hk j (List.mem_cons_of_mem f hj)

/-- A block of the free list gets smaller, and the headers outside of it stay. -/
theorem FreeList.shrink {h h' : Heap} (hlist : FreeList h (pre ++ f :: hi)) {u : Nat}
    (hu : u ≤ f.2) (hbase : h'.base = h.base) (hptr : h'.ptr = h.ptr)
    (hf : (h'.size f.1).toNat = u)
    (hsize : ∀ a, a < f.1 ∨ f.1 + 16 * f.2 < a → h'.size a = h.size a)
    (hstart : h'.freep ∈ ((h.base, 0) :: (pre ++ f :: hi)).map Prod.fst) :
    FreeList h' (pre ++ (f.1, u) :: hi) := by
  have haddrs : ((h'.base, 0) :: (pre ++ (f.1, u) :: hi)).map Prod.fst =
      ((h.base, 0) :: (pre ++ f :: hi)).map Prod.fst := by
    rw [hbase]
    simp
  have hgaps : Gaps ((h.base, 0) :: pre ++ f :: hi) := hlist.gaps
  refine ⟨by rw [haddrs, hptr, hbase]; exact hlist.cycle, ?_, ?_, by rw [haddrs]; exact hstart⟩
  · have hother : ∀ k ∈ (h.base, 0) :: pre ++ hi, (h'.size k.1).toNat = k.2 := by
      intro k hk
      rw [hsize k.1 ((hgaps.beside hk).imp_left fun hlt => by omega)]
      refine hlist.sizes k ?_
      rcases List.mem_append.mp hk with hk | hk
      · exact List.mem_append_left (f :: hi) hk
      · exact List.mem_append_right ((h.base, 0) :: pre) (List.mem_cons_of_mem f hk)
    intro k hk
    rw [hbase, ← List.cons_append] at hk
    rcases List.mem_append.mp hk with hk | hk
    · exact hother k (List.mem_append_left hi hk)
    · rcases List.mem_cons.mp hk with rfl | hk
      · exact hf
      · exact hother k (List.mem_append_right _ hk)
  · rw [hbase]
    exact hgaps.shrink hu

end Gaps

/-- A block is taken whole: it is unlinked. -/
theorem FreeList.allocate_whole (hlist : FreeList h fs) (hunits : ∀ f ∈ fs, 0 < f.2)
    {lo hi : List Block} {g f : Block} (hsplit : (h.base, 0) :: fs = lo ++ g :: f :: hi)
    (hsize : h.size f.1 = nunits) (bytes : Nat) :
    ∃ fs', TakenFrom h fs nunits.toNat bytes (h.allocate nunits bytes g.1 f.1).1 fs' f.1 := by
  obtain ⟨pre, hfs, hpre⟩ := sentinel_split hsplit
  have hnew : (h.base, 0) :: (pre ++ hi) = lo ++ g :: hi := by
    rw [← List.cons_append, ← hpre, List.append_assoc]
    rfl
  have hsub : ((h.base, 0) :: (pre ++ hi)).Sublist ((h.base, 0) :: fs) := by
    rw [hfs]
    simp
  have hcycle := hlist.cycle
  have hdistinct := hlist.gaps.nodup
  rw [hsplit, List.map_append, List.map_cons] at hcycle hdistinct
  obtain ⟨hfirst, hsecond⟩ := leads_append_cons.mp hcycle
  have hother : ∀ x, x ∈ lo.map Prod.fst ∨ x ∈ hi.map Prod.fst → x ≠ g.1 := by
    intro x hx heq
    obtain ⟨-, hright, hcross⟩ := List.nodup_append.mp hdistinct
    rcases hx with hx | hx
    · exact hcross x hx g.1 List.mem_cons_self heq
    · rw [heq] at hx
      exact (List.nodup_cons.mp hright).1 (List.mem_cons_of_mem _ hx)
  have hf2 : f.2 = nunits.toNat := by
    rw [← hlist.sizes f (by rw [hsplit]; simp), hsize]
  refine ⟨pre ++ hi, ?_⟩
  simp only [Heap.allocate, if_pos hsize]
  refine ⟨⟨?_, ?_, hlist.gaps.sublist hsub, ?_⟩, ?_, ?_, ?_, ?_, ?_, ?_, fun x _ _ => rfl, rfl⟩
  · simp only
    rw [hnew, List.map_append, List.map_cons]
    refine leads_append_cons.mpr ⟨?_, ?_⟩
    · exact hfirst.congr fun x hx => Function.update_of_ne (hother x (Or.inl hx)) _ _
    · rw [Function.update_self]
      exact hsecond.2.congr fun x hx => Function.update_of_ne (hother x (Or.inr hx)) _ _
  · intro k hk
    exact hlist.sizes k (hsub.subset hk)
  · simp only
    rw [hnew]
    simp
  · intro x
    rw [hfs, ← hf2, covers_append, covers_cons, covers_append]
    simp only [or_assoc, or_comm]
  · intro x hx
    have hgaps := (List.pairwise_cons.mp hlist.gaps).2
    rw [hfs] at hgaps
    rw [← hf2]
    exact Gaps.apart hgaps hx
  · rw [hfs, ← hf2]
    simp only [total_append, total_cons]
    omega
  · rw [hfs]
    simp
  · intro k hk
    apply hunits
    rw [hfs]
    rcases List.mem_append.mp hk with hk | hk <;> simp [hk]
  · rw [hsize]

/-- The tail of a block is taken. -/
theorem FreeList.allocate_tail (hlist : FreeList h fs) (hunits : ∀ f ∈ fs, 0 < f.2)
    {lo hi : List Block} {g f : Block} (hsplit : (h.base, 0) :: fs = lo ++ g :: f :: hi)
    (hlarge : nunits < h.size f.1) (hpos : 0 < nunits.toNat) (bytes : Nat) :
    ∃ fs', TakenFrom h fs nunits.toNat bytes (h.allocate nunits bytes g.1 f.1).1 fs'
      (f.1 + 16 * (h.size f.1 - nunits).toNat) := by
  obtain ⟨pre, rfl, -⟩ := sentinel_split hsplit
  have hf2 : (h.size f.1).toNat = f.2 := hlist.sizes f (by rw [hsplit]; simp)
  have hlt : nunits.toNat < f.2 := by
    rw [← hf2]
    exact UInt32.lt_iff_toNat_lt.mp hlarge
  have hleft : (h.size f.1 - nunits).toNat = f.2 - nunits.toNat := by
    rw [UInt32.toNat_sub_of_le _ _ (UInt32.le_of_lt hlarge), hf2]
  have hne : ¬ h.size f.1 = nunits := by
    intro heq
    rw [← heq, hf2] at hlt
    exact Nat.lt_irrefl _ hlt
  have hgaps : Gaps (pre ++ f :: hi) := (List.pairwise_cons.mp hlist.gaps).2
  refine ⟨pre ++ (f.1, f.2 - nunits.toNat) :: hi, ?_⟩
  simp only [Heap.allocate, if_neg hne, hleft]
  refine ⟨hlist.shrink (Nat.sub_le _ _) rfl rfl ?_ ?_ ?_, ?_, ?_, ?_, ?_, ?_, ?_, ?_, rfl⟩
  · have hother : f.1 ≠ f.1 + 16 * (f.2 - nunits.toNat) := by omega
    simp only [Function.update_of_ne hother, Function.update_self]
    exact hleft
  · intro a ha
    simp only
    rw [Function.update_of_ne (by omega), Function.update_of_ne (by omega)]
  · simp only
    rw [hsplit]
    simp
  · intro x
    rw [covers_append, covers_cons, covers_append, covers_cons]
    have hunion : (f.1 ≤ x ∧ x < f.1 + 16 * f.2) ↔
        (f.1 ≤ x ∧ x < f.1 + 16 * (f.2 - nunits.toNat)) ∨
          (f.1 + 16 * (f.2 - nunits.toNat) ≤ x ∧
            x < f.1 + 16 * (f.2 - nunits.toNat) + 16 * nunits.toNat) := by
      omega
    rw [hunion]
    simp only [or_assoc, or_comm, or_left_comm]
  · intro x hx hin
    rw [covers_append, covers_cons] at hx
    have hwithin : f.1 ≤ x ∧ x < f.1 + 16 * f.2 := by omega
    rcases hx with hx | hx | hx
    · exact hgaps.apart (covers_append.mpr (Or.inl hx)) hwithin
    · simp only at hx
      omega
    · exact hgaps.apart (covers_append.mpr (Or.inr hx)) hwithin
  · simp only [total_append, total_cons]
    omega
  · simp
  · intro k hk
    rcases List.mem_append.mp hk with hk | hk
    · exact hunits k (List.mem_append_left _ hk)
    · rcases List.mem_cons.mp hk with rfl | hk
      · exact Nat.sub_pos_of_lt hlt
      · exact hunits k (List.mem_append_right _ (List.mem_cons_of_mem f hk))
  · simp only [Function.update_self]
  · intro x hxa hxmem
    have hxf : x ≠ f.1 := by
      rintro rfl
      exact hxmem (by simp)
    simp only [Function.update_of_ne hxa, Function.update_of_ne hxf]

/-- The block behind `q` is taken, or its tail. -/
theorem FreeList.allocate (hlist : FreeList h fs) (hunits : ∀ f ∈ fs, 0 < f.2) {q : Nat}
    (hq : q ∈ ((h.base, 0) :: fs).map Prod.fst) (hlarge : nunits ≤ h.size (h.ptr q))
    (hpos : 0 < nunits.toNat) (bytes : Nat) :
    ∃ h' a fs', h.allocate nunits bytes q (h.ptr q) = (h', a + 16) ∧
      TakenFrom h fs nunits.toNat bytes h' fs' a := by
  -- the sentinel has no units, so it is not the block that was found
  have hne : h.ptr q ≠ h.base := by
    intro heq
    have hzero : (h.size h.base).toNat = 0 := hlist.sizes (h.base, 0) List.mem_cons_self
    rw [heq, UInt32.le_iff_toNat_le] at hlarge
    omega
  obtain ⟨lo, g, f, hi, hsplit, rfl, hf⟩ := hlist.behind hq hne
  rw [← hf] at hlarge ⊢
  by_cases hsize : h.size f.1 = nunits
  · obtain ⟨fs', htaken⟩ := hlist.allocate_whole hunits hsplit hsize bytes
    refine ⟨_, f.1, fs', Prod.ext rfl ?_, htaken⟩
    simp only [Heap.allocate, if_pos hsize]
  · have hlt : nunits < h.size f.1 := by
      have hne' : (h.size f.1).toNat ≠ nunits.toNat := fun heq => hsize (UInt32.toNat.inj heq)
      rw [UInt32.le_iff_toNat_le] at hlarge
      rw [UInt32.lt_iff_toNat_lt]
      omega
    obtain ⟨fs', htaken⟩ := hlist.allocate_tail hunits hsplit hlt hpos bytes
    refine ⟨_, _, fs', Prod.ext rfl ?_, htaken⟩
    simp only [Heap.allocate, if_neg hsize]

/-- The list does not depend on other headers. -/
theorem FreeList.congr (hlist : FreeList h fs) {h' : Heap} (hbase : h'.base = h.base)
    (hfreep : h'.freep = h.freep)
    (hptr : ∀ x ∈ ((h.base, 0) :: fs).map Prod.fst, h'.ptr x = h.ptr x)
    (hsize : ∀ x ∈ ((h.base, 0) :: fs).map Prod.fst, h'.size x = h.size x) :
    FreeList h' fs := by
  constructor
  · rw [hbase]
    exact hlist.cycle.congr hptr
  · rw [hbase]
    intro f hf
    rw [hsize f.1 (List.mem_map_of_mem hf)]
    exact hlist.sizes f hf
  · rw [hbase]
    exact hlist.gaps
  · rw [hbase, hfreep]
    exact hlist.start

end Malloc

end Xv6.Umalloc
