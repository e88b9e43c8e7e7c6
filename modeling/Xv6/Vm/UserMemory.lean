import Xv6.Vm.Process
import Xv6.Vm.Spaces

/-!
# Virtual memory - The memory of a process

A process of size `sz` has the pages from `PGSIZE` up to `PGROUNDUP(sz)`: page 0 is never
mapped.  The module says what `allocuvm` and `deallocuvm` do to such a memory, and what
`growproc` makes of their results.

`growproc` takes the result 0 of both functions for a failure.  It is one of `allocuvm`,
but it is also the new size when a process gives all of its memory back, and the pages are
gone by then.

Main results:

- Theorem {lit}`PagesExact.size_le`: memory is smaller than physical memory.
- Theorems {lit}`allocuvm_grows`, {lit}`deallocuvm_shrinks`: the two functions.
- Theorem {lit}`growproc_exact_iff`: when `growproc` is exact or without effect.
- Theorem {lit}`freevm_frees_once`: the pages that `freevm` frees.
-/

namespace Xv6.Vm

open Foundations
open Ftable (ProcId)

/-! ## User memory -/

/-- The byte at a user address, if a page is present there. -/
def userByte (m : Machine) (root va : Nat) : Option UInt8 :=
  (view m root va).map fun x => x.2.byteAt (va % pgsize)

/-- The pages present in the user half are those from `PGSIZE` to `PGROUNDUP(sz)`. -/
def PagesExact (m : Machine) (root sz : Nat) : Prop :=
  ∀ va, va < 2 ^ 47 → (flat m root va ≠ none ↔ pgsize ≤ va ∧ va < pgroundup sz)

theorem pgroundup_of_le {sz : Nat} (h : sz ≤ 2 ^ 47) :
    pgroundup sz = (sz + 4095) / 4096 * 4096 := by
  unfold pgroundup pgsize
  rw [Nat.mod_eq_of_lt (by omega)]

/-- The pages that a loop from `PGROUNDUP(a)` to `b` goes through. -/
theorem pgrounddown_mem_pagesBelow {a b wa : Nat} (hb : b ≤ 2 ^ 47) :
    pgrounddown wa ∈ pagesBelow (pgroundup a) b ↔ pgroundup a ≤ wa ∧ wa < pgroundup b := by
  rw [mem_pagesBelow (pgroundup_mod a), pgroundup_of_le hb]
  have hmod := pgroundup_mod a
  unfold pgrounddown
  unfold pgsize at hmod ⊢
  omega

section Memory

variable {m m' : Machine} {root sz newsz : Nat} {E : VmStop → Prop}

theorem userByte_of_view {va : Nat} (h : view m' root va = view m root va) :
    userByte m' root va = userByte m root va := by
  unfold userByte
  rw [h]

theorem flat_ne_none_of_view {va : Nat} (h : view m' root va = view m root va) :
    flat m' root va ≠ none ↔ flat m root va ≠ none := by
  rw [ne_eq, ne_eq, ← view_eq_none, ← view_eq_none, h]

/-- There are fewer pages than physical memory has. -/
theorem PagesExact.size_le (hx : PagesExact m root sz) (h : Forest m [userTree root])
    (hsz : sz < kernbase) : sz ≤ phystop + pgsize := by
  by_contra hbad
  -- more pages than frames: two of them have the same one
  have hlarge : ∀ k < 57345, flat m root ((k + 1) * pgsize) ≠ none := by
    intro k hk
    refine (hx _ ?_).mpr ⟨?_, ?_⟩ <;> unfold pgroundup kernbase phystop pgsize at * <;> omega
  choose! e he using fun k hk => Option.ne_none_iff_exists'.mp (hlarge k hk)
  have hlt : ∀ k < 57345, (k + 1) * pgsize < 2 ^ 47 := by
    intro k hk
    unfold pgsize
    omega
  have hmaps : ∀ k ∈ Finset.range 57345, frame (e k) ∈ Finset.range 57344 := by
    intro k hk
    have hk := Finset.mem_range.mp hk
    have hok := h.ok _ (held_userTree.mpr (reaches_leaf (hlt k hk) (he k hk)))
    have htop := hok.2
    unfold phystop pgsize at htop
    exact Finset.mem_range.mpr (by omega)
  obtain ⟨i, hi, j, hj, hne, heq⟩ :=
    Finset.exists_ne_map_eq_of_card_lt_of_maps_to (by simp) hmaps
  have hi := Finset.mem_range.mp hi
  have hj := Finset.mem_range.mp hj
  have hpage := h.space.frame_inj (hlt i hi) (hlt j hj) (he i hi) (he j hj) heq
  unfold pgsize at hpage
  omega

/-- `allocuvm` adds zeroed pages at the end, or changes nothing. -/
theorem allocuvm_grows (h : Forest m [userTree root]) (hx : PagesExact m root sz)
    (hpos : 0 < sz) (hle : sz ≤ newsz) (htop : newsz ≤ 2 ^ 47) :
    wp (allocuvm root sz newsz)
      (fun r m' => Turns m m' [userTree root] [userTree root] ∧
        (r = 0 ∧ SameView m m' root ∨
          r = newsz ∧ PagesExact m' root newsz ∧
            ∀ va, va < 2 ^ 47 → if pgroundup sz ≤ va ∧ va < pgroundup newsz then
                ∃ f, view m' root va = some (userEntry f, Bytes.zero pgsize)
              else view m' root va = view m root va)) E m := by
  have hround := pgroundup_of_le (hle.trans htop)
  have hround' := pgroundup_of_le htop
  have hnone : ∀ a, a < 2 ^ 47 → pgroundup sz ≤ a → view m root a = none := by
    intro a ha hout
    rw [view_eq_none]
    by_contra hbad
    have hin := (hx a ha).mp hbad
    omega
  have hE : ∀ a ∈ pagesBelow (pgroundup sz) newsz, flat m root a ≠ none → E .remap := by
    intro a ha hbad
    have hin := (mem_pagesBelow (pgroundup_mod sz)).mp ha
    exact absurd (view_eq_none.mp (hnone a (by omega) (by omega))) hbad
  refine wp_mono (allocuvm_turns h (Or.inl htop) (hle.trans htop) hE) ?_ fun _ hbad => hbad
  rintro r m' ⟨ht, ⟨hr, hsame | hhides⟩ | ⟨_, hr, _, hadds⟩⟩
  · exact ⟨ht, Or.inl ⟨hr, hsame⟩⟩
  · refine ⟨ht, Or.inl ⟨hr, ?_⟩⟩
    intro va hva
    rw [hhides va hva]
    by_cases hin : pgrounddown va ∈ pagesBelow (pgroundup sz) newsz
    · rw [if_pos hin, hnone va hva ((pgrounddown_mem_pagesBelow htop).mp hin).1]
    · rw [if_neg hin]
  · have hview : ∀ va, va < 2 ^ 47 → if pgroundup sz ≤ va ∧ va < pgroundup newsz then
          ∃ f, view m' root va = some (userEntry f, Bytes.zero pgsize)
        else view m' root va = view m root va := by
      intro va hva
      have hva := hadds va hva
      simpa only [pgrounddown_mem_pagesBelow htop] using hva
    refine ⟨ht, Or.inr ⟨by omega, ?_, hview⟩⟩
    intro va hva
    have hcase := hview va hva
    have hold := hx va hva
    split at hcase
    case isTrue hin =>
      rcases hcase with ⟨f, hf⟩
      rw [ne_eq, ← view_eq_none, hf]
      unfold pgsize
      simp only [reduceCtorEq, not_false_eq_true, true_iff]
      omega
    case isFalse hout =>
      rw [flat_ne_none_of_view hcase, hold]
      omega

/-- `deallocuvm` takes pages away at the end. -/
theorem deallocuvm_shrinks (h : Forest m [userTree root]) (hlt : newsz < sz)
    (htop : sz ≤ 2 ^ 47) :
    wp (deallocuvm root sz newsz)
      (fun r m' => r = newsz ∧ Turns m m' [userTree root] [userTree root] ∧
        ∀ va, va < 2 ^ 47 → view m' root va =
          if pgroundup newsz ≤ va ∧ va < pgroundup sz then none else view m root va) E m := by
  refine wp_mono (deallocuvm_turns h hlt htop) ?_ fun _ hbad => hbad
  rintro r m' ⟨hr, ht, hhides⟩
  refine ⟨hr, ht, ?_⟩
  intro va hva
  rw [hhides va hva]
  simp only [pgrounddown_mem_pagesBelow htop]

end Memory

/-! ## The code of `growproc` -/

theorem Int64.pos_iff {n : Int64} : n > 0 ↔ 0 < n.toInt := by
  rw [gt_iff_lt, Int64.lt_iff_toInt_lt]
  rfl

theorem Int64.neg_iff {n : Int64} : n < 0 ↔ n.toInt < 0 := by
  rw [Int64.lt_iff_toInt_lt]
  rfl

section AddSigned

variable (sz : Nat) (n : Int64)

theorem addSigned_of_nonneg (h : 0 ≤ sz + n.toInt) (hlt : sz + n.toInt < 2 ^ 64) :
    (addSigned sz n : Int) = sz + n.toInt := by
  unfold addSigned
  rw [Int.emod_eq_of_lt h hlt, Int.toNat_of_nonneg h]

/-- A negative sum becomes a number in the upper half. -/
theorem addSigned_of_neg (h : sz + n.toInt < 0) : 2 ^ 63 ≤ addSigned sz n := by
  have hmin := Int64.le_toInt n
  unfold addSigned
  omega

end AddSigned

/-- The state after `growproc` stored a new size. -/
def Kernel.resized (s : Kernel) (p : ProcId) (m : Machine) (sz : Nat) : Kernel :=
  (Kernel.setMachine m s).setProc p { s.proc p with sz := sz }

section Growproc

variable {s s' : Kernel} {p : ProcId} {root : Nat} {n : Int64} {Q : Int → Kernel → Prop}
  {E : VmStop → Prop}

theorem wp_setSize {sz : Nat} (hpg : (s.proc p).pgdir = some root) :
    wp (setSize p sz) Q E s ↔ Q 0 (s.resized p s.machine sz) := by
  have hproc : ((s.setProc p { s.proc p with sz := sz }).proc p).pgdir = some root := by
    rw [Kernel.setProc_proc_self]
    exact hpg
  unfold setSize switchuvm
  simp only [wp_bind, wp_modify, wp_get, hproc, wp_pure]
  exact Iff.rfl

/-- What `growproc` does with the result of `allocuvm` or `deallocuvm`. -/
theorem wp_resize (code : Nat → VmM Nat) (hpg : (s.proc p).pgdir = some root) :
    wp (onPgdir p code >>= fun sz => if sz = 0 then pure (-1) else setSize p sz) Q E s ↔
      wp (code root) (fun r m => if r = 0 then Q (-1) (Kernel.setMachine m s)
        else Q 0 (s.resized p m r)) E s.machine := by
  have hiff : ∀ r m, (wp (if r = 0 then pure (-1) else setSize p r) Q E (Kernel.setMachine m s) ↔
      if r = 0 then Q (-1) (Kernel.setMachine m s) else Q 0 (s.resized p m r)) := by
    intro r m
    by_cases hr : r = 0
    · rw [if_pos hr, if_pos hr, wp_pure]
    · have hpg' : ((Kernel.setMachine m s).proc p).pgdir = some root := hpg
      rw [if_neg hr, if_neg hr, wp_setSize hpg']
      exact Iff.rfl
  unfold onPgdir onMemory
  simp only [wp_bind, wp_get, hpg, wp_zoom, hiff]

theorem wp_growproc_pos (hpg : (s.proc p).pgdir = some root) (hn : 0 < n.toInt) :
    wp (growproc p n) Q E s ↔
      wp (allocuvm root (s.proc p).sz (addSigned (s.proc p).sz n))
        (fun r m => if r = 0 then Q (-1) (Kernel.setMachine m s) else Q 0 (s.resized p m r)) E
        s.machine := by
  rw [← wp_resize (fun pgdir => allocuvm pgdir (s.proc p).sz (addSigned (s.proc p).sz n)) hpg]
  unfold growproc
  rw [wp_bind, wp_get]
  simp only [if_pos (Int64.pos_iff.mpr hn)]

theorem wp_growproc_neg (hpg : (s.proc p).pgdir = some root) (hn : n.toInt < 0) :
    wp (growproc p n) Q E s ↔
      wp (deallocuvm root (s.proc p).sz (addSigned (s.proc p).sz n))
        (fun r m => if r = 0 then Q (-1) (Kernel.setMachine m s) else Q 0 (s.resized p m r)) E
        s.machine := by
  have hpos : ¬n > 0 := by
    rw [Int64.pos_iff]
    omega
  rw [← wp_resize (fun pgdir => deallocuvm pgdir (s.proc p).sz (addSigned (s.proc p).sz n)) hpg]
  unfold growproc
  rw [wp_bind, wp_get]
  simp only [if_neg hpos, if_pos (Int64.neg_iff.mpr hn)]

theorem wp_growproc_zero (hpg : (s.proc p).pgdir = some root) (hn : n.toInt = 0) :
    wp (growproc p n) Q E s ↔ Q 0 (s.resized p s.machine (s.proc p).sz) := by
  have hpos : ¬n > 0 := by
    rw [Int64.pos_iff]
    omega
  have hneg : ¬n < 0 := by
    rw [Int64.neg_iff]
    omega
  unfold growproc
  rw [wp_bind, wp_get]
  simp only [if_neg hpos, if_neg hneg]
  exact wp_setSize hpg

end Growproc

/-! ## When `growproc` is exact -/

/-- A process with its page table and memory; the kernel stores no size from `KERNBASE` on. -/
structure UserProcess (s : Kernel) (p : ProcId) (root : Nat) : Prop where
  pgdir : (s.proc p).pgdir = some root
  forest : Forest s.machine [userTree root]
  pages : PagesExact s.machine root (s.proc p).sz
  size : (s.proc p).sz < kernbase

/-- What a process may expect of `growproc(n)` that returned `r`. -/
structure SbrkExact (s s' : Kernel) (p : ProcId) (root : Nat) (n : Int64) (r : Int) : Prop where
  result : r = 0 ∨ r = -1
  pgdir : (s'.proc p).pgdir = some root
  size : r = 0 → ((s'.proc p).sz : Int) = (s.proc p).sz + n.toInt
  pages : r = 0 → PagesExact s'.machine root (s'.proc p).sz
  kept : r = 0 → ∀ va, va < min (s.proc p).sz (s'.proc p).sz →
    userByte s'.machine root va = userByte s.machine root va
  zeroed : r = 0 → ∀ va, va < 2 ^ 47 → flat s.machine root va = none →
    flat s'.machine root va ≠ none → userByte s'.machine root va = some 0
  unchanged : r = -1 → (s'.proc p).sz = (s.proc p).sz ∧ ∀ va, va < 2 ^ 47 →
    (flat s'.machine root va ≠ none ↔ flat s.machine root va ≠ none) ∧
      userByte s'.machine root va = userByte s.machine root va

/-- `growproc(n)` returns and does what is expected. -/
def GrowsExactly (s : Kernel) (p : ProcId) (root : Nat) (n : Int64) : Prop :=
  wp (growproc p n) (fun r s' => SbrkExact s s' p root n r) (fun _ => False) s

/-- A process of size `sz` keeps a byte when it asks for `n`, and stays in the user half;
or it has no page to lose. -/
def SbrkSafe (sz : Nat) (n : Int64) : Prop :=
  n.toInt = 0 ∨ 0 < n.toInt ∧ 0 < sz ∧ sz + n.toInt ≤ 2 ^ 47 ∨
    n.toInt < 0 ∧ (0 < sz + n.toInt ∨ sz = 0 ∨ sz + n.toInt = 0 ∧ sz ≤ pgsize)

section Exact

variable {s s' : Kernel} {p : ProcId} {root : Nat} {n : Int64}

theorem UserProcess.size_le (h : UserProcess s p root) : (s.proc p).sz ≤ 2 ^ 47 := by
  have hle := h.pages.size_le h.forest h.size
  unfold phystop pgsize at hle
  omega

/-- Nothing changed and the call failed. -/
theorem SbrkExact.of_same {m : Machine} (h : UserProcess s p root)
    (hview : SameView s.machine m root) :
    SbrkExact s (Kernel.setMachine m s) p root n (-1) := by
  refine ⟨Or.inr rfl, h.pgdir, nofun, nofun, nofun, nofun, ?_⟩
  intro _
  refine ⟨rfl, ?_⟩
  intro va hva
  exact ⟨flat_ne_none_of_view (hview va hva), userByte_of_view (hview va hva)⟩

theorem growsExactly_zero (h : UserProcess s p root) (hn : n.toInt = 0) :
    GrowsExactly s p root n := by
  unfold GrowsExactly
  rw [wp_growproc_zero h.pgdir hn]
  have hsz : ((s.resized p s.machine (s.proc p).sz).proc p).sz = (s.proc p).sz := by
    simp [Kernel.resized]
  refine ⟨Or.inl rfl, ?_, ?_, ?_, ?_, ?_, nofun⟩
  · simp [Kernel.resized, h.pgdir]
  · intro _
    omega
  · intro _
    rw [hsz]
    exact h.pages
  · intro _ va _
    rfl
  · intro _ va _ hnone hsome
    exact absurd hnone hsome

/-- Growth inside the user half. -/
theorem growsExactly_pos (h : UserProcess s p root) (hn : 0 < n.toInt) (hpos : 0 < (s.proc p).sz)
    (htop : (s.proc p).sz + n.toInt ≤ 2 ^ 47) : GrowsExactly s p root n := by
  have hsum := addSigned_of_nonneg (s.proc p).sz n (by omega) (by omega)
  have hle := h.size_le
  unfold GrowsExactly
  rw [wp_growproc_pos h.pgdir hn]
  refine wp_mono (allocuvm_grows h.forest h.pages hpos (by omega) (by omega)) ?_ fun _ hbad => hbad
  rintro r m ⟨_, ⟨rfl, hview⟩ | ⟨rfl, hpages, hview⟩⟩
  · rw [if_pos rfl]
    exact SbrkExact.of_same h hview
  · rw [if_neg (by omega)]
    have hround := le_pgroundup hle
    have hkept : ∀ va, va < 2 ^ 47 → va < pgroundup (s.proc p).sz →
        view m root va = view s.machine root va := by
      intro va hva hlt
      have hcase := hview va hva
      rwa [if_neg (by omega)] at hcase
    refine ⟨Or.inl rfl, ?_, ?_, ?_, ?_, ?_, nofun⟩
    · simp [Kernel.resized, h.pgdir]
    · intro _
      simp [Kernel.resized, hsum]
    · intro _
      simpa [Kernel.resized] using hpages
    · intro _ va hva
      have hva : va < (s.proc p).sz := by omega
      exact userByte_of_view (hkept va (by omega) (by omega))
    · intro _ va hva hnone hsome
      change flat m root va ≠ none at hsome
      change userByte m root va = some 0
      have hcase := hview va hva
      split at hcase
      case isTrue =>
        rcases hcase with ⟨f, hf⟩
        simp [userByte, hf]
      case isFalse =>
        exact absurd hnone ((flat_ne_none_of_view hcase).mp hsome)

/-- Giving memory back, and keeping some. -/
theorem growsExactly_neg (h : UserProcess s p root) (hn : n.toInt < 0)
    (hpos : 0 < (s.proc p).sz + n.toInt) : GrowsExactly s p root n := by
  have hle := h.size_le
  have hsum := addSigned_of_nonneg (s.proc p).sz n (by omega) (by omega)
  unfold GrowsExactly
  rw [wp_growproc_neg h.pgdir hn]
  refine wp_mono (deallocuvm_shrinks h.forest (by omega) hle) ?_ fun _ hbad => hbad
  rintro r m ⟨rfl, _, hview⟩
  rw [if_neg (by omega)]
  generalize hnew : addSigned (s.proc p).sz n = newsz at *
  have hround := le_pgroundup (show newsz ≤ 2 ^ 47 by omega)
  refine ⟨Or.inl rfl, ?_, ?_, ?_, ?_, ?_, nofun⟩
  · simp [Kernel.resized, h.pgdir]
  · intro _
    simp [Kernel.resized, hsum]
  · intro _ va hva
    have hold := h.pages va hva
    have hcase := hview va hva
    have hround := pgroundup_of_le hle
    have hround' := pgroundup_of_le (show newsz ≤ 2 ^ 47 by omega)
    simp only [Kernel.resized, Kernel.setProc_machine, Kernel.setMachine_machine,
      Kernel.setProc_proc_self]
    split at hcase
    case isTrue hin =>
      rw [ne_eq, ← view_eq_none, hcase]
      simp only [not_true_eq_false, false_iff]
      omega
    case isFalse hout =>
      rw [flat_ne_none_of_view hcase, hold]
      omega
  · intro _ va hva
    have hva : va < newsz := by
      simp only [Kernel.resized, Kernel.setProc_proc_self] at hva
      omega
    have hcase := hview va (by omega)
    rw [if_neg (by omega)] at hcase
    exact userByte_of_view hcase
  · intro _ va hva hnone hsome
    change flat m root va ≠ none at hsome
    have hcase := hview va hva
    split at hcase
    case isTrue =>
      exact absurd (view_eq_none.mp hcase) hsome
    case isFalse =>
      exact absurd hnone ((flat_ne_none_of_view hcase).mp hsome)

/-- A request below zero: `deallocuvm` takes the sum for a large size. -/
theorem wp_growproc_below (h : UserProcess s p root) (hneg : (s.proc p).sz + n.toInt < 0)
    {Q : Int → Kernel → Prop} {E : VmStop → Prop} :
    wp (growproc p n) Q E s ↔
      if (s.proc p).sz = 0 then Q (-1) s else Q 0 (s.resized p s.machine (s.proc p).sz) := by
  have hlarge := addSigned_of_neg _ _ hneg
  have hle := h.size_le
  rw [wp_growproc_neg h.pgdir (by omega)]
  unfold deallocuvm
  rw [if_pos (by omega), wp_pure]
  exact Iff.rfl

/-- A request for all of the memory: all pages go, and the call fails. -/
theorem growproc_all (h : UserProcess s p root) (hpos : 0 < (s.proc p).sz)
    (hall : (s.proc p).sz + n.toInt = 0) {E : VmStop → Prop} :
    wp (growproc p n) (fun r s' => r = -1 ∧ s' = Kernel.setMachine s'.machine s ∧
      ∀ va, va < 2 ^ 47 → view s'.machine root va = none) E s := by
  have hle := h.size_le
  have hsum := addSigned_of_nonneg (s.proc p).sz n (by omega) (by omega)
  have hzero : addSigned (s.proc p).sz n = 0 := by omega
  rw [wp_growproc_neg h.pgdir (by omega), hzero]
  refine wp_mono (deallocuvm_shrinks h.forest hpos hle) ?_ fun _ hbad => hbad
  rintro r m ⟨rfl, _, hview⟩
  rw [if_pos rfl]
  refine ⟨rfl, rfl, ?_⟩
  intro va hva
  change view m root va = none
  rw [hview va hva]
  have hround : pgroundup 0 = 0 := by decide
  by_cases hin : va < pgroundup (s.proc p).sz
  · rw [if_pos (by omega)]
  · rw [if_neg (by omega), view_eq_none]
    by_contra hbad
    exact hin ((h.pages va hva).mp hbad).2

/-- A request for all of the memory fails and has an effect. -/
theorem not_growsExactly_all (h : UserProcess s p root) (hlarge : pgsize < (s.proc p).sz)
    (hall : (s.proc p).sz + n.toInt = 0) : ¬GrowsExactly s p root n := by
  intro hexact
  have hround := pgroundup_of_le h.size_le
  -- the page at `PGSIZE` was present
  have hpage : flat s.machine root pgsize ≠ none := by
    refine (h.pages _ (by decide)).mpr ?_
    unfold pgsize at *
    omega
  have hboth := wp_and (growproc_all h (by omega) hall) hexact
  obtain ⟨r, s', _, ⟨rfl, _, hview⟩, hr⟩ := wp_never.mp hboth
  have hgone := view_eq_none.mp (hview pgsize (by decide))
  exact (((hr.unchanged rfl).2 pgsize (by decide)).1.mpr hpage) hgone

end Exact

/-- `growproc(n)` does what is expected if the process keeps a byte and stays in the user
half, or has no page to lose; and for sizes in the user half, only then. -/
theorem growproc_exact_iff (s : Kernel) (p : ProcId) (root : Nat) (n : Int64)
    (h : UserProcess s p root) :
    (SbrkSafe (s.proc p).sz n → GrowsExactly s p root n) ∧
      (0 < (s.proc p).sz → (s.proc p).sz + n.toInt ≤ 2 ^ 47 → GrowsExactly s p root n →
        SbrkSafe (s.proc p).sz n) := by
  constructor
  · rintro (hn | ⟨hn, hpos, htop⟩ | ⟨hn, hpos | hzero | ⟨hall, hsmall⟩⟩)
    · exact growsExactly_zero h hn
    · exact growsExactly_pos h hn hpos htop
    · exact growsExactly_neg h hn hpos
    · unfold GrowsExactly
      rw [wp_growproc_below h (by omega), if_pos hzero]
      exact SbrkExact.of_same h SameView.refl
    · -- all of the memory is given back, but it has no page
      refine wp_mono (growproc_all h (by omega) hall) ?_ fun _ hbad => hbad
      rintro r s' ⟨rfl, hs', hview⟩
      rw [hs']
      refine SbrkExact.of_same h ?_
      intro va hva
      have hround := pgroundup_of_le h.size_le
      rw [hview va hva, eq_comm, view_eq_none]
      by_contra hbad
      have hin := (h.pages va hva).mp hbad
      unfold pgsize at *
      omega
  · intro hpos htop hexact
    rcases lt_trichotomy n.toInt 0 with hn | hn | hn
    · refine Or.inr (Or.inr ⟨hn, ?_⟩)
      rcases lt_trichotomy ((s.proc p).sz + n.toInt) 0 with hsum | hsum | hsum
      · -- the call returns 0 and the size stays
        unfold GrowsExactly at hexact
        rw [wp_growproc_below h hsum, if_neg (by omega)] at hexact
        have hsize := hexact.size rfl
        simp only [Kernel.resized, Kernel.setProc_proc_self] at hsize
        omega
      · refine Or.inr (Or.inr ⟨hsum, ?_⟩)
        by_contra hlarge
        exact not_growsExactly_all h (by omega) hsum hexact
      · exact Or.inl hsum
    · exact Or.inl hn
    · exact Or.inr (Or.inl ⟨hn, hpos, htop⟩)

/-! ### A process with one page -/

/-- What a run returns. -/
def resultOf {σ ε α : Type} (x : Exec σ ε α) (s : σ) : Option α :=
  match x s with
  | .ok (a, _) => some a
  | .error _ => none

theorem resultOf_of_ok {σ ε α : Type} {x : Exec σ ε α} {s t : σ} {a : α}
    (h : x s = .ok (a, t)) : resultOf x s = some a := by
  unfold resultOf
  rw [h]

/-- A zeroed entry of the process table. -/
def blankProcess : Process where
  sz := 0
  pgdir := none
  kstack := none
  state := .unused
  pid := 0
  parent := none
  tf := ⟨0, 0, 0, 0, 0, 0, 0, 0, 0, 0, 0, 0, 0, 0, 0, 0, 0, 0, 0, 0, 0, 0⟩
  ofile _ := none
  cwd := none
  isProcess := false
  name := Bytes.zero 16

/-- A kernel with one process, whose page table is in page 1. -/
def oneProcess (m : Machine) (sz : Nat) : Kernel where
  machine := m
  proc p := if p = Ftable.initproc then
      { blankProcess with
        sz := sz, pgdir := some 1, state := .running, pid := 1, cwd := some ⟨0, ninode_pos⟩
        isProcess := true }
    else blankProcess
  nextpid := 2
  file _ := ⟨.none, 0, false, false, 0, 0, 0⟩
  inodeRef _ := 1

theorem emptySpace_forest : Forest emptySpace [userTree 1] := by
  refine Forest.of_space emptySpace_space rfl ?_
  rintro g ⟨p, _, hp⟩
  rw [(emptySpace_nodeAt hp).2]
  decide

/-- The empty table is the memory of a process of size `PGSIZE`. -/
theorem emptySpace_pages : PagesExact emptySpace 1 pgsize := by
  intro va _
  have hround : pgroundup pgsize = pgsize := by decide
  rw [emptySpace_flat, hround]
  simp only [ne_eq, not_true_eq_false, false_iff]
  omega

/-- `allocuvm` makes a process of size `sz` of it, if that does not fail. -/
theorem exists_pages {sz : Nat} (hle : pgsize ≤ sz) (htop : sz ≤ 2 ^ 47)
    (hres : resultOf (allocuvm 1 pgsize sz) emptySpace = some sz) :
    ∃ r m, allocuvm 1 pgsize sz emptySpace = .ok (r, m) ∧
      UserProcess (oneProcess m sz) Ftable.initproc 1 := by
  have hgrow := allocuvm_grows (E := fun _ => False) emptySpace_forest emptySpace_pages
    (by decide) hle htop
  obtain ⟨r, m, hrun, ht, hr⟩ := wp_never.mp hgrow
  rw [resultOf_of_ok hrun, Option.some_inj] at hres
  have hpos : 0 < pgsize := by decide
  have hbase : 2 ^ 47 < kernbase := by decide
  rcases hr with ⟨hzero, _⟩ | ⟨_, hpages, _⟩
  · omega
  · exact ⟨r, m, hrun, rfl, ht.forest, hpages, show sz < kernbase by omega⟩

theorem exists_onePage : ∃ m, UserProcess (oneProcess m (2 * pgsize)) Ftable.initproc 1 := by
  obtain ⟨-, m, -, h⟩ := exists_pages (show pgsize ≤ 2 * pgsize by decide) (by decide)
    (by decide +kernel)
  exact ⟨m, h⟩

section OnePage

-- the statements below mention it, and must not be evaluated
attribute [local irreducible] growproc

/-- It may take another page. -/
theorem growproc_exact_page : ∃ m, UserProcess (oneProcess m (2 * pgsize)) Ftable.initproc 1 ∧
    GrowsExactly (oneProcess m (2 * pgsize)) Ftable.initproc 1 4096 := by
  rcases exists_onePage with ⟨m, h⟩
  have hsafe : SbrkSafe (2 * pgsize) 4096 := Or.inr (Or.inl (by decide))
  exact ⟨m, h, (growproc_exact_iff (oneProcess m (2 * pgsize)) Ftable.initproc 1 4096 h).1 hsafe⟩

/-- It loses its page when it asks to give back all of its memory, which fails. -/
theorem growproc_not_exact : ∃ m, UserProcess (oneProcess m (2 * pgsize)) Ftable.initproc 1 ∧
    ¬GrowsExactly (oneProcess m (2 * pgsize)) Ftable.initproc 1 (-8192) := by
  rcases exists_onePage with ⟨m, h⟩
  refine ⟨m, h, not_growsExactly_all h ?_ ?_⟩
  · change pgsize < 2 * pgsize
    decide
  · change ((2 * pgsize : Nat) : Int) + (-8192 : Int64).toInt = 0
    decide

end OnePage

/-! ## Giving all back -/

section Freed

attribute [local irreducible] freevm

/-- `freevm` puts each page of the user half on the free list once, and no other. -/
theorem freevm_frees_once (m : Machine) (root : Nat) (h : Forest m [userTree root]) :
    wp (freevm (some root)) (fun _ m' => ∃ L, m'.free = L ++ m.free ∧ L.Nodup ∧
      ∀ f, f ∈ L ↔ Reaches m.child root (UserPath 4) f) (fun _ => False) m := by
  refine wp_mono (freevm_returns h) ?_ fun _ hbad => hbad
  intro _ m' hreturns
  obtain ⟨L, hfree, hnodup, hmem⟩ := hreturns.freed h
  refine ⟨L, hfree, hnodup, ?_⟩
  intro f
  rw [hmem, held_userTree]

/-- A page table with a page. -/
theorem freevm_frees_once_onePage :
    ∃ m, flat m 1 pgsize ≠ none ∧ ∃ r m', freevm (some 1) m = .ok (r, m') ∧
      ∃ L, m'.free = L ++ m.free ∧ L.Nodup ∧
        ∀ f, f ∈ L ↔ Reaches m.child 1 (UserPath 4) f := by
  obtain ⟨m, h⟩ := exists_onePage
  refine ⟨m, ?_, wp_never.mp (freevm_frees_once m 1 h.forest)⟩
  exact (h.pages pgsize (by decide)).mpr
    ⟨Nat.le_refl _, show pgsize < pgroundup (2 * pgsize) by decide⟩

end Freed

end Xv6.Vm
