import Xv6.Vm.AddressSpace

/-!
# Virtual memory - The page table refines a flat map

What `mappages`, `deallocuvm` and `allocuvm` do to the partial map that a page table
stands for, for user addresses, those below `2^47`.  Tables may be made on the way, at
each of three levels, and each time the allocator may have nothing left.

Main results:

- Theorem {lit}`mappages_spec`: the pages of a range are mapped.
- Theorem {lit}`deallocuvm_spec`: the pages of a range are unmapped and given back.
- Theorem {lit}`allocuvm_spec`: a range is mapped, or the map is as before.
- Theorem {lit}`page_table_refines`: the three together with `walkpgdir`.
-/

namespace Xv6.Vm

open Foundations

section Specs

variable {root : Nat} {m m' : Machine} {E : VmStop → Prop}

/-! ## Addresses of pages -/

theorem pgrounddown_eq_iff {a wa : Nat} (ha : a % pgsize = 0) :
    pgrounddown wa = a ↔ wa / pgsize = a / pgsize := by
  unfold pgrounddown pgsize at *
  omega

/-- Different page boundaries are on different pages. -/
theorem eq_of_page_eq {a b : Nat} (ha : a % pgsize = 0) (hb : b % pgsize = 0)
    (h : a / pgsize = b / pgsize) : a = b := by
  unfold pgsize at *
  omega

theorem le_pgroundup {sz : Nat} (h : sz ≤ 2 ^ 47) : sz ≤ pgroundup sz := by
  unfold pgroundup pgsize
  omega

theorem pgroundup_mod (sz : Nat) : pgroundup sz % pgsize = 0 :=
  Nat.mul_mod_left _ _

theorem mem_pagesFrom {a n x : Nat} : x ∈ pagesFrom a n ↔ ∃ k < n, x = a + k * pgsize := by
  simp only [pagesFrom, List.mem_map, List.mem_range, eq_comm]

theorem mem_pagesBelow {a limit x : Nat} (ha : a % pgsize = 0) :
    x ∈ pagesBelow a limit ↔ x % pgsize = 0 ∧ a ≤ x ∧ x < limit := by
  unfold pagesBelow
  rw [mem_pagesFrom]
  unfold pgsize at *
  constructor
  · rintro ⟨k, hk, rfl⟩
    omega
  · rintro ⟨hx, hax, hlimit⟩
    exact ⟨(x - a) / 4096, by omega, by omega⟩

theorem pagesFrom_nodup (a n : Nat) : (pagesFrom a n).Nodup := by
  unfold pagesFrom
  refine List.Nodup.map ?_ List.nodup_range
  intro k l hkl
  unfold pgsize at hkl
  simp only at hkl
  omega

/-! ## Mapping -/

/-- The entry of `mappages` for the `k`-th page. -/
def mapEntry (pa perm : UInt64) (k : Nat) : UInt64 :=
  (pa + UInt64.ofNat (k * pgsize)) ||| perm ||| pteP

theorem mapEntry_succ (pa perm : UInt64) (k : Nat) :
    mapEntry (pa + 4096) perm k = mapEntry pa perm (k + 1) := by
  have hsum : UInt64.ofNat ((k + 1) * pgsize) = 4096 + UInt64.ofNat (k * pgsize) := by
    rw [Nat.add_mul, Nat.one_mul, Nat.add_comm, UInt64.ofNat_add]
    rfl
  rw [mapEntry, mapEntry, hsum, UInt64.add_assoc]

theorem mapEntry_zero (pa perm : UInt64) : mapEntry pa perm 0 = pa ||| perm ||| pteP := by
  have hzero : UInt64.ofNat (0 * pgsize) = 0 := rfl
  rw [mapEntry, hzero, UInt64.add_zero]

/-- One page, which may be any, is mapped. -/
theorem mapPage_spec {a : Nat} {pa perm : UInt64} (h : Space 3 m root) (ha : a < 2 ^ 47)
    (hnone : flat m root a = none) :
    wp (mapPage root a pa perm)
      (fun r m' => Space 3 m' root ∧ (r = -1 ∨ r = 0 ∧ ∀ wa, wa < 2 ^ 47 → flat m' root wa =
        if wa / pgsize = a / pgsize then some (pa ||| perm ||| pteP) else flat m root wa)) E m := by
  unfold mapPage
  refine wp_bind_of (walkpgdir_spec (le_refl 3) h ha) ?_
  rintro r m₁ ⟨hext, -, hr⟩
  cases r with
  | none => exact ⟨hext.space, Or.inl rfl⟩
  | some slot =>
    rcases slot with ⟨t, i⟩
    rcases hr t i rfl with ⟨ht, rfl⟩
    have hflat := hext.same a ha
    rw [hnone, flat_of_table ht] at hflat
    have hfree : ¬present (m₁.pte t (ptx a)) = true := by
      intro hbad
      rw [if_pos hbad] at hflat
      cases hflat
    simp only
    rw [wp_bind, wp_get, if_neg hfree, wp_bind, wp_modify, wp_pure]
    refine ⟨hext.space.setPte ha ht, Or.inr ⟨rfl, ?_⟩⟩
    intro wa hwa
    rw [flat_setPte hext.space ha hwa ht, present_or, if_pos rfl, hext.same wa hwa]

/-- `n + 1` pages from `a` on are mapped. -/
theorem mappagesLoop_spec {perm : UInt64} {n a : Nat} {pa : UInt64} (h : Space 3 m root)
    (ha : a % pgsize = 0) (hlt : a + n * pgsize < 2 ^ 47)
    (hnone : ∀ k ≤ n, flat m root (a + k * pgsize) = none) :
    wp (mappagesLoop root perm n a pa)
      (fun r m' => Space 3 m' root ∧ (r = 0 → ∀ wa, wa < 2 ^ 47 → flat m' root wa =
        if a / pgsize ≤ wa / pgsize ∧ wa / pgsize ≤ a / pgsize + n then
          some (mapEntry pa perm (wa / pgsize - a / pgsize))
        else flat m root wa)) E m := by
  have hfirst : flat m root a = none := by
    have hzero := hnone 0 (Nat.zero_le n)
    rwa [Nat.zero_mul, Nat.add_zero] at hzero
  induction n generalizing m a pa with
  | zero =>
    rw [mappagesLoop]
    refine wp_mono (mapPage_spec h (by omega) hfirst) ?_ fun _ he => he
    rintro r m₁ ⟨hspace, hr⟩
    refine ⟨hspace, ?_⟩
    rintro rfl wa hwa
    rcases hr with hbad | ⟨_, hflat⟩
    · cases hbad
    · rw [hflat wa hwa]
      by_cases hpage : wa / pgsize = a / pgsize
      · rw [if_pos hpage, if_pos (by omega), hpage, Nat.sub_self, mapEntry_zero]
      · rw [if_neg hpage, if_neg (by omega)]
  | succ n ih =>
    rw [mappagesLoop]
    refine wp_bind_of (mapPage_spec h (by omega) hfirst) ?_
    rintro r m₁ ⟨hspace, hr⟩
    rcases hr with rfl | ⟨rfl, hflat⟩
    · rw [if_pos (by decide), wp_pure]
      exact ⟨hspace, nofun⟩
    · rw [if_neg (by decide)]
      have hstep : (a + pgsize) % 2 ^ 64 = a + pgsize := by
        apply Nat.mod_eq_of_lt
        unfold pgsize at *
        omega
      have hnone₁ : ∀ k ≤ n, flat m₁ root (a + pgsize + k * pgsize) = none := by
        intro k hk
        have hold := hnone (k + 1) (by omega)
        have haddr : a + (k + 1) * pgsize = a + pgsize + k * pgsize := by
          rw [Nat.add_mul, Nat.one_mul]
          omega
        rw [haddr] at hold
        rw [hflat _ (by unfold pgsize at *; omega), if_neg (by unfold pgsize at *; omega), hold]
      have hfirst₁ : flat m₁ root (a + pgsize) = none := by
        have hzero := hnone₁ 0 (Nat.zero_le n)
        rwa [Nat.zero_mul, Nat.add_zero] at hzero
      rw [hstep]
      refine wp_mono (ih hspace (by unfold pgsize at *; omega) (by unfold pgsize at *; omega)
        hnone₁ hfirst₁) ?_ fun _ he => he
      rintro r m₂ ⟨hspace₂, hr⟩
      refine ⟨hspace₂, ?_⟩
      rintro rfl wa hwa
      have hnext : (a + pgsize) / pgsize = a / pgsize + 1 := Nat.add_div_right a (by decide)
      rw [hr rfl wa hwa, hnext]
      by_cases hrest : a / pgsize + 1 ≤ wa / pgsize ∧ wa / pgsize ≤ a / pgsize + 1 + n
      · have hindex : wa / pgsize - (a / pgsize + 1) + 1 = wa / pgsize - a / pgsize := by omega
        rw [if_pos hrest, if_pos (by omega), mapEntry_succ, hindex]
      · rw [if_neg hrest, hflat wa hwa]
        by_cases hpage : wa / pgsize = a / pgsize
        · rw [if_pos hpage, if_pos (by omega), hpage, Nat.sub_self, mapEntry_zero]
        · rw [if_neg hpage, if_neg (by omega)]

/-- `mappages` maps the pages of a range to consecutive pages from `pa` on. -/
theorem mappages_spec {va size : Nat} {pa perm : UInt64} (h : Space 3 m root)
    (hpos : 0 < va + size) (hrange : va / pgsize ≤ (va + size - 1) / pgsize)
    (htop : va + size ≤ 2 ^ 47)
    (hnone : ∀ wa, va / pgsize ≤ wa / pgsize → wa / pgsize ≤ (va + size - 1) / pgsize →
      flat m root wa = none) :
    wp (mappages root va size pa perm)
      (fun r m' => Space 3 m' root ∧ (r = 0 → ∀ wa, wa < 2 ^ 47 → flat m' root wa =
        if va / pgsize ≤ wa / pgsize ∧ wa / pgsize ≤ (va + size - 1) / pgsize then
          some (mapEntry pa perm (wa / pgsize - va / pgsize))
        else flat m root wa)) E m := by
  have hlast : (va + size + (2 ^ 64 - 1)) % 2 ^ 64 = va + size - 1 := by omega
  have hcount : (pgrounddown (va + size - 1) + (2 ^ 64 - pgrounddown va)) % 2 ^ 64 / pgsize =
      (va + size - 1) / pgsize - va / pgsize := by
    unfold pgrounddown pgsize at *
    omega
  have hpage : pgrounddown va / pgsize = va / pgsize := Nat.mul_div_cancel _ (by decide)
  unfold mappages
  simp only
  rw [hlast, hcount]
  refine wp_mono (mappagesLoop_spec h (Nat.mul_mod_left _ _) ?_ ?_) ?_ fun _ he => he
  · unfold pgrounddown pgsize at *
    omega
  · intro k hk
    have haddr : (pgrounddown va + k * pgsize) / pgsize = va / pgsize + k := by
      rw [Nat.add_mul_div_right _ _ (by decide), hpage]
    apply hnone
    · omega
    · omega
  · rintro r m₁ ⟨hspace, hr⟩
    refine ⟨hspace, ?_⟩
    intro hzero wa hwa
    have hsum : va / pgsize + ((va + size - 1) / pgsize - va / pgsize) =
        (va + size - 1) / pgsize := by omega
    rw [hr hzero wa hwa, hpage, hsum]

/-! ## Unmapping -/

/-- One page is unmapped, if it is mapped, and given back. -/
theorem deallocPage_spec {a : Nat} (h : Space 4 m root) (ha : a < 2 ^ 47)
    (hstop : ∀ e, flat m root a = some e → ¬m.Freeable (frame e) → E .kfree) :
    wp (deallocPage root a)
      (fun _ m' => flat m root a = none ∧ m' = m ∨
        ∃ e, flat m root a = some e ∧ Unmapped m m' root a ∧ m'.free = frame e :: m.free) E m := by
  unfold deallocPage
  rw [wp_bind, wp_of_ok walkpgdir_lookup]
  cases ht : nodeAt m.child root (tablePath a) with
  | none =>
    left
    refine ⟨?_, rfl⟩
    rw [flat, ht, Option.bind_none]
  | some t =>
    rw [flat_of_table ht] at hstop ⊢
    simp only [Option.map_some]
    rw [wp_bind, wp_get]
    by_cases hpresent : present (m.pte t (ptx a)) = true
    · rw [if_pos hpresent] at hstop ⊢
      rw [if_pos hpresent]
      have hflat : flat m root a = some (m.pte t (ptx a)) := by
        rw [flat_of_table ht, if_pos hpresent]
      by_cases hzero : frame (m.pte t (ptx a)) = 0
      · rw [if_pos hzero, wp_stop]
        refine hstop _ rfl ?_
        intro hbad
        exact hbad.ne_zero hzero
      · rw [if_neg hzero, wp_bind]
        refine wp_kfree ?_ (hstop _ rfl)
        intro hok
        right
        exact ⟨_, rfl, h.unmap ha ht hflat hok, rfl⟩
    · rw [if_neg hpresent, if_neg hpresent, wp_pure]
      exact Or.inl ⟨rfl, rfl⟩

/-- The pages that a list of page addresses is mapped to. -/
def framesOf (m : Machine) (root : Nat) (pages : List Nat) : List Nat :=
  pages.filterMap fun a => (flat m root a).map frame

/-- What holds after the pages at the given addresses were unmapped and given back. -/
structure Cleared (m m' : Machine) (root : Nat) (pages : List Nat) : Prop where
  space : Space 4 m' root
  moves : Moves 4 m m' root
  saves : Saves 4 m m' root
  free : m'.free = (framesOf m root pages).reverse ++ m.free
  entries : ∀ wa, wa < 2 ^ 47 → flat m' root wa =
    if pgrounddown wa ∈ pages then none else flat m root wa
  views : ∀ wa, wa < 2 ^ 47 → view m' root wa =
    if pgrounddown wa ∈ pages then none else view m root wa

theorem Cleared.refl (h : Space 4 m root) : Cleared m m root [] :=
  ⟨h, Moves.refl, Saves.refl, rfl, fun _ _ => (if_neg (List.not_mem_nil)).symm,
    fun _ _ => (if_neg (List.not_mem_nil)).symm⟩

/-- One page more. -/
theorem Cleared.snoc {m'' : Machine} {pages : List Nat} {a : Nat} (h : Cleared m m' root pages)
    (ha : a % pgsize = 0) (hlt : a < 2 ^ 47) (hnew : a ∉ pages)
    (hstep : flat m' root a = none ∧ m'' = m' ∨
      ∃ e, flat m' root a = some e ∧ Unmapped m' m'' root a ∧ m''.free = frame e :: m'.free) :
    Cleared m m'' root (pages ++ [a]) := by
  have hself : pgrounddown a = a := (pgrounddown_eq_iff ha).mpr rfl
  have hflat : flat m' root a = flat m root a := by rw [h.entries a hlt, hself, if_neg hnew]
  have hmem : ∀ wa, pgrounddown wa ∈ pages ++ [a] ↔
      pgrounddown wa ∈ pages ∨ wa / pgsize = a / pgsize := by
    intro wa
    rw [List.mem_append, List.mem_singleton, pgrounddown_eq_iff ha]
  rw [hflat] at hstep
  rcases hstep with ⟨hnone, rfl⟩ | ⟨e, he, hun, hfree⟩
  · refine ⟨h.space, h.moves, h.saves, ?_, ?_, ?_⟩
    · rw [h.free, framesOf, framesOf, List.filterMap_append]
      simp [hnone]
    · intro wa hwa
      rw [h.entries wa hwa]
      by_cases hpage : wa / pgsize = a / pgsize
      · rw [if_pos ((hmem wa).mpr (Or.inr hpage)), flat_congr hpage, hnone, ite_self]
      · by_cases hin : pgrounddown wa ∈ pages
        · rw [if_pos hin, if_pos ((hmem wa).mpr (Or.inl hin))]
        · rw [if_neg hin, if_neg fun hbad => ((hmem wa).mp hbad).elim hin hpage]
    · intro wa hwa
      rw [h.views wa hwa]
      by_cases hpage : wa / pgsize = a / pgsize
      · have hview : view m root wa = none := by
          rw [view, flat_congr hpage, hnone]
          rfl
        rw [if_pos ((hmem wa).mpr (Or.inr hpage)), hview, ite_self]
      · by_cases hin : pgrounddown wa ∈ pages
        · rw [if_pos hin, if_pos ((hmem wa).mpr (Or.inl hin))]
        · rw [if_neg hin, if_neg fun hbad => ((hmem wa).mp hbad).elim hin hpage]
  · refine ⟨hun.space, h.moves.trans hun.moves, h.saves.trans hun.saves, ?_, ?_, ?_⟩
    · rw [hfree, h.free, framesOf, framesOf, List.filterMap_append]
      simp [he]
    · intro wa hwa
      rw [hun.flat wa hwa]
      by_cases hpage : wa / pgsize = a / pgsize
      · rw [if_pos hpage, if_pos ((hmem wa).mpr (Or.inr hpage))]
      · rw [if_neg hpage, h.entries wa hwa]
        by_cases hin : pgrounddown wa ∈ pages
        · rw [if_pos hin, if_pos ((hmem wa).mpr (Or.inl hin))]
        · rw [if_neg hin, if_neg fun hbad => ((hmem wa).mp hbad).elim hin hpage]
    · intro wa hwa
      rw [hun.views wa hwa]
      by_cases hpage : wa / pgsize = a / pgsize
      · rw [if_pos hpage, if_pos ((hmem wa).mpr (Or.inr hpage))]
      · rw [if_neg hpage, h.views wa hwa]
        by_cases hin : pgrounddown wa ∈ pages
        · rw [if_pos hin, if_pos ((hmem wa).mpr (Or.inl hin))]
        · rw [if_neg hin, if_neg fun hbad => ((hmem wa).mp hbad).elim hin hpage]

/-- Some page of the list is mapped to a page that `kfree` does not accept. -/
def Foreign (m : Machine) (root : Nat) (pages : List Nat) : Prop :=
  ∃ a ∈ pages, ∃ e, flat m root a = some e ∧ ¬m.Freeable (frame e)

/-- The loop of `deallocuvm`. -/
theorem deallocPages_spec {pages : List Nat} (h : Space 4 m root) (hnodup : pages.Nodup)
    (hpages : ∀ a ∈ pages, a % pgsize = 0 ∧ a < 2 ^ 47)
    (hstop : Foreign m root pages → E .kfree) :
    wp (Exec.forEach (deallocPage root) pages) (fun _ m' => Cleared m m' root pages) E m := by
  have hloop := wp_forEach (f := deallocPage root) (E := E)
    (fun rest m' => ∃ done, pages = done ++ rest ∧ Cleared m m' root done) ?_
    ⟨[], rfl, Cleared.refl h⟩
  · refine wp_mono hloop ?_ fun _ he => he
    rintro _ m' ⟨done, hdone, hcleared⟩
    rw [List.append_nil] at hdone
    rwa [hdone]
  · rintro a rest m' ⟨done, hdone, hcleared⟩
    have ha : a ∈ pages := by
      rw [hdone]
      exact List.mem_append_right done List.mem_cons_self
    have hnew : a ∉ done := by
      rw [hdone, List.nodup_append] at hnodup
      intro hbad
      exact hnodup.2.2 a hbad a List.mem_cons_self rfl
    rcases hpages a ha with ⟨hmod, hlt⟩
    have hself : pgrounddown a = a := (pgrounddown_eq_iff hmod).mpr rfl
    refine wp_mono (deallocPage_spec hcleared.space hlt ?_) ?_ fun _ he => he
    · intro e he hbad
      rw [hcleared.entries a hlt, hself, if_neg hnew] at he
      rw [hcleared.moves.freeable] at hbad
      exact hstop ⟨a, ha, e, he, hbad⟩
    · intro _ m'' hstep
      exact ⟨done ++ [a], by rw [hdone, List.append_assoc, List.singleton_append],
        hcleared.snoc hmod hlt hnew hstep⟩

/-- `deallocuvm` unmaps the pages of a range and gives them back. -/
theorem deallocuvm_spec {oldsz newsz : Nat} (h : Space 4 m root) (hlt : newsz < oldsz)
    (htop : oldsz ≤ 2 ^ 47)
    (hstop : Foreign m root (pagesBelow (pgroundup newsz) oldsz) → E .kfree) :
    wp (deallocuvm root oldsz newsz)
      (fun r m' => r = newsz ∧ Cleared m m' root (pagesBelow (pgroundup newsz) oldsz)) E m := by
  unfold deallocuvm
  rw [if_neg (by omega)]
  refine wp_bind_of (deallocPages_spec h (pagesFrom_nodup _ _) ?_ hstop) ?_
  · intro a ha
    rw [mem_pagesBelow (pgroundup_mod newsz)] at ha
    exact ⟨ha.1, by omega⟩
  · intro _ m' hcleared
    exact ⟨rfl, hcleared⟩

/-! ## Growing -/

/-- The entry of `allocuvm` for page `f`. -/
def userEntry (f : Nat) : UInt64 :=
  physAddr f ||| (pteW ||| pteU) ||| pteP

theorem frame_userEntry {f : Nat} (hf : f < 2 ^ 52) : frame (userEntry f) = f := by
  rw [userEntry, UInt64.or_assoc]
  exact frame_physAddr_or hf (by decide)

/-- Making tables first does not matter. -/
theorem Extends.mapped {m'' : Machine} {va f : Nat} {e : UInt64} (h : Extends 4 m m' root)
    (hs : Saves 4 m m' root) (hv : SameView m m' root) (hf : m'.mem f = m.mem f)
    (h' : Mapped m' m'' root va f e) : Mapped m m'' root va f e := by
  refine ⟨h'.space, h'.kend.trans h.moves.kend, h'.kpdpt.trans h.moves.kpdpt,
    h'.refreed.trans h.moves.refreed, ?_, ?_, ?_, ?_, ?_, fun hb => h'.blank (h.slots.blank hb)⟩
  · intro g hg
    exact (h'.pages g hg).imp id (h.moves.pages g)
  · intro g hg
    exact h'.saves g (hg.imp id (hs g))
  · intro g hg hfree
    have hnot : ¬(Reaches m'.child root (UserPath 4) g ∨ g ∈ m'.free) := by
      intro hbad
      exact (h.moves.pages g hbad).elim hg hfree
    rw [h'.mem g (fun hr => hnot (Or.inl hr)) (fun hf => hnot (Or.inr hf)),
      h.moves.mem g hg hfree]
  · intro wa hwa
    rw [h'.flat wa hwa, h.same wa hwa]
  · intro wa hwa
    rw [h'.views wa hwa, hv wa hwa, hf]

/-- `walkpgdir` leaves the pages as they are. -/
theorem walkpgdir_view {va : Nat} (h : Space 4 m root) (hva : va < 2 ^ 47) :
    wp (walkpgdir root va true)
      (fun r m' => (Extends 4 m m' root ∧ Saves 4 m m' root ∧ SameView m m' root) ∧
        ∀ t i, r = some (t, i) → nodeAt m'.child root (tablePath va) = some t ∧ i = ptx va)
      E m := by
  have hthree := walkpgdir_spec (E := E) (le_refl 3) (h.mono (by omega)) hva
  refine wp_mono (wp_and (walkpgdir_spec (show 3 ≤ 4 by omega) h hva) hthree) ?_ fun _ he => he
  rintro r m' ⟨⟨hext, hsaves, hr⟩, hext₃, -, -⟩
  refine ⟨⟨hext, hsaves, ?_⟩, hr⟩
  intro wa hwa
  exact h.view_of_moves hext₃.moves hwa (hext.same wa hwa)

theorem mappages_one {a : Nat} {pa perm : UInt64} (ha : a % pgsize = 0) (hlt : a < 2 ^ 47) :
    mappages root a pgsize pa perm = mapPage root a pa perm := by
  have hdown : pgrounddown a = a := (pgrounddown_eq_iff ha).mpr rfl
  have hlast : pgrounddown ((a + pgsize + (2 ^ 64 - 1)) % 2 ^ 64) = a := by
    rw [pgrounddown_eq_iff ha]
    unfold pgsize at ha ⊢
    omega
  have hcount : (a + (2 ^ 64 - a)) % 2 ^ 64 / pgsize = 0 := by
    have hsum : a + (2 ^ 64 - a) = 2 ^ 64 := by omega
    rw [hsum, Nat.mod_self, Nat.zero_div]
  unfold mappages
  simp only [hlast, hdown, hcount, mappagesLoop]

/-- A page that is in no other place is mapped, or there are some new tables. -/
theorem mapPage_fresh {a f : Nat} {pa perm e : UInt64} (h : Space 4 m root) (ha : a < 2 ^ 47)
    (hstop : flat m root a ≠ none → E .remap) (he : e = pa ||| perm ||| pteP)
    (hframe : frame e = f) (hnew : ¬Reaches m.child root (UserPath 4) f) (hfree : f ∉ m.free) :
    wp (mapPage root a pa perm)
      (fun r m' => r = -1 ∧ (Extends 4 m m' root ∧ Saves 4 m m' root ∧ SameView m m' root) ∨
        r = 0 ∧ Mapped m m' root a f e) E m := by
  unfold mapPage
  refine wp_bind_of (walkpgdir_view h ha) ?_
  rintro r m₁ ⟨⟨hext, hsaves, hview⟩, hr⟩
  cases r with
  | none => exact Or.inl ⟨rfl, hext, hsaves, hview⟩
  | some slot =>
    rcases slot with ⟨t, i⟩
    rcases hr t i rfl with ⟨ht, rfl⟩
    have hnew₁ : ¬(Reaches m₁.child root (UserPath 4) f ∨ f ∈ m₁.free) := by
      intro hbad
      exact (hext.moves.pages f hbad).elim hnew hfree
    simp only
    rw [wp_bind, wp_get]
    by_cases hpresent : present (m₁.pte t (ptx a)) = true
    · rw [if_pos hpresent, wp_stop]
      apply hstop
      rw [← hext.same a ha, flat_of_table ht, if_pos hpresent]
      exact Option.some_ne_none _
    · have hnone₁ : flat m₁ root a = none := by rw [flat_of_table ht, if_neg hpresent]
      rw [if_neg hpresent, wp_bind, wp_modify, wp_pure]
      right
      refine ⟨rfl, hext.mapped hsaves hview (hext.moves.mem f hnew hfree) ?_⟩
      subst hframe
      rw [← he]
      exact hext.space.map ha ht hnone₁ (by rw [he]; exact present_or _)
        (fun hbad => hnew₁ (Or.inl hbad)) (fun hbad => hnew₁ (Or.inr hbad))

/-- What holds while pages are added: `m` is the memory at the start, and `pages` are the
addresses at which nothing was mapped. -/
structure Grown (m m' : Machine) (root : Nat) (pages : List Nat) : Prop where
  space : Space 4 m' root
  moves : Moves 4 m m' root
  same : ∀ wa, wa < 2 ^ 47 → pgrounddown wa ∉ pages → flat m' root wa = flat m root wa
  own : ¬Foreign m' root pages

section Grown

variable {m'' : Machine} {pages : List Nat}

theorem Grown.refl (h : Space 4 m root) (hnone : ∀ a ∈ pages, flat m root a = none) :
    Grown m m root pages := by
  refine ⟨h, Moves.refl, fun _ _ _ => rfl, ?_⟩
  rintro ⟨a, ha, e, he, _⟩
  rw [hnone a ha] at he
  cases he

theorem Grown.extends (h : Grown m m' root pages) (hpages : ∀ a ∈ pages, a < 2 ^ 47)
    (h' : Extends 4 m' m'' root) : Grown m m'' root pages := by
  refine ⟨h'.space, h.moves.trans h'.moves, ?_, ?_⟩
  · intro wa hwa hout
    rw [h'.same wa hwa, h.same wa hwa hout]
  · rintro ⟨a, ha, e, he, hbad⟩
    rw [h'.same a (hpages a ha)] at he
    rw [h'.moves.freeable] at hbad
    exact h.own ⟨a, ha, e, he, hbad⟩

/-- A page from the free list is mapped. -/
theorem Grown.map {a f : Nat} {fs : List Nat} (h : Grown m m' root pages)
    (hpages : ∀ b ∈ pages, b % pgsize = 0 ∧ b < 2 ^ 47) (ha : a ∈ pages)
    (hfree : m'.free = f :: fs)
    (hmap : Mapped (m'.taken fs f) m'' root a f (userEntry f)) : Grown m m'' root pages := by
  have htake := h.space.take (show 3 ≤ 4 by omega) hfree
  have hin : f ∈ m'.free := by
    rw [hfree]
    exact List.mem_cons_self
  have hok := h.space.freeable f hin
  have hmoves : Moves 4 m' m'' root := by
    refine ⟨hmap.kend, hmap.kpdpt, hmap.refreed, ?_, ?_⟩
    · intro g hg
      rcases hmap.pages g hg with rfl | hg
      · exact Or.inr hin
      · exact htake.1.moves.pages g hg
    · intro g hg hgfree
      have hnot : ¬(Reaches (m'.taken fs f).child root (UserPath 4) g ∨ g ∈ fs) := by
        intro hbad
        exact (htake.1.moves.pages g hbad).elim hg hgfree
      rw [hmap.mem g (fun hr => hnot (Or.inl hr)) (fun hf => hnot (Or.inr hf)),
        htake.1.moves.mem g hg hgfree]
  refine ⟨hmap.space, h.moves.trans hmoves, ?_, ?_⟩
  · intro wa hwa hout
    have hpage : wa / pgsize ≠ a / pgsize := by
      intro hbad
      rw [(pgrounddown_eq_iff (hpages a ha).1).mpr hbad] at hout
      exact hout ha
    rw [hmap.flat wa hwa, if_neg hpage, htake.1.same wa hwa, h.same wa hwa hout]
  · rintro ⟨b, hb, e, he, hbad⟩
    have hlt := (hpages b hb).2
    rw [hmap.flat b hlt] at he
    rw [hmoves.freeable] at hbad
    by_cases hpage : b / pgsize = a / pgsize
    · rw [if_pos hpage, Option.some.injEq] at he
      rw [← he, frame_userEntry hok.lt] at hbad
      exact hbad hok
    · rw [if_neg hpage, htake.1.same b hlt] at he
      exact h.own ⟨b, hb, e, he, hbad⟩

/-- Unmapping the pages again gives the map of the start. -/
theorem Grown.cleared (h : Grown m m' root pages) (hnone : ∀ a ∈ pages, flat m root a = none)
    (hpages : ∀ a ∈ pages, a % pgsize = 0) (h' : Cleared m' m'' root pages) :
    SameFlat m m'' root := by
  intro wa hwa
  rw [h'.entries wa hwa]
  by_cases hin : pgrounddown wa ∈ pages
  · have hpage : wa / pgsize = pgrounddown wa / pgsize :=
      (pgrounddown_eq_iff (hpages _ hin)).mp rfl
    rw [if_pos hin, flat_congr hpage, hnone _ hin]
  · rw [if_neg hin, h.same wa hwa hin]

end Grown

section Alloc

variable {oldsz newsz : Nat} {pages : List Nat}

/-- `pages` are the addresses at which `allocuvm` adds pages. -/
structure Range (m : Machine) (root oldsz newsz : Nat) (pages : List Nat) : Prop where
  range : pages = pagesBelow (pgroundup oldsz) newsz
  top : newsz ≤ 2 ^ 47
  le : oldsz ≤ newsz
  none : ∀ a ∈ pages, flat m root a = none

theorem Range.page (h : Range m root oldsz newsz pages) {a : Nat} (ha : a ∈ pages) :
    a % pgsize = 0 ∧ a < 2 ^ 47 ∧ oldsz < newsz := by
  have hround := le_pgroundup (h.le.trans h.top)
  have htop := h.top
  rw [h.range, mem_pagesBelow (pgroundup_mod oldsz)] at ha
  exact ⟨ha.1, by omega, by omega⟩

/-- What is left when pages were added and unmapped again. -/
structure Undone (m m' : Machine) (root : Nat) : Prop where
  space : Space 4 m' root
  moves : Moves 4 m m' root
  same : SameFlat m m' root

/-- The pages added so far are unmapped again. -/
theorem Grown.dealloc (h : Grown m m' root pages) (hr : Range m root oldsz newsz pages)
    (hlt : oldsz < newsz) :
    wp (deallocuvm root newsz oldsz)
      (fun _ m'' => Moves 4 m' m'' root ∧ Undone m m'' root) E m' := by
  refine wp_mono (deallocuvm_spec h.space hlt hr.top ?_) ?_ fun _ he => he
  · rw [← hr.range]
    intro hbad
    exact absurd hbad h.own
  · rintro _ m'' ⟨_, hcleared⟩
    rw [← hr.range] at hcleared
    exact ⟨hcleared.moves, hcleared.space, h.moves.trans hcleared.moves,
      h.cleared hr.none (fun b hb => (hr.page hb).1) hcleared⟩

/-- A page that was taken from the free list is given back. -/
theorem Undone.give {m'' : Machine} {f : Nat} {fs : List Nat} (hspace : Space 4 m' root)
    (hmoves : Moves 4 m m' root) (hfree : m'.free = f :: fs)
    (hlater : Moves 4 (m'.taken fs f) m'' root) (h : Undone m m'' root) :
    m''.Freeable f ∧ Undone m (m''.freed f) root := by
  have hin : f ∈ m'.free := by
    rw [hfree]
    exact List.mem_cons_self
  rcases hspace.take (show 3 ≤ 4 by omega) hfree with ⟨htake, hnew, hout⟩
  have hnot : ¬(Reaches m''.child root (UserPath 4) f ∨ f ∈ m''.free) := by
    intro hbad
    exact (hlater.pages f hbad).elim hnew hout
  have hok : m''.Freeable f :=
    ((htake.moves.trans hlater).freeable f).mpr (hspace.freeable f hin)
  rcases h.space.give (fun hbad => hnot (Or.inl hbad)) (fun hbad => hnot (Or.inr hbad)) hok
    with ⟨hgive, hmem⟩
  refine ⟨hok, hgive, ⟨h.moves.kend, h.moves.kpdpt, ?_, ?_, ?_⟩,
    h.same.trans (sameSlots_of_mem hmem (by omega)).sameFlat⟩
  · rw [← h.moves.refreed]
    exact (congrArg (m''.refreed || ·) (decide_eq_false fun hbad => hnot (Or.inr hbad))).trans
      (Bool.or_false _)
  · rintro g (hg | hg)
    · exact h.moves.pages g (Or.inl ((reaches_of_mem hmem).mp hg))
    · rcases List.mem_cons.mp hg with rfl | hg
      · exact hmoves.pages g (Or.inr hin)
      · exact h.moves.pages g (Or.inr hg)
  · intro g hg hgfree
    have hgf : g ≠ f := by
      rintro rfl
      exact (hmoves.pages g (Or.inr hin)).elim hg hgfree
    exact (Machine.setPage_mem_of_ne m'' _ hgf).trans (h.moves.mem g hg hgfree)

/-- One round of `allocuvm` maps one page more, or none of the range is mapped. -/
theorem allocPage_spec {a : Nat} (hr : Range m root oldsz newsz pages)
    (h : Grown m m' root pages) (ha : a ∈ pages) (hnone : flat m' root a = none) :
    wp (allocPage root oldsz newsz a)
      (fun more m'' => more = false ∧ Undone m m'' root ∨
        more = true ∧ Grown m m'' root pages ∧
          ∀ b ∈ pages, flat m'' root b = none ↔ b ≠ a ∧ flat m' root b = none) E m' := by
  rcases hr.page ha with ⟨hmod, hlt, hless⟩
  unfold allocPage
  rw [wp_bind]
  refine wp_kalloc ?_ ?_
  · intro _
    refine wp_bind_of (h.dealloc hr hless) ?_
    rintro _ m₁ ⟨_, hundone⟩
    exact Or.inl ⟨rfl, hundone⟩
  · intro f fs hfree
    have hok : m'.Freeable f := by
      apply h.space.freeable
      rw [hfree]
      exact List.mem_cons_self
    rcases h.space.take (show 3 ≤ 4 by omega) hfree with ⟨htake, hnew, hout⟩
    have hnone₁ : flat (m'.taken fs f) root a = none := by rw [htake.same a hlt, hnone]
    have hmap := mapPage_fresh (E := E) htake.space hlt (fun hbad => absurd hnone₁ hbad)
      (userEntry.eq_1 f) (frame_userEntry hok.lt) hnew hout
    rw [← mappages_one hmod hlt] at hmap
    simp only
    rw [wp_bind, wp_modify]
    refine wp_bind_of hmap ?_
    rintro r m₂ (⟨rfl, hext, -, -⟩ | ⟨rfl, hmapped⟩)
    · -- no table: the new page is not in the map, and given back by itself
      have hgrown := h.extends (fun b hb => (hr.page hb).2.1) (htake.trans hext)
      rw [if_pos (by decide)]
      refine wp_bind_of (hgrown.dealloc hr hless) ?_
      rintro _ m₃ ⟨hmoves, hundone⟩
      have hgive := hundone.give h.space h.moves hfree (hext.moves.trans hmoves)
      rw [wp_bind]
      refine wp_kfree ?_ (fun hbad => absurd hgive.1 hbad)
      intro _
      exact Or.inl ⟨rfl, hgive.2⟩
    · rw [if_neg (by decide)]
      refine Or.inr ⟨rfl, h.map (fun b hb => ⟨(hr.page hb).1, (hr.page hb).2.1⟩) ha hfree hmapped,
        ?_⟩
      intro b hb
      rw [hmapped.flat b (hr.page hb).2.1]
      by_cases hba : b = a
      · rw [hba, if_pos rfl]
        exact ⟨nofun, fun hbad => absurd rfl hbad.1⟩
      · have hpage : b / pgsize ≠ a / pgsize := by
          intro hbad
          exact hba (eq_of_page_eq (hr.page hb).1 hmod hbad)
        rw [if_neg hpage, htake.same b (hr.page hb).2.1]
        exact ⟨fun hflat => ⟨hba, hflat⟩, fun hflat => hflat.2⟩

/-- What `allocuvm` leaves when it returns `r`. -/
def AllocPost (m m' : Machine) (root newsz : Nat) (pages : List Nat) (r : Nat) : Prop :=
  r = newsz ∧ Grown m m' root pages ∧ (∀ a ∈ pages, flat m' root a ≠ none) ∨
    r = 0 ∧ Undone m m' root

theorem allocuvmLoop_spec {rest : List Nat} (hr : Range m root oldsz newsz pages)
    (h : Grown m m' root pages) (hsub : ∀ a ∈ rest, a ∈ pages) (hnodup : rest.Nodup)
    (hrest : ∀ a ∈ pages, flat m' root a = none ↔ a ∈ rest) :
    wp (allocuvmLoop root oldsz newsz rest)
      (fun r m'' => AllocPost m m'' root newsz pages r) E m' := by
  induction rest generalizing m' with
  | nil =>
    rw [allocuvmLoop, wp_pure]
    refine Or.inl ⟨rfl, h, ?_⟩
    intro a ha hbad
    exact absurd ((hrest a ha).mp hbad) List.not_mem_nil
  | cons a rest ih =>
    have ha := hsub a List.mem_cons_self
    rw [List.nodup_cons] at hnodup
    rw [allocuvmLoop]
    refine wp_bind_of (allocPage_spec hr h ha ((hrest a ha).mpr List.mem_cons_self)) ?_
    rintro more m₁ (⟨rfl, hundone⟩ | ⟨rfl, hgrown, hflat⟩)
    · exact Or.inr ⟨rfl, hundone⟩
    · refine ih hgrown (fun b hb => hsub b (List.mem_cons_of_mem a hb)) hnodup.2 ?_
      intro b hb
      rw [hflat b hb, hrest b hb, List.mem_cons]
      constructor
      · rintro ⟨hba, hbad | hin⟩
        · exact absurd hbad hba
        · exact hin
      · intro hin
        refine ⟨?_, Or.inr hin⟩
        rintro rfl
        exact hnodup.1 hin

/-- `allocuvm` maps the pages of a range, or leaves the map as it was. -/
theorem allocuvm_spec (h : Space 4 m root) (htop : newsz ≤ 2 ^ 47) (hle : oldsz ≤ newsz)
    (hnone : ∀ a ∈ pagesBelow (pgroundup oldsz) newsz, flat m root a = none) :
    wp (allocuvm root oldsz newsz)
      (fun r m' => AllocPost m m' root newsz (pagesBelow (pgroundup oldsz) newsz) r) E m := by
  have hkern : ¬newsz ≥ kernbase := by
    unfold kernbase
    omega
  unfold allocuvm
  rw [if_neg hkern, if_neg (Nat.not_lt.mpr hle)]
  exact allocuvmLoop_spec ⟨rfl, htop, hle, hnone⟩ (Grown.refl h hnone) (fun _ ha => ha)
    (pagesFrom_nodup _ _) fun a ha => ⟨fun _ => ha, fun _ => hnone a ha⟩

end Alloc

/-! ## The refinement -/

/-- `walkpgdir` leaves the map as it is, and a slot it returns stands for `va` alone. -/
theorem walkpgdir_slot {va : Nat} (h : Space 3 m root) (hva : va < 2 ^ 47) :
    wp (walkpgdir root va true)
      (fun r m' => SameFlat m m' root ∧ ∀ t i, r = some (t, i) → ∀ e wa, wa < 2 ^ 47 →
        flat (m'.setPte t i e) root wa =
          if wa / pgsize = va / pgsize then (if present e then some e else none)
          else flat m root wa) E m := by
  refine wp_mono (walkpgdir_spec (le_refl 3) h hva) ?_ fun _ he => he
  rintro r m' ⟨hext, -, hr⟩
  refine ⟨hext.same, ?_⟩
  intro t i hslot e wa hwa
  rcases hr t i hslot with ⟨ht, rfl⟩
  rw [flat_setPte hext.space hva hwa ht, hext.same wa hwa]

/-- Unmapping stops only at a page that is not the allocator's. -/
theorem deallocuvm_total {oldsz newsz : Nat} (h : Space 4 m root) (hlt : newsz < oldsz)
    (htop : oldsz ≤ 2 ^ 47) :
    (∃ m', deallocuvm root oldsz newsz m = .ok (newsz, m') ∧
      Cleared m m' root (pagesBelow (pgroundup newsz) oldsz)) ∨
    Foreign m root (pagesBelow (pgroundup newsz) oldsz) ∧
      deallocuvm root oldsz newsz m = .error .kfree := by
  have hspec := deallocuvm_spec (E := fun e => e = .kfree ∧
    Foreign m root (pagesBelow (pgroundup newsz) oldsz)) h hlt htop fun hbad => ⟨rfl, hbad⟩
  unfold wp at hspec
  cases hrun : deallocuvm root oldsz newsz m with
  | ok r =>
    rw [hrun] at hspec
    left
    refine ⟨r.2, ?_, hspec.2⟩
    rw [← hspec.1]
  | error e =>
    rw [hrun] at hspec
    right
    exact ⟨hspec.2, by rw [hspec.1]⟩

/-- A failed `allocuvm` leaves the map as it is. -/
theorem allocuvm_failed {oldsz newsz : Nat} (h : Space 4 m root)
    (htop : newsz ≤ 2 ^ 47 ∨ kernbase ≤ newsz)
    (hnone : ∀ a, pgroundup oldsz ≤ a → a < newsz → flat m root a = none) :
    wp (allocuvm root oldsz newsz) (fun r m' => r = 0 → SameFlat m m' root) E m := by
  by_cases hkern : kernbase ≤ newsz
  · unfold allocuvm
    rw [if_pos hkern, wp_pure]
    exact fun _ _ _ => rfl
  · by_cases hlt : newsz < oldsz
    · unfold allocuvm
      rw [if_neg hkern, if_pos hlt, wp_pure]
      exact fun _ _ _ => rfl
    · have hpages : ∀ a ∈ pagesBelow (pgroundup oldsz) newsz, flat m root a = none := by
        intro a ha
        rw [mem_pagesBelow (pgroundup_mod oldsz)] at ha
        exact hnone a ha.2.1 ha.2.2
      refine wp_mono (allocuvm_spec h (htop.resolve_right hkern) (by omega) hpages) ?_
        fun _ he => he
      rintro r m' (⟨rfl, hgrown, _⟩ | ⟨_, hundone⟩) hzero
      · -- nothing was asked for
        intro wa hwa
        refine hgrown.same wa hwa ?_
        rw [mem_pagesBelow (pgroundup_mod oldsz)]
        omega
      · exact hundone.same

end Specs

/-- The operations on a four-level page table are those of a map from user pages to
entries: `walkpgdir` finds nothing or the slot of one page, `mappages` sets the pages of
a range, `deallocuvm` clears those of a range and gives each frame back once, or stops
at a frame that `kfree` does not take, and a failed `allocuvm` changes nothing. -/
theorem page_table_refines (m : Machine) (root : Nat) :
    (Space 3 m root →
      (∀ va, va < 2 ^ 47 → ∃ r m', walkpgdir root va true m = .ok (r, m') ∧
        SameFlat m m' root ∧ ∀ t i, r = some (t, i) → ∀ e wa, wa < 2 ^ 47 →
          flat (m'.setPte t i e) root wa =
            if wa / pgsize = va / pgsize then (if present e then some e else none)
            else flat m root wa) ∧
      (∀ va size pa perm, 0 < va + size → va + size ≤ 2 ^ 47 →
        va / pgsize ≤ (va + size - 1) / pgsize →
        (∀ a, va / pgsize ≤ a / pgsize → a / pgsize ≤ (va + size - 1) / pgsize →
          flat m root a = none) →
        ∃ r m', mappages root va size pa perm m = .ok (r, m') ∧
          (r = 0 → ∀ wa, wa < 2 ^ 47 → flat m' root wa =
            if va / pgsize ≤ wa / pgsize ∧ wa / pgsize ≤ (va + size - 1) / pgsize then
              some (mapEntry pa perm (wa / pgsize - va / pgsize))
            else flat m root wa))) ∧
    (Space 4 m root →
      (∀ oldsz newsz, newsz < oldsz → oldsz ≤ 2 ^ 47 →
        (∃ m', deallocuvm root oldsz newsz m = .ok (newsz, m') ∧
          (∀ wa, wa < 2 ^ 47 → flat m' root wa =
            if pgroundup newsz ≤ pgrounddown wa ∧ pgrounddown wa < oldsz then none
            else flat m root wa) ∧
          m'.free = (framesOf m root (pagesBelow (pgroundup newsz) oldsz)).reverse ++ m.free ∧
          (framesOf m root (pagesBelow (pgroundup newsz) oldsz)).Nodup) ∨
        Foreign m root (pagesBelow (pgroundup newsz) oldsz) ∧
          deallocuvm root oldsz newsz m = .error .kfree) ∧
      (∀ oldsz newsz, newsz ≤ 2 ^ 47 ∨ kernbase ≤ newsz →
        (∀ a, pgroundup oldsz ≤ a → a < newsz → flat m root a = none) →
        ∃ r m', allocuvm root oldsz newsz m = .ok (r, m') ∧ (r = 0 → SameFlat m m' root))) := by
  refine ⟨fun h => ⟨?_, ?_⟩, fun h => ⟨?_, ?_⟩⟩
  · intro va hva
    exact wp_never.mp (walkpgdir_slot h hva)
  · intro va size pa perm hpos htop hrange hnone
    rcases wp_never.mp (mappages_spec h hpos hrange htop hnone) with ⟨r, m', hrun, _, hr⟩
    exact ⟨r, m', hrun, hr⟩
  · intro oldsz newsz hlt htop
    refine (deallocuvm_total h hlt htop).imp ?_ id
    rintro ⟨m', hrun, hcleared⟩
    refine ⟨m', hrun, ?_, hcleared.free, ?_⟩
    · intro wa hwa
      have hmod : pgrounddown wa % pgsize = 0 := Nat.mul_mod_left _ _
      rw [hcleared.entries wa hwa]
      simp only [mem_pagesBelow (pgroundup_mod newsz), hmod, true_and]
    · have hnodup := hcleared.space.nodup
      rw [hcleared.free, List.nodup_append] at hnodup
      exact List.nodup_reverse.mp hnodup.1
  · intro oldsz newsz htop hnone
    exact wp_never.mp (allocuvm_failed h htop hnone)

/-- A machine with an empty page table in page 1 and five free pages. -/
def emptySpace : Machine where
  mem := fun _ => Bytes.zero pgsize
  free := [2, 3, 4, 5, 6]
  kend := 1
  kend_pos := by decide
  kpdpt := 0
  refreed := false

theorem emptySpace_child (t : Nat) (i : Index) : emptySpace.child t i = none := by
  have hpte : emptySpace.pte t i = 0 := by
    rw [← emptySpace.pte_setPage_zero (f := t) (j := i)]
    refine (Machine.pte_of_mem_eq _ ?_ i).symm
    rw [Machine.setPage_mem_self]
    rfl
  unfold Machine.child
  rw [hpte, present_zero]
  rfl

theorem emptySpace_nodeAt {p : List Index} {f : Nat}
    (h : nodeAt emptySpace.child 1 p = some f) : p = [] ∧ f = 1 := by
  cases p with
  | nil =>
    cases h
    exact ⟨rfl, rfl⟩
  | cons i p =>
    rw [nodeAt] at h
    simp [emptySpace_child] at h

theorem emptySpace_space : Space 4 emptySpace 1 := by
  refine ⟨?_, by decide, ?_, ?_⟩
  · intro p q f _ _ hp hq
    rw [(emptySpace_nodeAt hp).1, (emptySpace_nodeAt hq).1]
  · rintro f hf ⟨p, _, hp⟩
    rw [(emptySpace_nodeAt hp).2] at hf
    revert hf
    decide
  · decide

theorem emptySpace_flat (va : Nat) : flat emptySpace 1 va = none := by
  unfold flat tablePath
  simp [nodeAt, emptySpace_child]

/-- Two pages on both sides of a 2 MB boundary: four tables are needed, and with the two
pages of `allocuvm` there is one page too few. -/
theorem page_table_refines_emptySpace :
    Space 4 emptySpace 1 ∧
      (∃ r m', mappages 1 0x1ff800 0x1000 0 pteW emptySpace = .ok (r, m') ∧
        (r = 0 → flat m' 1 0x200000 = some (mapEntry 0 pteW 1))) ∧
      ∃ r m', allocuvm 1 0x1fe800 0x201000 emptySpace = .ok (r, m') ∧
        (r = 0 → SameFlat emptySpace m' 1) := by
  have hrefines := page_table_refines emptySpace 1
  refine ⟨emptySpace_space, ?_, ?_⟩
  · rcases (hrefines.1 (emptySpace_space.mono (by decide))).2 0x1ff800 0x1000 0 pteW (by decide)
      (by decide) (by decide) (fun a _ _ => emptySpace_flat a) with ⟨r, m', hrun, hr⟩
    refine ⟨r, m', hrun, ?_⟩
    intro hzero
    rw [hr hzero 0x200000 (by decide), if_pos (by decide)]
    rfl
  · exact (hrefines.2 emptySpace_space).2 0x1fe800 0x201000 (Or.inl (by decide))
      fun a _ _ => emptySpace_flat a

end Xv6.Vm
