import Xv6.Vm.Costs

/-!
# Virtual memory - Copying a memory

`copyuvm` makes a new page table and copies the pages of the parent one by one.  It gives up when
`kalloc` returns null, and what becomes of the pages it had depends on where that happens: the
root is not tested, a missing user page is noticed before anything is lost, and a missing table is
noticed when the user page that was to be mapped has already been taken; `freevm` does not find
that page.

Main results:

- Theorem {lit}`setupkvm_turns`: an empty page table.
- Theorem {lit}`copyPages_turns`: the loop of `copyuvm`.
- Theorem {lit}`copyuvm_turns`: the copy has its own pages, with the same contents.
-/

namespace Xv6.Vm

open Foundations

attribute [local instance] neZero_index

/-! ## An empty page table -/

section Setup

variable {m m' : Machine} {root d f : Nat} {E : VmStop → Prop}

/-- The memory after `setupkvm` took page `f`. -/
def Machine.rooted (m : Machine) (fs : List Nat) (f : Nat) : Machine :=
  (({ m with free := fs } : Machine).setPage f (Bytes.zero pgsize)).setPte f 256
    (physAddr m.kpdpt ||| (pteP ||| pteW))

theorem Machine.rooted_child {fs : List Nat} {i : Index} (hi : i.val < 256) :
    (m.rooted fs f).child f i = none := by
  have hne : i ≠ 256 := by
    rintro rfl
    exact absurd hi (by decide)
  have hpte : (m.rooted fs f).pte f i = 0 := by
    unfold Machine.rooted
    rw [Machine.pte_setPte_of_ne _ _ _ _ (Or.inr hne), Machine.pte_setPage_zero]
  unfold Machine.child
  rw [hpte, if_neg (by decide)]

theorem Machine.rooted_mem {fs : List Nat} {g : Nat} (hg : g ≠ f) :
    (m.rooted fs f).mem g = m.mem g := by
  unfold Machine.rooted
  rw [Machine.setPte_mem_of_ne _ _ _ _ hg, Machine.setPage_mem_of_ne _ _ hg]

/-- The user half of a new page table is its root. -/
theorem Machine.rooted_nodeAt {fs : List Nat} {q : List Index} (hq : UserPath 4 q) {g : Nat}
    (hg : nodeAt (m.rooted fs f).child f q = some g) : q = [] ∧ g = f := by
  rcases List.eq_nil_or_concat q with rfl | ⟨p, i, rfl⟩
  · cases hg
    exact ⟨rfl, rfl⟩
  · rw [List.concat_eq_append] at hq hg
    have hi : i.val < 256 := by
      refine hq.2 i ?_
      rw [List.getLast?_append, List.getLast?_singleton]
      rfl
    have hnone : nodeAt (m.rooted fs f).child f [i] = none := by
      rw [nodeAt, nodeAt, Option.bind_some]
      exact Machine.rooted_child hi
    rw [nodeAt_append, hnone, Option.bind_none] at hg
    cases hg

/-- Nothing is mapped in the page table, which has no tables. -/
theorem Machine.rooted_blank {fs : List Nat} {p : List Index} (hp : UserPath 4 p) (hne : p ≠ []) :
    nodeAt (m.rooted fs f).child f p = none := by
  cases hg : nodeAt (m.rooted fs f).child f p with
  | none => rfl
  | some g => exact absurd (Machine.rooted_nodeAt hp hg).1 hne

/-- A new page table: the page it takes is all it has. -/
structure Empty (m : Machine) (d : Nat) : Prop where
  tables : Tables m d pgsize
  flat : ∀ va, va < 2 ^ 47 → flat m d va = none

theorem Machine.rooted_empty {fs : List Nat} : Empty (m.rooted fs f) f := by
  have hpath : ∀ va, va < 2 ^ 47 → ∀ k < 3,
      nodeAt (m.rooted fs f).child f ((tablePath va).drop k) = none := by
    intro va hva k hk
    refine Machine.rooted_blank (UserPath.mono (by omega) (userPath_drop_tablePath hva)) ?_
    intro hnil
    have hlen := congrArg List.length hnil
    rw [List.length_drop] at hlen
    have hthree : (tablePath va).length = 3 := rfl
    simp only [List.length_nil] at hlen
    omega
  constructor
  · intro va hva k hk
    rw [hpath va hva k hk]
    simp
  · intro va hva
    unfold Vm.flat
    have hzero := hpath va hva 0 (by decide)
    rw [List.drop_zero] at hzero
    rw [hzero, Option.bind_none]

/-- `setupkvm` makes an empty page table; it does not notice that there is no page. -/
theorem setupkvm_turns (h : Forest m []) (hE : m.free = [] → E .nullPointer) :
    wp setupkvm (fun d m' => Turns m m' [] [userTree d] ∧ Empty m' d ∧
      m'.free.length + 1 = m.free.length) E m := by
  unfold setupkvm
  rw [wp_bind]
  refine wp_kalloc ?_ ?_
  · intro hnil
    exact hE hnil
  · intro f fs hfree
    have hnodup := h.nodup
    rw [hfree, List.nodup_cons] at hnodup
    have hin : ∀ g ∈ f :: fs, m.Freeable g := by
      intro g hg
      rw [← hfree] at hg
      exact h.freeable g hg
    have hheld : ∀ g, Held (m.rooted fs f) [userTree f] g ↔ g = f := by
      intro g
      rw [held_userTree]
      constructor
      · rintro ⟨q, hq, hg⟩
        exact (Machine.rooted_nodeAt hq hg).2
      · rintro rfl
        exact ⟨[], ⟨Nat.zero_le _, nofun⟩, rfl⟩
    simp only
    rw [wp_bind, wp_modify, wp_bind, wp_modify, wp_pure]
    refine ⟨⟨?_, rfl, rfl, ?_, ?_⟩, Machine.rooted_empty, ?_⟩
    · refine ⟨?_, List.pairwise_singleton _ _, ?_, ?_, hnodup.2, ?_, h.once⟩
      · intro k hk
        rw [List.mem_singleton.mp hk]
        refine ⟨userPath_tailClosed 4, ?_⟩
        intro q r g hq hr hqg hrg
        rw [(Machine.rooted_nodeAt hq hqg).1, (Machine.rooted_nodeAt hr hrg).1]
      · intro g hg hbad
        rw [(hheld g).mp hbad] at hg
        exact hnodup.1 hg
      · intro g hg
        rw [(hheld g).mp hg]
        exact hin f List.mem_cons_self
      · intro g hg
        exact hin g (List.mem_cons_of_mem f hg)
    · intro g
      have hiff := hheld g
      rw [or_iff_left not_held_nil, hfree, List.mem_cons]
      constructor
      · rintro (hg | hg)
        · exact Or.inr hg
        · exact Or.inl (hiff.mp hg)
      · rintro (hg | hg)
        · exact Or.inr (hiff.mpr hg)
        · exact Or.inl hg
    · intro g _ hg _
      refine Machine.rooted_mem ?_
      rintro rfl
      rw [hfree] at hg
      exact hg List.mem_cons_self
    · rw [hfree, List.length_cons]
      rfl

end Setup

/-! ## Copying pages -/

/-- The entry for a copy in page `f` of a page with entry `e`. -/
def copyEntry (f : Nat) (e : UInt64) : UInt64 :=
  physAddr f ||| (e &&& 0xfff) ||| pteP

section Entry

variable {f : Nat} {e : UInt64}

theorem and_fff_lt (e : UInt64) : (e &&& 0xfff).toNat < pgsize := by
  rw [UInt64.toNat_and]
  exact lt_of_le_of_lt Nat.and_le_right (by decide)

theorem frame_copyEntry (hf : f < 2 ^ 52) : frame (copyEntry f e) = f := by
  have hlow : ((e &&& 0xfff) ||| pteP).toNat < pgsize := by
    rw [UInt64.toNat_or]
    exact Nat.or_lt_two_pow (n := 12) (and_fff_lt e) (by decide)
  rw [copyEntry, UInt64.or_assoc]
  exact frame_physAddr_or hf hlow

end Entry

/-- The page at `i` of `root` was copied to a new page, mapped at `i` of `d`. -/
def ShowsCopy (m m' : Machine) (root d i : Nat) : Prop :=
  ∃ f e, flat m root i = some e ∧ Shows m m' d i (copyEntry f e) (m.mem (frame e))

section Copy

variable {m m' : Machine} {root d i : Nat} {E : VmStop → Prop}

/-- `kalloc` takes the first free page. -/
theorem kalloc_takes (h : Forest m []) :
    wp kalloc (fun r m' => r = none ∧ m' = m ∧ m.free = [] ∨
      ∃ f fs, r = some f ∧ m.free = f :: fs ∧ m' = { m with free := fs } ∧
        Turns m m' [] [Holding.page f]) E m := by
  have hlist : wp kalloc (fun r m' => r = none ∧ m.free = [] ∨
      ∃ f fs, r = some f ∧ m.free = f :: fs ∧ m' = { m with free := fs }) E m :=
    wp_kalloc (fun hempty => Or.inl ⟨rfl, hempty⟩)
      fun f fs hcons => Or.inr ⟨f, fs, rfl, hcons, rfl⟩
  refine wp_mono (wp_and hlist (kalloc_turns h)) ?_ fun _ hbad => hbad
  rintro r m' ⟨⟨rfl, hempty⟩ | ⟨f, fs, rfl, hcons, rfl⟩, ⟨hr, hm⟩ | ⟨f', hr, htake⟩⟩
  · exact Or.inl ⟨rfl, hm, hempty⟩
  · cases hr
  · cases hr
  · cases hr
    exact Or.inr ⟨f, fs, rfl, hcons, rfl, htake⟩

/-- One round of `copyuvm`: there is no page to copy to, or no table and the page is lost, or the
page is copied. -/
theorem copyPage_turns (h : Forest m ([userTree d] ++ [userTree root])) (hmod : i % pgsize = 0)
    (hle : pgsize ≤ i) (hlt : i < 2 ^ 47) (hsome : flat m root i ≠ none)
    (hnone : flat m d i = none) (htables : Tables m d i) :
    wp (copyPage d root i)
      (fun more m' => more = false ∧ m' = m ∧ m.free = [] ∨
        more = false ∧ (0 < m.free.length ∧ m.free.length < 1 + gaps i) ∧
          (∃ f, Turns m m' [userTree d] [userTree d, Holding.page f]) ∨
        more = true ∧ Turns m m' [userTree d] [userTree d] ∧ ShowsCopy m m' root d i ∧
          Tables m' d (i + pgsize) ∧ m'.free.length + 1 + gaps i = m.free.length) E m := by
  obtain ⟨e, he⟩ := Option.ne_none_iff_exists'.mp hsome
  -- the entry is looked up
  obtain ⟨t, ht, hpresent, hpte⟩ : ∃ t, nodeAt m.child root (tablePath i) = some t ∧
      present (m.pte t (ptx i)) = true ∧ m.pte t (ptx i) = e := by
    unfold flat at he
    obtain ⟨t, ht, hte⟩ := Option.bind_eq_some_iff.mp he
    split at hte
    · exact ⟨t, ht, ‹_›, Option.some.inj hte⟩
    · cases hte
  have hwalk : walkpgdir root i false m = .ok (some (t, ptx i), m) := by
    rw [walkpgdir_lookup, ht]
    rfl
  unfold copyPage
  rw [wp_bind, wp_of_ok hwalk]
  simp only
  rw [wp_bind, wp_get, if_pos hpresent, hpte]
  have hd : Forest m [userTree d] := h.left
  have hnil : Forest m ([] ++ [userTree d, userTree root]) := h
  refine wp_bind_of (kalloc_takes (hnil.left (K := []))) ?_
  rintro r m₁ (⟨rfl, rfl, hempty⟩ | ⟨f, fs, rfl, hcons, rfl, htake⟩)
  · exact Or.inl ⟨rfl, rfl, hempty⟩
  · have ht₁ : Turns m { m with free := fs } [userTree d] [Holding.page f, userTree d] :=
      htake.beside hd
    have hfill := Turns.fill (ht₁.forest.left (K := [Holding.page f]))
      (m.mem (frame e))
    have ht₂ := (ht₁.trans (hfill.beside ht₁.forest)).perm (List.Perm.refl _)
      (List.Perm.swap _ _ [])
    have hview₂ := (htake.view_right (hnil.left (K := [userTree d]))).trans
      (hfill.view_right ht₁.forest)
    have hok : m.Freeable f := ht₁.freeable.mp
      (ht₁.forest.ok f (held_cons.mpr (Or.inl rfl)))
    generalize hm₂ : ({ m with free := fs } : Machine).setPage f (m.mem (frame e)) = m₂
      at hfill ht₂ hview₂
    have hnone₂ : flat m₂ d i = none := by
      rw [← view_eq_none, hview₂ i hlt, view_eq_none, hnone]
    have hpage₂ : m₂.mem f = m.mem (frame e) := by
      rw [← hm₂, Machine.setPage_mem_self]
    have hfree₂ : m₂.free = fs := by rw [← hm₂]; rfl
    have htables₂ : Tables m₂ d i := by
      refine htables.of_mem ?_
      intro s hs
      rw [← hm₂]
      refine Machine.setPage_mem_of_ne _ _ ?_
      rintro rfl
      refine (hd.space.mono (show 3 ≤ 4 by omega)).fresh s ?_ hs
      rw [hcons]
      exact List.mem_cons_self
    have hlen : m.free.length = fs.length + 1 := by
      rw [hcons, List.length_cons]
    simp only
    have hsource : ({ m with free := fs } : Machine).pte t (ptx i) = e := hpte
    rw [wp_bind, wp_modify, wp_bind, mappages_one hmod hlt, hsource]
    simp only
    rw [hm₂]
    have hcosts : wp (mapPage d i (physAddr f) (e &&& 0xfff)) _ (fun _ => True) m₂ :=
      mapPage_costs (ht₂.forest.space.mono (show 3 ≤ 4 by omega)) htables₂ hmod hle hlt trivial
    refine wp_mono (wp_and_right hcosts (mapPage_turns ht₂.forest hlt
      (fun hbad => absurd hnone₂ hbad) (copyEntry.eq_1 f e) (frame_copyEntry hok.lt))) ?_
      fun _ hbad => hbad
    rintro r m₃ ⟨hcost, -, ⟨rfl, ht₃, -⟩ | ⟨rfl, ht₃, hshows⟩⟩
    · rcases hcost with ⟨-, hfew⟩ | ⟨hbad, -⟩
      · refine Or.inr (Or.inl ⟨rfl, ⟨by omega, ?_⟩, f, ht₂.trans ht₃⟩)
        rw [hfree₂] at hfew
        omega
      · exact absurd hbad (by decide)
    · rcases hcost with ⟨hbad, -⟩ | ⟨-, htables₃, hcount⟩
      · exact absurd hbad (by decide)
      · refine Or.inr (Or.inr ⟨rfl, ht₂.trans ht₃, ⟨f, e, he, ?_⟩, htables₃, ?_⟩)
        · intro wa hwa
          rw [hshows wa hwa, hview₂ wa hwa, hpage₂]
        · rw [hfree₂] at hcount
          omega

theorem pagesFrom_succ (a n : Nat) : pagesFrom a (n + 1) = a :: pagesFrom (a + pgsize) n := by
  unfold pagesFrom
  rw [List.range_succ_eq_map, List.map_cons, List.map_map, Nat.zero_mul, Nat.add_zero]
  congr 1
  apply List.map_congr_left
  intro k _
  show a + (k + 1) * pgsize = a + pgsize + k * pgsize
  rw [Nat.succ_mul]
  omega

/-- The pages from `i` to `j` of `root` were copied to `d`. -/
def Copies (m m' : Machine) (root d i j : Nat) : Prop :=
  ∀ va, va < 2 ^ 47 → if i ≤ va ∧ va < j then
      ∃ f e x, view m root va = some (e, x) ∧ view m' d va = some (copyEntry f e, x)
    else view m' d va = view m d va

theorem ShowsCopy.copies (h : ShowsCopy m m' root d i) (hmod : i % pgsize = 0) :
    Copies m m' root d i (i + pgsize) := by
  obtain ⟨f, e, he, hshows⟩ := h
  intro va hva
  have hpage : va / pgsize = i / pgsize ↔ i ≤ va ∧ va < i + pgsize := by
    unfold pgsize at hmod ⊢
    omega
  rw [hshows va hva]
  by_cases hin : i ≤ va ∧ va < i + pgsize
  · rw [if_pos hin, if_pos (hpage.mpr hin)]
    refine ⟨f, e, m.mem (frame e), ?_, rfl⟩
    unfold view
    rw [flat_congr (hpage.mpr hin), he]
    rfl
  · rw [if_neg hin, if_neg fun hbad => hin (hpage.mp hbad)]

theorem Copies.trans {m₁ : Machine} {j k : Nat} (h : Copies m m₁ root d i j)
    (h' : Copies m₁ m' root d j k) (hsame : SameView m m₁ root) (hij : i ≤ j) (hjk : j ≤ k) :
    Copies m m' root d i k := by
  intro va hva
  have hfirst := h va hva
  have hsecond := h' va hva
  by_cases hlow : i ≤ va ∧ va < j
  · rw [if_pos hlow] at hfirst
    rw [if_neg (by omega)] at hsecond
    rw [if_pos (by omega), hsecond]
    exact hfirst
  · rw [if_neg hlow] at hfirst
    by_cases hhigh : j ≤ va ∧ va < k
    · rw [if_pos hhigh, hsame va hva] at hsecond
      rw [if_pos (by omega)]
      exact hsecond
    · rw [if_neg hhigh] at hsecond
      rw [if_neg (by omega), hsecond, hfirst]

/-- The loop of `copyuvm`, with `n` pages to go: how far it gets depends on the number of free
pages. -/
theorem copyPages_turns {n : Nat} (h : Forest m ([userTree d] ++ [userTree root]))
    (hmod : i % pgsize = 0) (hle : pgsize ≤ i) (htop : i + n * pgsize ≤ 2 ^ 47)
    (hsome : ∀ va, i ≤ va → va < i + n * pgsize → flat m root va ≠ none)
    (hnone : ∀ va, i ≤ va → va < 2 ^ 47 → flat m d va = none) (htables : Tables m d i) :
    wp (copyPages d root (pagesFrom i n))
      (fun done m' => done = false ∧ Turns m m' [userTree d] [userTree d] ∧
          (∃ k < n, m.free.length + imageCost i = imageCost (i + k * pgsize)) ∨
        done = false ∧ (∃ f, Turns m m' [userTree d] [userTree d, Holding.page f]) ∧
          (∃ k < n, imageCost (i + k * pgsize) < m.free.length + imageCost i ∧
            m.free.length + imageCost i < imageCost (i + k * pgsize + pgsize)) ∨
        done = true ∧ Turns m m' [userTree d] [userTree d] ∧
          Copies m m' root d i (i + n * pgsize) ∧
          m'.free.length + imageCost (i + n * pgsize) = m.free.length + imageCost i) E m := by
  induction n generalizing m i with
  | zero =>
    refine Or.inr (Or.inr ⟨rfl, Turns.refl h.left, ?_, ?_⟩)
    · intro va _
      rw [if_neg (by omega)]
    · rw [Nat.zero_mul, Nat.add_zero]
  | succ n ih =>
    have hnext : i + (n + 1) * pgsize = i + pgsize + n * pgsize := by
      rw [Nat.succ_mul]
      omega
    have hpos : 0 < pgsize := by decide
    have hcost := imageCost_succ hmod hle
    have hmod' : (i + pgsize) % pgsize = 0 := by
      rw [Nat.add_mod_right]
      exact hmod
    rw [pagesFrom_succ, copyPages]
    refine wp_bind_of (copyPage_turns h hmod hle (by omega) (hsome i (le_refl i) (by omega))
      (hnone i (le_refl i) (by omega)) htables) ?_
    rintro more m₁ (⟨rfl, rfl, hempty⟩ | ⟨rfl, hfew, hlost⟩ | ⟨rfl, ht, hcopy, htables₁, hcount⟩)
    · refine Or.inl ⟨rfl, Turns.refl h.left, 0, Nat.succ_pos n, ?_⟩
      rw [hempty, List.length_nil, Nat.zero_add, Nat.zero_mul, Nat.add_zero]
    · refine Or.inr (Or.inl ⟨rfl, hlost, 0, Nat.succ_pos n, ?_⟩)
      rw [Nat.zero_mul, Nat.add_zero]
      omega
    · have hsame := ht.view_right h
      have hcopies := hcopy.copies hmod
      have hrest := ih (m := m₁) (i := i + pgsize) (h.frame ht) hmod' (by omega) (by omega) ?_ ?_
        htables₁
      · refine wp_mono hrest ?_ fun _ hbad => hbad
        rintro done m₂ (⟨hdone, ht', k, hk, hexact⟩ | ⟨hdone, ⟨f, ht'⟩, k, hk, hbetween⟩ |
          ⟨hdone, ht', hcopies', hcount'⟩)
        · refine Or.inl ⟨hdone, ht.trans ht', k + 1, by omega, ?_⟩
          have hsum : i + (k + 1) * pgsize = i + pgsize + k * pgsize := by
            rw [Nat.succ_mul]
            omega
          rw [hsum, ← hexact]
          omega
        · refine Or.inr (Or.inl ⟨hdone, ⟨f, ht.trans ht'⟩, k + 1, by omega, ?_⟩)
          have hsum : i + (k + 1) * pgsize = i + pgsize + k * pgsize := by
            rw [Nat.succ_mul]
            omega
          rw [hsum]
          omega
        · refine Or.inr (Or.inr ⟨hdone, ht.trans ht', ?_, ?_⟩)
          · rw [hnext]
            exact hcopies.trans hcopies' hsame (by omega) (by omega)
          · rw [hnext]
            omega
      · intro va hva hva'
        rw [flat_ne_none_of_view (hsame va (by omega))]
        exact hsome va (by omega) (by omega)
      · intro va hva hva'
        have hold := hcopies va hva'
        rw [if_neg (by omega)] at hold
        rw [← view_eq_none, hold, view_eq_none]
        exact hnone va (by omega) hva'

end Copy

/-! ## copyuvm -/

/-- The page table `d` of `m'` is a copy of `root` of `m`. -/
def CopyOf (m m' : Machine) (root d : Nat) : Prop :=
  ∀ va, va < 2 ^ 47 → view m root va = none ∧ view m' d va = none ∨
    ∃ f e x, view m root va = some (e, x) ∧ view m' d va = some (copyEntry f e, x)

/-- The last of the pages of a memory of size `sz`, or `PGSIZE`. -/
def imageEnd (sz : Nat) : Nat :=
  max pgsize (pgroundup sz)

section Copyuvm

-- its loops are reasoned about, never run
attribute [local irreducible] freevm

variable {m m' : Machine} {root sz : Nat} {E : VmStop → Prop}

theorem pagesBelow_image (hsz : sz < 2 ^ 32) :
    ∃ n, pagesBelow pgsize (sz % 2 ^ 32) = pagesFrom pgsize n ∧
      imageEnd sz = pgsize + n * pgsize := by
  refine ⟨_, rfl, ?_⟩
  rw [Nat.mod_eq_of_lt hsz]
  unfold imageEnd
  rw [pgroundup_of_le (by omega)]
  unfold pgsize
  omega

/-- `copyuvm` makes a copy, or gives all pages back, or loses one of them. -/
theorem copyuvm_turns (h : Forest m [userTree root]) (hx : PagesExact m root sz)
    (hsz : sz < 2 ^ 32) (hE : m.free = [] → E .nullPointer) :
    wp (copyuvm root sz)
      (fun r m' => (∃ d, r = some d ∧ Turns m m' [] [userTree d] ∧ CopyOf m m' root d ∧
          1 + imageCost (imageEnd sz) ≤ m.free.length) ∨
        r = none ∧ Turns m m' [] [] ∧ (∃ P, P % pgsize = 0 ∧ pgsize ≤ P ∧ P < imageEnd sz ∧
          m.free.length = 1 + imageCost P) ∨
        r = none ∧ (∃ f, Turns m m' [] [Holding.page f]) ∧
          (∃ P, P % pgsize = 0 ∧ pgsize ≤ P ∧ P < imageEnd sz ∧
            1 + imageCost P < m.free.length ∧ m.free.length < 1 + imageCost (P + pgsize))) E m := by
  have hnil : Forest m ([] ++ [userTree root]) := h
  obtain ⟨n, hpages, hend⟩ := pagesBelow_image hsz
  have hbase : imageCost pgsize = 0 := if_pos (le_refl _)
  have hroundup := pgroundup_of_le (show sz ≤ 2 ^ 47 by omega)
  have hendle : imageEnd sz ≤ 2 ^ 47 := by
    unfold imageEnd
    unfold pgsize
    omega
  have hpage : ∀ k < n, (pgsize + k * pgsize) % pgsize = 0 ∧ pgsize ≤ pgsize + k * pgsize ∧
      pgsize + k * pgsize < imageEnd sz := by
    intro k hk
    rw [hend]
    unfold pgsize
    omega
  unfold copyuvm
  refine wp_bind_of (setupkvm_turns (hnil.left (K := [])) hE) ?_
  rintro d m₁ ⟨ht₁, hempty, hcount₁⟩
  have hforest₁ : Forest m₁ ([userTree d] ++ [userTree root]) := hnil.frame ht₁
  have hsame₁ := ht₁.view_right hnil
  rw [hpages]
  refine wp_bind_of (copyPages_turns hforest₁ (by decide) (le_refl _) (by omega) ?_ ?_
    hempty.tables) ?_
  · intro va hva hva'
    rw [← hend] at hva'
    rw [flat_ne_none_of_view (hsame₁ va (by omega)), hx va (by omega)]
    unfold imageEnd at hva'
    omega
  · intro va _ hva
    exact hempty.flat va hva
  rintro done m₂ (⟨rfl, ht₂, k, hk, hexact⟩ | ⟨rfl, ⟨f, ht₂⟩, k, hk, hbetween⟩ |
    ⟨rfl, ht₂, hcopies, hcount₂⟩)
  · rw [if_neg (by decide)]
    refine wp_bind_of (freevm_returns ht₂.forest) ?_
    intro _ m₃ hret
    refine Or.inr (Or.inl ⟨rfl, ht₁.trans (ht₂.trans hret.toTurns), _, (hpage k hk).1,
      (hpage k hk).2.1, (hpage k hk).2.2, ?_⟩)
    omega
  · rw [if_neg (by decide)]
    refine wp_bind_of (freevm_returns (ht₂.forest.left (K := [userTree d]))) ?_
    intro _ m₃ hret
    refine Or.inr (Or.inr ⟨rfl, ⟨f, ht₁.trans (ht₂.trans (hret.toTurns.beside ht₂.forest))⟩, _,
      (hpage k hk).1, (hpage k hk).2.1, (hpage k hk).2.2, ?_⟩)
    omega
  · rw [if_pos rfl]
    refine Or.inl ⟨d, rfl, ht₁.trans ht₂, ?_, ?_⟩
    · intro va hva
      have hold := hcopies va hva
      by_cases hin : pgsize ≤ va ∧ va < pgsize + n * pgsize
      · rw [if_pos hin, hsame₁ va hva] at hold
        exact Or.inr hold
      · rw [if_neg hin] at hold
        refine Or.inl ⟨?_, ?_⟩
        · rw [view_eq_none]
          by_contra hbad
          refine hin ?_
          rw [← hend]
          have hrange := (hx va hva).mp hbad
          unfold imageEnd
          omega
        · rw [hold, view_eq_none]
          exact hempty.flat va hva
    · rw [hend]
      omega

end Copyuvm

end Xv6.Vm
