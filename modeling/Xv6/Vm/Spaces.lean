import Xv6.Vm.Holdings

/-!
# Virtual memory - Whole address spaces

What the functions of `vm.c` do to the pages of an address space and to the free list,
for user addresses.

Main results:

- Theorem {lit}`allocuvm_turns`, {lit}`deallocuvm_turns`: pages move between the tree and
  the free list.
- Theorem {lit}`freevm_returns`: the pages of the user half go back to the free list.
-/

namespace Xv6.Vm

open Foundations

/-! ## User address spaces -/

/-- The user half of the page table in page `root`, with all it maps. -/
def userTree (root : Nat) : Holding :=
  .tree root (UserPath 4)

section User

variable {m m' : Machine} {root f : Nat} {H : List Holding} {E : VmStop → Prop}

theorem held_userTree {g : Nat} :
    Held m [userTree root] g ↔ Reaches m.child root (UserPath 4) g := by
  rw [held_cons]
  exact or_iff_left not_held_nil

theorem Forest.space (h : Forest m (userTree root :: H)) : Space 4 m root := by
  refine ⟨(h.whole _ List.mem_cons_self).2, h.nodup, ?_, h.freeable⟩
  intro g hg hbad
  exact h.fresh g hg (held_cons.mpr (Or.inl hbad))

theorem Forest.of_space (hs : Space 4 m root) (honce : m.refreed = false)
    (hok : ∀ g, Reaches m.child root (UserPath 4) g → m.Freeable g) :
    Forest m [userTree root] := by
  refine ⟨?_, List.pairwise_singleton _ _, ?_, ?_, hs.nodup, hs.freeable, honce⟩
  · intro k hk
    rw [List.mem_singleton.mp hk]
    exact ⟨userPath_tailClosed 4, hs.unshared⟩
  · intro g hg hbad
    exact hs.fresh g hg (held_userTree.mp hbad)
  · intro g hg
    exact hok g (held_userTree.mp hg)

/-- What only moves pages between the tree and the free list. -/
theorem Turns.of_moves (h : Forest m [userTree root]) (hs : Space 4 m' root)
    (hm : Moves 4 m m' root) (hsaves : Saves 4 m m' root) :
    Turns m m' [userTree root] [userTree root] := by
  refine ⟨Forest.of_space hs (hm.refreed.trans h.once) ?_, hm.kend, hm.kpdpt, ?_, ?_⟩
  · intro g hg
    rw [hm.freeable]
    rcases hm.pages g (Or.inl hg) with hg | hg
    · exact h.ok g (held_userTree.mpr hg)
    · exact h.freeable g hg
  · intro g
    rw [held_userTree, held_userTree, or_comm, or_comm (a := g ∈ m.free)]
    exact ⟨hm.pages g, hsaves g⟩
  · intro g _ hfree hheld
    exact hm.mem g (fun hbad => hheld (held_userTree.mpr hbad)) hfree

/-- A held page becomes a page of the tree. -/
theorem Turns.of_mapped {va : Nat} {e : UInt64}
    (h : Forest m [userTree root, Holding.page f]) (hm : Mapped m m' root va f e) :
    Turns m m' [userTree root, Holding.page f] [userTree root] := by
  have hheld : ∀ g, Held m [userTree root, Holding.page f] g ↔
      Reaches m.child root (UserPath 4) g ∨ g = f := by
    intro g
    rw [held_cons, held_page]
    exact Iff.rfl
  have hfreeable : ∀ g, m'.Freeable g ↔ m.Freeable g := by
    intro g
    unfold Machine.Freeable
    rw [hm.kend]
  refine ⟨Forest.of_space hm.space (hm.refreed.trans h.once) ?_, hm.kend, hm.kpdpt, ?_, ?_⟩
  · intro g hg
    rw [hfreeable]
    rcases hm.pages g (Or.inl hg) with hg | hg | hg
    · exact h.ok g ((hheld g).mpr (Or.inr hg))
    · exact h.ok g ((hheld g).mpr (Or.inl hg))
    · exact h.freeable g hg
  · intro g
    rw [held_userTree, hheld]
    constructor
    · intro hg
      rcases hm.pages g hg.symm with hg | hg | hg
      · exact Or.inr (Or.inr hg)
      · exact Or.inr (Or.inl hg)
      · exact Or.inl hg
    · intro hg
      refine (hm.saves g ?_).symm
      rcases hg with hg | hg | hg
      · exact Or.inr (Or.inr hg)
      · exact Or.inr (Or.inl hg)
      · exact Or.inl hg
  · intro g _ hfree hnot
    rw [hheld, not_or] at hnot
    exact hm.mem g hnot.1 hfree

/-- Page `f` is shown at `a` with entry `e`, everything else is as before. -/
def Shows (m m' : Machine) (root a : Nat) (e : UInt64) (x : Page) : Prop :=
  ∀ wa, wa < 2 ^ 47 → view m' root wa =
    if wa / pgsize = a / pgsize then some (e, x) else view m root wa

/-- The pages at the given addresses are gone, everything else is as before. -/
def Hides (m m' : Machine) (root : Nat) (pages : List Nat) : Prop :=
  ∀ wa, wa < 2 ^ 47 → view m' root wa =
    if pgrounddown wa ∈ pages then none else view m root wa

theorem view_eq_none {va : Nat} : view m root va = none ↔ flat m root va = none := by
  unfold view
  rw [Option.map_eq_none_iff]

/-- What hides pages after pages have been shown there. -/
theorem Hides.of_same {m'' : Machine} {pages : List Nat}
    (h : ∀ wa, wa < 2 ^ 47 → pgrounddown wa ∉ pages → view m' root wa = view m root wa)
    (h' : Hides m' m'' root pages) : Hides m m'' root pages := by
  intro wa hwa
  rw [h' wa hwa]
  by_cases hin : pgrounddown wa ∈ pages
  · rw [if_pos hin, if_pos hin]
  · rw [if_neg hin, if_neg hin, h wa hwa hin]

/-- A held page is mapped, or there are some new tables. -/
theorem mapPage_turns {a : Nat} {pa perm e : UInt64}
    (h : Forest m [userTree root, Holding.page f]) (ha : a < 2 ^ 47)
    (hE : flat m root a ≠ none → E .remap)
    (he : e = pa ||| perm ||| pteP) (hframe : frame e = f) :
    wp (mapPage root a pa perm)
      (fun r m' => (Blank m root → Blank m' root) ∧
        (r = -1 ∧ Turns m m' [userTree root, Holding.page f] [userTree root, Holding.page f] ∧
            SameView m m' root ∨
          r = 0 ∧ Turns m m' [userTree root, Holding.page f] [userTree root] ∧
            Shows m m' root a e (m.mem f))) E m := by
  have hpage : Held m [userTree root, Holding.page f] f :=
    held_cons.mpr (Or.inr (held_page.mpr rfl))
  have hnew : ¬Reaches m.child root (UserPath 4) f := by
    intro hbad
    exact h.not_held_right (K := [userTree root]) (held_userTree.mpr hbad) (held_page.mpr rfl)
  refine wp_mono (mapPage_fresh h.space ha hE he hframe hnew
    fun hbad => h.fresh f hbad hpage) ?_ fun _ hbad => hbad
  rintro r m' (⟨rfl, hext, hsaves, hview⟩ | ⟨rfl, hmap⟩)
  · refine ⟨hext.slots.blank, Or.inl ⟨rfl, ?_, hview⟩⟩
    exact (Turns.of_moves (h.left (K := [userTree root])) hext.space hext.moves hsaves).beside h
  · exact ⟨hmap.blank, Or.inr ⟨rfl, Turns.of_mapped h hmap, hmap.views⟩⟩

/-- Unmapping gives pages of the tree back. -/
theorem deallocuvm_turns {oldsz newsz : Nat} (h : Forest m [userTree root])
    (hlt : newsz < oldsz) (htop : oldsz ≤ 2 ^ 47) :
    wp (deallocuvm root oldsz newsz)
      (fun r m' => r = newsz ∧ Turns m m' [userTree root] [userTree root] ∧
        Hides m m' root (pagesBelow (pgroundup newsz) oldsz)) E m := by
  refine wp_mono (deallocuvm_spec h.space hlt htop ?_) ?_ fun _ hbad => hbad
  · rintro ⟨a, ha, e, he, hbad⟩
    rw [mem_pagesBelow (pgroundup_mod newsz)] at ha
    exact absurd (h.ok _ (held_userTree.mpr (reaches_leaf (by omega) he))) hbad
  · rintro r m' ⟨hr, hcleared⟩
    exact ⟨hr, Turns.of_moves h hcleared.space hcleared.moves hcleared.saves, hcleared.views⟩

/-- A change elsewhere leaves the pages and tables as they are. -/
theorem Turns.mem_tree {K K' : List Holding} (ht : Turns m m' K K')
    (h : Forest m (K ++ [userTree root])) {s : Nat} (hs : Reaches m.child root (UserPath 4) s) :
    m'.mem s = m.mem s :=
  ht.mem_right h (held_userTree.mpr hs)

theorem Turns.blank_right {K K' : List Holding} (ht : Turns m m' K K')
    (h : Forest m (K ++ [userTree root])) (hb : Blank m root) : Blank m' root :=
  SameSlots.blank (sameSlots_of_mem (fun _ hs => ht.mem_tree h hs) (show 3 ≤ 4 by omega)) hb

theorem Turns.view_right {K K' : List Holding} (ht : Turns m m' K K')
    (h : Forest m (K ++ [userTree root])) : SameView m m' root := by
  intro va hva
  refine view_of_flat ((sameSlots_of_mem (fun _ hs => ht.mem_tree h hs)
    (show 3 ≤ 4 by omega)).sameFlat va hva) ?_
  intro e he
  exact ht.mem_tree h (reaches_leaf hva he)

/-- A page that was taken is filled. -/
theorem Turns.fill (h : Forest m [Holding.page f]) (x : Page) :
    Turns m (m.setPage f x) [Holding.page f] [Holding.page f] := by
  refine Turns.setPage h ?_ (fun _ => held_page.mpr rfl) x
  intro k hk
  rw [List.mem_singleton.mp hk]
  exact id

/-- A page is given back beside other holdings. -/
theorem kfree_beside (h : Forest m (Holding.page f :: H)) :
    wp (kfree f) (fun _ m' => Turns m m' (Holding.page f :: H) H) E m := by
  refine wp_mono (kfree_returns (h.left (K := [Holding.page f]))) ?_ fun _ hbad => hbad
  intro _ m' ht
  exact ht.toTurns.beside h

/-- One round of `allocuvm`. -/
theorem allocPage_turns {oldsz newsz a : Nat} (h : Forest m [userTree root])
    (ha : a ∈ pagesBelow (pgroundup oldsz) newsz) (hle : oldsz ≤ newsz) (htop : newsz ≤ 2 ^ 47)
    (hE : flat m root a ≠ none → E .remap) :
    wp (allocPage root oldsz newsz a)
      (fun more m' => Turns m m' [userTree root] [userTree root] ∧
        (more = false ∧ Hides m m' root (pagesBelow (pgroundup oldsz) newsz) ∨
          more = true ∧ (Blank m root → Blank m' root) ∧
            ∃ f, Shows m m' root a (userEntry f) (Bytes.zero pgsize))) E m := by
  have hround := le_pgroundup (hle.trans htop)
  have hpage := (mem_pagesBelow (pgroundup_mod oldsz)).mp ha
  have hlt : a < 2 ^ 47 := by omega
  have hless : oldsz < newsz := by omega
  unfold allocPage
  refine wp_bind_of (kalloc_turns (h.left (K := []))) ?_
  rintro r m₁ (⟨rfl, rfl⟩ | ⟨f, rfl, htake⟩)
  · refine wp_bind_of (deallocuvm_turns h hless htop) ?_
    rintro _ m₂ ⟨-, ht, hhides⟩
    exact ⟨ht, Or.inl ⟨rfl, hhides⟩⟩
  · have ht₁ : Turns m m₁ [userTree root] [Holding.page f, userTree root] := htake.beside h
    have hfill := Turns.fill (ht₁.forest.left (K := [Holding.page f])) (Bytes.zero pgsize)
    have ht₂ := (ht₁.trans (hfill.beside ht₁.forest)).perm (List.Perm.refl _)
      (List.Perm.swap _ _ [])
    have hview₂ := (htake.view_right h).trans (hfill.view_right ht₁.forest)
    have hok : m.Freeable f := ht₁.freeable.mp
      (ht₁.forest.ok f (held_cons.mpr (Or.inl rfl)))
    have hE₂ : flat (m₁.setPage f (Bytes.zero pgsize)) root a ≠ none → E .remap := by
      rw [ne_eq, ← view_eq_none, hview₂ a hlt, view_eq_none]
      exact hE
    simp only
    rw [wp_bind, wp_modify, mappages_one hpage.1 hlt]
    refine wp_bind_of (mapPage_turns ht₂.forest hlt hE₂ (userEntry.eq_1 f)
      (frame_userEntry hok.lt)) ?_
    rintro r m₃ ⟨hblank, ⟨rfl, ht₃, hview₃⟩ | ⟨rfl, ht₃, hshows⟩⟩
    · -- no table: what was mapped is unmapped, and the page given back by itself
      rw [if_pos (by decide)]
      refine wp_bind_of (deallocuvm_turns (ht₃.forest.left (K := [userTree root])) hless htop) ?_
      rintro _ m₄ ⟨-, ht₄, hhides⟩
      have hall := (ht₂.trans (ht₃.trans (ht₄.beside ht₃.forest))).perm (List.Perm.refl _)
        (List.Perm.swap _ _ [])
      have hkfree := kfree_returns (E := E) (hall.forest.left (K := [Holding.page f]))
      refine wp_bind_of hkfree ?_
      intro _ m₅ hret
      refine ⟨hall.trans (hret.toTurns.beside hall.forest), Or.inl ⟨rfl, ?_⟩⟩
      have hlast : SameView m₄ m₅ root := hret.toTurns.view_right hall.forest
      have hhides' := Hides.of_same (fun wa hwa _ => (hview₂.trans hview₃) wa hwa) hhides
      intro wa hwa
      rw [hlast wa hwa, hhides' wa hwa]
    · rw [if_neg (by decide), wp_pure]
      refine ⟨ht₂.trans ht₃, Or.inr ⟨rfl, ?_, f, ?_⟩⟩
      · intro hb
        exact hblank (hfill.blank_right ht₁.forest (htake.blank_right h hb))
      · intro wa hwa
        rw [hshows wa hwa, hview₂ wa hwa, Machine.setPage_mem_self]

/-- New zeroed pages are shown at the given addresses. -/
def Adds (m m' : Machine) (root : Nat) (pages : List Nat) : Prop :=
  ∀ wa, wa < 2 ^ 47 →
    if pgrounddown wa ∈ pages then ∃ f, view m' root wa = some (userEntry f, Bytes.zero pgsize)
    else view m' root wa = view m root wa

theorem allocuvmLoop_turns {oldsz newsz : Nat} {rest : List Nat} (h : Forest m [userTree root])
    (hsub : ∀ a ∈ rest, a ∈ pagesBelow (pgroundup oldsz) newsz) (hnodup : rest.Nodup)
    (hle : oldsz ≤ newsz) (htop : newsz ≤ 2 ^ 47)
    (hE : ∀ a ∈ rest, flat m root a ≠ none → E .remap) :
    wp (allocuvmLoop root oldsz newsz rest)
      (fun r m' => Turns m m' [userTree root] [userTree root] ∧
        (r = 0 ∧ Hides m m' root (pagesBelow (pgroundup oldsz) newsz) ∨
          r = newsz ∧ (Blank m root → Blank m' root) ∧ Adds m m' root rest)) E m := by
  have hpages : ∀ {a}, a ∈ pagesBelow (pgroundup oldsz) newsz → a % pgsize = 0 ∧ a < 2 ^ 47 := by
    intro a ha
    have hpage := (mem_pagesBelow (pgroundup_mod oldsz)).mp ha
    exact ⟨hpage.1, by omega⟩
  induction rest generalizing m with
  | nil =>
    rw [allocuvmLoop, wp_pure]
    refine ⟨Turns.refl h, Or.inr ⟨rfl, id, ?_⟩⟩
    intro wa _
    rw [if_neg List.not_mem_nil]
  | cons a rest ih =>
    have ha := hsub a List.mem_cons_self
    have hmod := (hpages ha).1
    rw [List.nodup_cons] at hnodup
    rw [allocuvmLoop]
    refine wp_bind_of (allocPage_turns h ha hle htop (hE a List.mem_cons_self)) ?_
    rintro more m₁ ⟨ht, ⟨rfl, hhides⟩ | ⟨rfl, hblank, f, hshows⟩⟩
    · exact ⟨ht, Or.inl ⟨rfl, hhides⟩⟩
    · have hout : ∀ wa, wa < 2 ^ 47 → pgrounddown wa ≠ a → view m₁ root wa = view m root wa := by
        intro wa hwa hne
        rw [hshows wa hwa, if_neg]
        intro hbad
        exact hne ((pgrounddown_eq_iff hmod).mpr hbad)
      have hE₁ : ∀ b ∈ rest, flat m₁ root b ≠ none → E .remap := by
        intro b hb
        have hbpage := hpages (hsub b (List.mem_cons_of_mem a hb))
        have hne : pgrounddown b ≠ a := by
          rw [(pgrounddown_eq_iff hbpage.1).mpr rfl]
          rintro rfl
          exact hnodup.1 hb
        rw [ne_eq, ← view_eq_none, hout b hbpage.2 hne, view_eq_none]
        exact hE b (List.mem_cons_of_mem a hb)
      refine wp_mono (ih ht.forest (fun b hb => hsub b (List.mem_cons_of_mem a hb)) hnodup.2 hE₁)
        ?_ fun _ hbad => hbad
      rintro r m₂ ⟨ht', ⟨hr, hhides⟩ | ⟨hr, hblank', hadds⟩⟩
      · refine ⟨ht.trans ht', Or.inl ⟨hr, Hides.of_same ?_ hhides⟩⟩
        intro wa hwa hnot
        refine hout wa hwa ?_
        intro hbad
        rw [hbad] at hnot
        exact hnot ha
      · refine ⟨ht.trans ht', Or.inr ⟨hr, fun hb => hblank' (hblank hb), ?_⟩⟩
        intro wa hwa
        have hrest := hadds wa hwa
        by_cases hin : pgrounddown wa ∈ rest
        · rw [if_pos hin] at hrest
          rw [if_pos (List.mem_cons_of_mem a hin)]
          exact hrest
        · rw [if_neg hin] at hrest
          by_cases heq : pgrounddown wa = a
          · rw [if_pos (by rw [heq]; exact List.mem_cons_self), hrest, hshows wa hwa,
              if_pos ((pgrounddown_eq_iff hmod).mp heq)]
            exact ⟨f, rfl⟩
          · rw [if_neg fun hbad => (List.mem_cons.mp hbad).elim heq hin, hrest,
              hout wa hwa heq]

/-- `allocuvm` moves pages from the free list into the tree, or none at all. -/
theorem allocuvm_turns {oldsz newsz : Nat} (h : Forest m [userTree root])
    (htop : newsz ≤ 2 ^ 47 ∨ kernbase ≤ newsz) (hle : oldsz ≤ 2 ^ 47)
    (hE : ∀ a ∈ pagesBelow (pgroundup oldsz) newsz, flat m root a ≠ none → E .remap) :
    wp (allocuvm root oldsz newsz)
      (fun r m' => Turns m m' [userTree root] [userTree root] ∧
        (r = 0 ∧ (SameView m m' root ∨ Hides m m' root (pagesBelow (pgroundup oldsz) newsz)) ∨
          newsz < kernbase ∧ r = max oldsz newsz ∧ (Blank m root → Blank m' root) ∧
            Adds m m' root (pagesBelow (pgroundup oldsz) newsz))) E m := by
  unfold allocuvm
  by_cases hkern : newsz ≥ kernbase
  · rw [if_pos hkern, wp_pure]
    exact ⟨Turns.refl h, Or.inl ⟨rfl, Or.inl SameView.refl⟩⟩
  · rw [if_neg hkern]
    have htop := htop.resolve_right hkern
    by_cases hlt : newsz < oldsz
    · have hround := le_pgroundup hle
      rw [if_pos hlt, wp_pure]
      refine ⟨Turns.refl h, Or.inr ⟨by omega, by omega, id, ?_⟩⟩
      intro wa _
      rw [if_neg]
      rw [mem_pagesBelow (pgroundup_mod oldsz)]
      omega
    · rw [if_neg hlt]
      refine wp_mono
        (allocuvmLoop_turns h (fun _ ha => ha) (pagesFrom_nodup _ _) (by omega) htop hE)
        ?_ fun _ hbad => hbad
      rintro r m' ⟨ht, ⟨hr, hhides⟩ | ⟨hr, hblank, hadds⟩⟩
      · exact ⟨ht, Or.inl ⟨hr, Or.inr hhides⟩⟩
      · exact ⟨ht, Or.inr ⟨by omega, by omega, hblank, hadds⟩⟩

end User

/-! ## Making and freeing address spaces -/

section Whole

variable {m m' : Machine} {root t f : Nat} {H : List Holding} {E : VmStop → Prop}
  {indices : List Index} {P : List Index → Prop}

/-- Paths that start at one of the given entries of the root. -/
def Under (indices : List Index) (P : List Index → Prop) (p : List Index) : Prop :=
  p = [] ∨ ∃ q i, p = q ++ [i] ∧ i ∈ indices ∧ P q

/-- Paths of at most `d` steps. -/
def Below (d : Nat) (p : List Index) : Prop :=
  p.length ≤ d

theorem below_tailClosed (d : Nat) : TailClosed (Below d) := by
  intro i p h
  unfold Below at h ⊢
  rw [List.length_cons] at h
  omega

theorem below_succ (d : Nat) : Below (d + 1) = Under (List.finRange 512) (Below d) := by
  funext p
  apply propext
  rcases List.eq_nil_or_concat p with rfl | ⟨q, i, rfl⟩
  · exact ⟨fun _ => Or.inl rfl, fun _ => Nat.zero_le _⟩
  · rw [List.concat_eq_append]
    constructor
    · intro h
      unfold Below at h
      rw [List.length_append, List.length_singleton] at h
      exact Or.inr ⟨q, i, rfl, List.mem_finRange i, Nat.le_of_succ_le_succ h⟩
    · rintro (hbad | ⟨q', i', heq, _, h⟩)
      · exact absurd hbad (List.append_ne_nil_of_right_ne_nil q (List.cons_ne_nil i []))
      · unfold Below at h ⊢
        rw [heq, List.length_append, List.length_singleton]
        exact Nat.succ_le_succ h

theorem userPath_eq_under : UserPath 4 = Under userIndices (Below 3) := by
  funext p
  apply propext
  rcases List.eq_nil_or_concat p with rfl | ⟨q, i, rfl⟩
  · exact ⟨fun _ => Or.inl rfl, fun _ => ⟨Nat.zero_le _, nofun⟩⟩
  · rw [List.concat_eq_append]
    have hmem : i ∈ userIndices ↔ i.val < 256 := by
      unfold userIndices
      rw [List.mem_filter, decide_eq_true_eq]
      exact and_iff_right (List.mem_finRange i)
    constructor
    · rintro ⟨hlen, hlast⟩
      rw [List.length_append, List.length_singleton] at hlen
      refine Or.inr ⟨q, i, rfl, hmem.mpr (hlast i ?_), Nat.le_of_succ_le_succ hlen⟩
      rw [List.getLast?_append, List.getLast?_singleton]
      rfl
    · rintro (hbad | ⟨q', i', heq, hi, h⟩)
      · exact absurd hbad (List.append_ne_nil_of_right_ne_nil q (List.cons_ne_nil i []))
      · rcases List.append_inj' heq rfl with ⟨rfl, hone⟩
        rw [List.cons.injEq] at hone
        rcases hone with ⟨rfl, _⟩
        refine ⟨?_, ?_⟩
        · rw [List.length_append, List.length_singleton]
          exact Nat.succ_le_succ h
        · intro j hj
          rw [List.getLast?_append, List.getLast?_singleton] at hj
          cases hj
          exact hmem.mp hi

/-- The trees that entries of `t` point to. -/
def kids (m : Machine) (t : Nat) (P : List Index → Prop) (indices : List Index) : List Holding :=
  (indices.filterMap (m.child t)).map fun s => .tree s P

theorem held_kids : Held m (kids m t P indices) f ↔
    ∃ i ∈ indices, ∃ s, m.child t i = some s ∧ Reaches m.child s P f := by
  constructor
  · rintro ⟨k, hk, hf⟩
    rcases List.mem_map.mp hk with ⟨s, hs, rfl⟩
    rcases List.mem_filterMap.mp hs with ⟨i, hi, his⟩
    exact ⟨i, hi, s, his, hf⟩
  · rintro ⟨i, hi, s, his, hf⟩
    exact ⟨_, List.mem_map.mpr ⟨s, List.mem_filterMap.mpr ⟨i, hi, his⟩, rfl⟩, hf⟩

/-- A path into the tree below an entry. -/
theorem reaches_under {i : Index} {s : Nat} (hi : i ∈ indices) (hs : m.child t i = some s)
    {q : List Index} (hq : P q) (hf : nodeAt m.child s q = some f) :
    Under indices P (q ++ [i]) ∧ nodeAt m.child t (q ++ [i]) = some f :=
  ⟨Or.inr ⟨q, i, rfl, hi, hq⟩, by rw [nodeAt_concat hs, hf]⟩

theorem held_under : Held m [Holding.tree t (Under indices P)] f ↔
    Held m (Holding.page t :: kids m t P indices) f := by
  rw [held_cons, held_cons, or_iff_left not_held_nil, held_kids]
  constructor
  · rintro ⟨p, rfl | ⟨q, i, rfl, hi, hq⟩, hf⟩
    · cases hf
      exact Or.inl rfl
    · right
      rw [nodeAt_append, nodeAt, nodeAt, Option.bind_some] at hf
      cases hs : m.child t i with
      | none =>
        rw [hs, Option.bind_none] at hf
        cases hf
      | some s =>
        rw [hs, Option.bind_some] at hf
        exact ⟨i, hi, s, hs, q, hq, hf⟩
  · rintro (hf | ⟨i, hi, s, hs, q, hq, hf⟩)
    · exact ⟨[], Or.inl rfl, by rw [show f = t from hf]; rfl⟩
    · have hpath := reaches_under hi hs hq hf
      exact ⟨_, hpath.1, hpath.2⟩

/-- A tree is its root and the trees below. -/
theorem Forest.split (hP : TailClosed P) (hnodup : indices.Nodup)
    (h : Forest m [Holding.tree t (Under indices P)]) :
    Forest m (Holding.page t :: kids m t P indices) := by
  have hun := (h.whole _ List.mem_cons_self).2
  refine ⟨?_, List.pairwise_cons.mpr ⟨?_, ?_⟩, ?_, ?_, h.nodup, h.freeable, h.once⟩
  · intro k hk
    rcases List.mem_cons.mp hk with rfl | hk
    · trivial
    · rcases List.mem_map.mp hk with ⟨s, hs, rfl⟩
      rcases List.mem_filterMap.mp hs with ⟨i, hi, his⟩
      refine ⟨hP, ?_⟩
      intro q r g hq hr hqg hrg
      have hqpath := reaches_under hi his hq hqg
      have hrpath := reaches_under hi his hr hrg
      exact List.append_cancel_right (hun _ _ g hqpath.1 hrpath.1 hqpath.2 hrpath.2)
  · intro k hk g hg hkg
    rcases List.mem_map.mp hk with ⟨s, hs, rfl⟩
    rcases List.mem_filterMap.mp hs with ⟨i, hi, his⟩
    rcases hkg with ⟨q, hq, hqg⟩
    have hqpath := reaches_under hi his hq hqg
    have hroot : nodeAt m.child t [] = some g := by
      rw [show g = t from hg]
      rfl
    have hbad := hun _ _ g hqpath.1 (Or.inl rfl) hqpath.2 hroot
    exact List.append_ne_nil_of_right_ne_nil q (List.cons_ne_nil i []) hbad
  · unfold kids
    rw [List.pairwise_map, List.pairwise_filterMap]
    refine List.Pairwise.imp_of_mem ?_ hnodup
    rintro i j hi hj hij s hs r hr g ⟨q, hq, hqg⟩ ⟨q', hq', hqg'⟩
    have hqpath := reaches_under hi hs hq hqg
    have hqpath' := reaches_under hj hr hq' hqg'
    have hsame := hun _ _ g hqpath.1 hqpath'.1 hqpath.2 hqpath'.2
    have hone := (List.append_inj' hsame rfl).2
    rw [List.cons.injEq] at hone
    exact hij hone.1
  · intro g hg hbad
    exact h.fresh g hg (held_under.mpr hbad)
  · intro g hg
    exact h.ok g (held_under.mpr hg)

/-- The same pages, seen as other holdings. -/
theorem Returns.of_held {K K' : List Holding} (h : Forest m K')
    (hheld : ∀ g, Held m K g ↔ Held m K' g) : Returns m m K K' := by
  refine ⟨⟨h, rfl, rfl, ?_, fun _ _ _ _ => rfl⟩, List.suffix_refl _⟩
  intro g
  rw [hheld]

/-- Freeing a table and the trees below it. -/
theorem freeTable_returns {free : Nat → VmM Unit} (hP : TailClosed P) (hnodup : indices.Nodup)
    (hfree : ∀ m s, Forest m [Holding.tree s P] →
      wp (free s) (fun _ m' => Returns m m' [Holding.tree s P] []) E m)
    (h : Forest m [Holding.tree t (Under indices P)]) :
    wp (freeTable free indices t)
      (fun _ m' => Returns m m' [Holding.tree t (Under indices P)] []) E m := by
  have hsplit := Returns.of_held (h.split hP hnodup) fun g => held_under
  -- the table is not freed yet, and the trees of the entries to go are as they were
  have hloop := wp_forEach (E := E) (l := indices) (s := m)
    (f := fun i => do
      let m ← Exec.get
      if present (m.pte t i) then free (frame (m.pte t i)) else pure ())
    (fun rest m' => Returns m m' [Holding.tree t (Under indices P)]
      (Holding.page t :: kids m t P rest) ∧ m'.mem t = m.mem t) ?_ ⟨hsplit, rfl⟩
  · unfold freeTable
    refine wp_bind_of hloop ?_
    rintro _ m₁ ⟨hret, _⟩
    refine wp_mono (kfree_returns hret.forest) ?_ fun _ hbad => hbad
    intro _ m₂ hkfree
    exact hret.trans hkfree
  · rintro i rest m₁ ⟨hret, hmem⟩
    rw [wp_bind, wp_get]
    have hchild : m₁.child t i = m.child t i := Machine.child_of_mem_eq hmem i
    by_cases hpresent : present (m₁.pte t i) = true
    · rw [if_pos hpresent]
      have hsome : m.child t i = some (frame (m₁.pte t i)) := by
        rw [← hchild]
        exact if_pos hpresent
      have hkids : kids m t P (i :: rest) =
          Holding.tree (frame (m₁.pte t i)) P :: kids m t P rest := by
        unfold kids
        rw [List.filterMap_cons_some hsome, List.map_cons]
      rw [hkids] at hret
      have hperm := hret.perm (List.Perm.refl _) (List.Perm.swap _ _ _)
      refine wp_mono (hfree m₁ _ (hperm.forest.left (K := [_]))) ?_ fun _ hbad => hbad
      intro _ m₂ hsub
      refine ⟨hperm.trans (hsub.beside hperm.forest), ?_⟩
      rw [← hmem]
      exact hsub.toTurns.mem_right hperm.forest (held_cons.mpr (Or.inl rfl))
    · rw [if_neg hpresent, wp_pure]
      have hnone : m.child t i = none := by
        rw [← hchild]
        exact if_neg hpresent
      have hkids : kids m t P (i :: rest) = kids m t P rest := by
        unfold kids
        rw [List.filterMap_cons_none hnone]
      rw [hkids] at hret
      exact ⟨hret, hmem⟩

theorem held_below_zero : Held m [Holding.tree t (Below 0)] f ↔ Held m [Holding.page t] f := by
  rw [held_page, held_cons, or_iff_left not_held_nil]
  constructor
  · rintro ⟨p, hp, hf⟩
    rw [List.eq_nil_of_length_eq_zero (Nat.le_zero.mp hp)] at hf
    cases hf
    rfl
  · rintro rfl
    exact ⟨[], Nat.le_refl 0, rfl⟩

theorem freeTree_returns (d : Nat) (h : Forest m [Holding.tree t (Below d)]) :
    wp (freeTree d t) (fun _ m' => Returns m m' [Holding.tree t (Below d)] []) E m := by
  induction d generalizing m t with
  | zero =>
    have hpage : Forest m [Holding.page t] := by
      refine ⟨?_, List.pairwise_singleton _ _, ?_, ?_, h.nodup, h.freeable, h.once⟩
      · intro k hk
        rw [List.mem_singleton.mp hk]
        trivial
      · intro g hg hbad
        exact h.fresh g hg (held_below_zero.mpr hbad)
      · intro g hg
        exact h.ok g (held_below_zero.mpr hg)
    refine wp_mono (kfree_returns hpage) ?_ fun _ hbad => hbad
    intro _ m' hret
    exact (Returns.of_held hpage fun g => held_below_zero).trans hret
  | succ d ih =>
    rw [below_succ] at h ⊢
    rw [freeTree]
    have hnodup : (List.finRange 512).Nodup := List.nodup_finRange 512
    generalize List.finRange 512 = indices at hnodup h ⊢
    exact freeTable_returns (below_tailClosed d) hnodup (fun m s hs => ih hs) h

theorem freeSubtrees_returns (d : Nat) (hnodup : indices.Nodup)
    (h : Forest m [Holding.tree t (Under indices (Below d))]) :
    wp (freeTable (freeTree d) indices t)
      (fun _ m' => Returns m m' [Holding.tree t (Under indices (Below d))] []) E m :=
  freeTable_returns (below_tailClosed d) hnodup (fun _ _ hs => freeTree_returns d hs) h

/-- `freevm` gives the pages of the user half back. -/
theorem freevm_returns (h : Forest m [userTree root]) :
    wp (freevm (some root)) (fun _ m' => Returns m m' [userTree root] []) E m := by
  have hnodup : userIndices.Nodup := (List.nodup_finRange 512).filter _
  unfold userTree at h ⊢
  rw [userPath_eq_under] at h ⊢
  rw [freevm]
  -- with depth and indices left open, nothing tries to run the loops
  generalize 3 = d at h ⊢
  generalize userIndices = indices at hnodup h ⊢
  exact freeSubtrees_returns d hnodup h

end Whole

end Xv6.Vm
