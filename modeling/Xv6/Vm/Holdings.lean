import Xv6.Vm.FlatMap

/-!
# Virtual memory - Who holds which pages

A holding is a single page or the pages of a tree.  {lit}`Forest` says of a list of
holdings that no page is in two of them or in one of them and on the free list.
{lit}`Turns` says that a piece of kernel code turns some holdings into others: it uses
only their pages and free ones, so that all other holdings stay as they are.

Main results:

- Theorem {lit}`Forest.frame`: holdings that the code does not know of are kept.
- Theorem {lit}`Turns.trans`: one piece of code after the other.
- Theorems {lit}`kalloc_turns`, {lit}`kfree_returns`: pages from and to the free list.
- Theorem {lit}`Turns.setPage`: what is in a page that is no table does not matter.
-/

namespace Xv6.Vm

open Foundations

/-- Pages with one owner: a single page, or the pages that the paths in `P` lead to. -/
inductive Holding
  | page (f : Nat)
  | tree (root : Nat) (P : List Index → Prop)

namespace Holding

/-- The page is part of the holding. -/
def Has (m : Machine) : Holding → Nat → Prop
  | .page g, f => f = g
  | .tree root P, f => Reaches m.child root P f

/-- The holding has no page twice. -/
def Whole (m : Machine) : Holding → Prop
  | .page _ => True
  | .tree root P => TailClosed P ∧ Unshared m.child root P

/-- The holding depends on the contents of the page: it is a table with entries that
count. -/
def Inner (m : Machine) : Holding → Nat → Prop
  | .page _, _ => False
  | .tree root P, f => ∃ p j, P (j :: p) ∧ nodeAt m.child root p = some f

theorem Inner.has {m : Machine} {h : Holding} {f : Nat} (hw : h.Whole m) (hi : h.Inner m f) :
    h.Has m f := by
  cases h with
  | page g => exact hi.elim
  | tree root P =>
    rcases hi with ⟨p, j, hp, hf⟩
    exact ⟨p, hw.1 j p hp, hf⟩

/-- Paths in the tree lead where they led when the inner tables are as before. -/
theorem nodeAt_of_inner {m m' : Machine} {root : Nat} {P : List Index → Prop} (hP : TailClosed P)
    (hmem : ∀ g, (Holding.tree root P).Inner m g → m'.mem g = m.mem g) {q : List Index}
    (hq : P q) : nodeAt m'.child root q = nodeAt m.child root q := by
  refine nodeAt_congr_inner hP ?_ hq
  intro s r j hr hs
  exact Machine.child_of_mem_eq (hmem s ⟨r, j, hr, hs⟩) j

section Locality

variable {m m' : Machine} {h : Holding} (hw : h.Whole m)
  (hmem : ∀ g, h.Inner m g → m'.mem g = m.mem g)

include hw hmem

theorem has_iff_of_mem {f : Nat} : h.Has m' f ↔ h.Has m f := by
  cases h with
  | page g => exact Iff.rfl
  | tree root P =>
    constructor
    · rintro ⟨q, hq, hqf⟩
      exact ⟨q, hq, by rw [← nodeAt_of_inner hw.1 hmem hq, hqf]⟩
    · rintro ⟨q, hq, hqf⟩
      exact ⟨q, hq, by rw [nodeAt_of_inner hw.1 hmem hq, hqf]⟩

theorem whole_of_mem : h.Whole m' := by
  cases h with
  | page g => trivial
  | tree root P =>
    refine ⟨hw.1, ?_⟩
    intro q r f hq hr hqf hrf
    rw [nodeAt_of_inner hw.1 hmem hq] at hqf
    rw [nodeAt_of_inner hw.1 hmem hr] at hrf
    exact hw.2 q r f hq hr hqf hrf

end Locality

end Holding

/-- Some holding of the list has the page. -/
def Held (m : Machine) (H : List Holding) (f : Nat) : Prop :=
  ∃ h ∈ H, h.Has m f

theorem held_append {m : Machine} {H K : List Holding} {f : Nat} :
    Held m (H ++ K) f ↔ Held m H f ∨ Held m K f := by
  simp only [Held, List.mem_append, or_and_right, exists_or]

theorem held_cons {m : Machine} {h : Holding} {H : List Holding} {f : Nat} :
    Held m (h :: H) f ↔ h.Has m f ∨ Held m H f := by
  simp only [Held, List.mem_cons, or_and_right, exists_or, exists_eq_left]

theorem held_perm {m : Machine} {H K : List Holding} (h : H.Perm K) {f : Nat} :
    Held m H f ↔ Held m K f := by
  simp only [Held, h.mem_iff]

/-- No page is in two holdings or in a holding and free, all of them are pages that
`kfree` accepts, and it was never called for a free one. -/
structure Forest (m : Machine) (H : List Holding) : Prop where
  whole : ∀ h ∈ H, h.Whole m
  apart : H.Pairwise fun h k => ∀ f, h.Has m f → ¬k.Has m f
  fresh : ∀ f ∈ m.free, ¬Held m H f
  ok : ∀ f, Held m H f → m.Freeable f
  nodup : m.free.Nodup
  freeable : ∀ f ∈ m.free, m.Freeable f
  once : m.refreed = false

namespace Forest

variable {m m' : Machine} {H K : List Holding}

theorem perm (h : Forest m H) (hp : H.Perm K) : Forest m K := by
  refine ⟨?_, ?_, ?_, ?_, h.nodup, h.freeable, h.once⟩
  · intro k hk
    exact h.whole k (hp.mem_iff.mpr hk)
  · refine hp.pairwise h.apart ?_
    intro k l hkl f hl hk
    exact hkl f hk hl
  · intro f hf hbad
    exact h.fresh f hf ((held_perm hp).mpr hbad)
  · intro f hf
    exact h.ok f ((held_perm hp).mpr hf)

/-- Some of the holdings. -/
theorem sublist (h : Forest m H) (hs : K.Sublist H) : Forest m K := by
  have hheld : ∀ f, Held m K f → Held m H f := by
    rintro f ⟨k, hk, hf⟩
    exact ⟨k, hs.subset hk, hf⟩
  refine ⟨fun k hk => h.whole k (hs.subset hk), h.apart.sublist hs, ?_, ?_, h.nodup, h.freeable,
    h.once⟩
  · intro f hf hbad
    exact h.fresh f hf (hheld f hbad)
  · intro f hf
    exact h.ok f (hheld f hf)

theorem left (h : Forest m (K ++ H)) : Forest m K :=
  h.sublist (List.sublist_append_left K H)

theorem right (h : Forest m (K ++ H)) : Forest m H :=
  h.sublist (List.sublist_append_right K H)

theorem not_held_right (h : Forest m (K ++ H)) {f : Nat} (hf : Held m K f) : ¬Held m H f := by
  rcases hf with ⟨k, hk, hkf⟩
  rintro ⟨l, hl, hlf⟩
  exact (List.pairwise_append.mp h.apart).2.2 k hk l hl f hkf hlf

/-- Only tables matter: what the other pages contain may change. -/
theorem of_mem (h : Forest m H) (hkend : m'.kend = m.kend) (hfree : m'.free = m.free)
    (hrefreed : m'.refreed = m.refreed)
    (hin : ∀ g, ∀ k ∈ H, k.Inner m g → m'.mem g = m.mem g) : Forest m' H := by
  have hhas : ∀ k ∈ H, ∀ f, k.Has m' f ↔ k.Has m f := fun k hk f =>
    Holding.has_iff_of_mem (h.whole k hk) fun g hg => hin g k hk hg
  have hheld : ∀ f, Held m' H f ↔ Held m H f := by
    intro f
    constructor
    · rintro ⟨k, hk, hf⟩
      exact ⟨k, hk, (hhas k hk f).mp hf⟩
    · rintro ⟨k, hk, hf⟩
      exact ⟨k, hk, (hhas k hk f).mpr hf⟩
  have hok : ∀ f, m'.Freeable f ↔ m.Freeable f := by
    intro f
    unfold Machine.Freeable
    rw [hkend]
  refine ⟨?_, ?_, ?_, ?_, ?_, ?_, ?_⟩
  · intro k hk
    exact Holding.whole_of_mem (h.whole k hk) fun g hg => hin g k hk hg
  · refine h.apart.imp_of_mem ?_
    intro k l hk hl hkl f hkf hlf
    exact hkl f ((hhas k hk f).mp hkf) ((hhas l hl f).mp hlf)
  · intro f hf hbad
    rw [hfree] at hf
    exact h.fresh f hf ((hheld f).mp hbad)
  · intro f hf
    exact (hok f).mpr (h.ok f ((hheld f).mp hf))
  · rw [hfree]
    exact h.nodup
  · intro f hf
    rw [hfree] at hf
    exact (hok f).mpr (h.freeable f hf)
  · rw [hrefreed]
    exact h.once

end Forest

/-! ## Changes of holdings -/

/-- The holdings `K` of `m` were turned into the holdings `K'` of `m'`: each page is still
held or free.  Pages that are not the allocator's may have changed. -/
structure Turns (m m' : Machine) (K K' : List Holding) : Prop where
  forest : Forest m' K'
  kend : m'.kend = m.kend
  kpdpt : m'.kpdpt = m.kpdpt
  pages : ∀ f, f ∈ m'.free ∨ Held m' K' f ↔ f ∈ m.free ∨ Held m K f
  mem : ∀ g, m.Freeable g → g ∉ m.free → ¬Held m K g → m'.mem g = m.mem g

/-- The same, and the pages given back are put before the others. -/
structure Returns (m m' : Machine) (K K' : List Holding) : Prop extends Turns m m' K K' where
  suffix : m.free <:+ m'.free

section Rules

variable {m m' m'' : Machine} {H K K' K'' : List Holding}

/-- Pages of holdings that the code does not know of are as before. -/
theorem Turns.mem_right (ht : Turns m m' K K') (h : Forest m (K ++ H)) {g : Nat}
    (hg : Held m H g) : m'.mem g = m.mem g := by
  refine ht.mem g (h.right.ok g hg) ?_ ?_
  · intro hbad
    exact h.fresh g hbad (held_append.mpr (Or.inr hg))
  · intro hbad
    exact h.not_held_right hbad hg

theorem Turns.held_right (ht : Turns m m' K K') (h : Forest m (K ++ H)) {f : Nat} :
    Held m' H f ↔ Held m H f := by
  have hhas : ∀ k ∈ H, (k.Has m' f ↔ k.Has m f) := by
    intro k hk
    have hw := h.right.whole k hk
    exact Holding.has_iff_of_mem hw fun g hg => ht.mem_right h ⟨k, hk, hg.has hw⟩
  constructor
  · rintro ⟨k, hk, hf⟩
    exact ⟨k, hk, (hhas k hk).mp hf⟩
  · rintro ⟨k, hk, hf⟩
    exact ⟨k, hk, (hhas k hk).mpr hf⟩

/-- Holdings that the code does not know of are kept. -/
theorem Forest.frame (h : Forest m (K ++ H)) (ht : Turns m m' K K') : Forest m' (K' ++ H) := by
  have hmem : ∀ k ∈ H, ∀ g, k.Inner m g → m'.mem g = m.mem g := by
    intro k hk g hg
    exact ht.mem_right h ⟨k, hk, hg.has (h.right.whole k hk)⟩
  have hhas : ∀ k ∈ H, ∀ f, k.Has m' f ↔ k.Has m f := fun k hk f =>
    Holding.has_iff_of_mem (h.right.whole k hk) (hmem k hk)
  have hheld : ∀ f, Held m' H f ↔ Held m H f := fun f => ht.held_right h
  -- a page that was free or in `K` is in no other holding
  have hcross : ∀ f, f ∈ m'.free ∨ Held m' K' f → ¬Held m' H f := by
    intro f hf hbad
    rw [hheld] at hbad
    rcases (ht.pages f).mp hf with hfree | hK
    · exact h.fresh f hfree (held_append.mpr (Or.inr hbad))
    · exact h.not_held_right hK hbad
  refine ⟨?_, ?_, ?_, ?_, ht.forest.nodup, ht.forest.freeable, ht.forest.once⟩
  · intro k hk
    rcases List.mem_append.mp hk with hk | hk
    · exact ht.forest.whole k hk
    · exact Holding.whole_of_mem (h.right.whole k hk) (hmem k hk)
  · refine List.pairwise_append.mpr ⟨ht.forest.apart, ?_, ?_⟩
    · refine h.right.apart.imp_of_mem ?_
      intro k l hk hl hkl f hkf hlf
      exact hkl f ((hhas k hk f).mp hkf) ((hhas l hl f).mp hlf)
    · intro k hk l hl f hkf hlf
      exact hcross f (Or.inr ⟨k, hk, hkf⟩) ⟨l, hl, hlf⟩
  · intro f hf hbad
    rcases held_append.mp hbad with hbad | hbad
    · exact ht.forest.fresh f hf hbad
    · exact hcross f (Or.inl hf) hbad
  · intro f hf
    rcases held_append.mp hf with hf | hf
    · exact ht.forest.ok f hf
    · have hok := h.ok f (held_append.mpr (Or.inr ((hheld f).mp hf)))
      unfold Machine.Freeable
      rwa [ht.kend]

theorem Turns.refl (h : Forest m K) : Turns m m K K :=
  ⟨h, rfl, rfl, fun _ => Iff.rfl, fun _ _ _ _ => rfl⟩

theorem Turns.freeable (ht : Turns m m' K K') {f : Nat} : m'.Freeable f ↔ m.Freeable f := by
  unfold Machine.Freeable
  rw [ht.kend]

theorem Turns.trans (ht : Turns m m' K K') (ht' : Turns m' m'' K' K'') : Turns m m'' K K'' := by
  refine ⟨ht'.forest, ht'.kend.trans ht.kend, ht'.kpdpt.trans ht.kpdpt,
    fun f => (ht'.pages f).trans (ht.pages f), ?_⟩
  intro g hok hfree hheld
  have hnot : ¬(g ∈ m'.free ∨ Held m' K' g) := by
    intro hbad
    exact ((ht.pages g).mp hbad).elim hfree hheld
  rw [ht'.mem g (ht.freeable.mpr hok) (fun hbad => hnot (Or.inl hbad))
    (fun hbad => hnot (Or.inr hbad)), ht.mem g hok hfree hheld]

/-- The code works the same beside other holdings. -/
theorem Turns.beside (ht : Turns m m' K K') (h : Forest m (K ++ H)) :
    Turns m m' (K ++ H) (K' ++ H) := by
  refine ⟨h.frame ht, ht.kend, ht.kpdpt, ?_, ?_⟩
  · intro f
    rw [held_append, held_append, ← or_assoc, ← or_assoc, ht.pages f, ht.held_right h]
  · intro g hok hfree hheld
    rw [held_append, not_or] at hheld
    exact ht.mem g hok hfree hheld.1

/-- Holdings are a matter of membership. -/
theorem Turns.perm {L L' : List Holding} (ht : Turns m m' K K') (hp : K.Perm L)
    (hp' : K'.Perm L') : Turns m m' L L' := by
  refine ⟨ht.forest.perm hp', ht.kend, ht.kpdpt, ?_, ?_⟩
  · intro f
    rw [← held_perm hp, ← held_perm hp', ht.pages f]
  · intro g hok hfree hheld
    rw [← held_perm hp] at hheld
    exact ht.mem g hok hfree hheld

theorem Returns.trans (ht : Returns m m' K K') (ht' : Returns m' m'' K' K'') :
    Returns m m'' K K'' :=
  ⟨ht.toTurns.trans ht'.toTurns, ht.suffix.trans ht'.suffix⟩

theorem Returns.beside (ht : Returns m m' K K') (h : Forest m (K ++ H)) :
    Returns m m' (K ++ H) (K' ++ H) :=
  ⟨ht.toTurns.beside h, ht.suffix⟩

theorem Returns.perm {L L' : List Holding} (ht : Returns m m' K K') (hp : K.Perm L)
    (hp' : K'.Perm L') : Returns m m' L L' :=
  ⟨ht.toTurns.perm hp hp', ht.suffix⟩

/-- What was held is given back once. -/
theorem Returns.freed (ht : Returns m m' K []) (h : Forest m K) :
    ∃ L, m'.free = L ++ m.free ∧ L.Nodup ∧ ∀ f, f ∈ L ↔ Held m K f := by
  rcases ht.suffix with ⟨L, hL⟩
  have hnodup := ht.forest.nodup
  rw [← hL, List.nodup_append] at hnodup
  have hnil : ∀ f, ¬Held m' [] f := by
    rintro f ⟨k, hk, _⟩
    cases hk
  refine ⟨L, hL.symm, hnodup.1, ?_⟩
  intro f
  constructor
  · intro hf
    refine ((ht.pages f).mp (Or.inl ?_)).resolve_left ?_
    · rw [← hL]
      exact List.mem_append_left _ hf
    · intro hbad
      exact hnodup.2.2 f hf f hbad rfl
  · intro hf
    have hfree := ((ht.pages f).mpr (Or.inr hf)).resolve_right (hnil f)
    rw [← hL] at hfree
    refine (List.mem_append.mp hfree).resolve_right ?_
    intro hbad
    exact h.fresh f hbad hf

end Rules

/-! ## Single pages -/

section Pages

variable {m : Machine} {f : Nat} {E : VmStop → Prop}

theorem held_page {g : Nat} : Held m [Holding.page f] g ↔ g = f := by
  rw [held_cons]
  constructor
  · rintro (hg | ⟨k, hk, _⟩)
    · exact hg
    · cases hk
  · intro hg
    exact Or.inl hg

theorem not_held_nil {g : Nat} : ¬Held m [] g := by
  rintro ⟨k, hk, _⟩
  cases hk

/-- Nothing but the allocator's own pages. -/
theorem Forest.nil (hnodup : m.free.Nodup) (hfreeable : ∀ g ∈ m.free, m.Freeable g)
    (honce : m.refreed = false) : Forest m [] :=
  ⟨nofun, List.Pairwise.nil, fun _ _ => not_held_nil, fun _ hg => absurd hg not_held_nil, hnodup,
    hfreeable, honce⟩

/-- One page that is not free. -/
theorem Forest.single (h : Forest m []) (hok : m.Freeable f) (hfree : f ∉ m.free) :
    Forest m [Holding.page f] := by
  refine ⟨?_, List.pairwise_singleton _ _, ?_, ?_, h.nodup, h.freeable, h.once⟩
  · intro k hk
    rw [List.mem_singleton.mp hk]
    trivial
  · intro g hg hbad
    rw [held_page.mp hbad] at hg
    exact hfree hg
  · intro g hg
    rw [held_page.mp hg]
    exact hok

/-- A page is taken from the free list. -/
theorem kalloc_turns (h : Forest m []) :
    wp kalloc (fun r m' => r = none ∧ m' = m ∨
      ∃ f, r = some f ∧ Turns m m' [] [Holding.page f]) E m := by
  refine wp_kalloc ?_ ?_
  · intro _
    exact Or.inl ⟨rfl, rfl⟩
  · intro f fs hfree
    have hin : ∀ g ∈ f :: fs, g ∈ m.free := by
      intro g hg
      rwa [hfree]
    have hnodup := h.nodup
    rw [hfree, List.nodup_cons] at hnodup
    right
    refine ⟨f, rfl, ?_, rfl, rfl, ?_, fun _ _ _ _ => rfl⟩
    · refine Forest.single (Forest.nil hnodup.2 ?_ h.once) ?_ hnodup.1
      · intro g hg
        exact h.freeable g (hin g (List.mem_cons_of_mem f hg))
      · exact h.freeable f (hin f List.mem_cons_self)
    · intro g
      rw [held_page, or_iff_left not_held_nil, hfree, List.mem_cons]
      exact or_comm

/-- A page is given back. -/
theorem kfree_returns (h : Forest m [Holding.page f]) :
    wp (kfree f) (fun _ m' => Returns m m' [Holding.page f] []) E m := by
  have hheld : Held m [Holding.page f] f := held_page.mpr rfl
  have hok := h.ok f hheld
  have hnew : f ∉ m.free := fun hbad => h.fresh f hbad hheld
  refine wp_kfree ?_ (fun hbad => absurd hok hbad)
  intro _
  refine ⟨⟨Forest.nil ?_ ?_ ?_, rfl, rfl, ?_, ?_⟩, ⟨[f], rfl⟩⟩
  · exact List.nodup_cons.mpr ⟨hnew, h.nodup⟩
  · intro g hg
    rcases List.mem_cons.mp hg with rfl | hg
    · exact hok
    · exact h.freeable g hg
  · change (m.refreed || decide (f ∈ m.free)) = false
    rw [h.once, decide_eq_false hnew]
    rfl
  · intro g
    have hmem : g ∈ (m.freed f).free ↔ g = f ∨ g ∈ m.free := List.mem_cons
    rw [held_page, or_iff_left not_held_nil, hmem]
    exact or_comm
  · intro g _ _ hg
    refine Machine.setPage_mem_of_ne m _ ?_
    rintro rfl
    exact hg hheld

/-- The contents of a page are changed that is no table of a holding, and is held or not
the allocator's. -/
theorem Turns.setPage {K : List Holding} (h : Forest m K) (hinner : ∀ k ∈ K, ¬k.Inner m f)
    (hheld : m.Freeable f → Held m K f) (x : Page) : Turns m (m.setPage f x) K K := by
  have hin : ∀ g, ∀ k ∈ K, k.Inner m g → (m.setPage f x).mem g = m.mem g := by
    intro g k hk hg
    refine Machine.setPage_mem_of_ne m x ?_
    rintro rfl
    exact hinner k hk hg
  refine ⟨h.of_mem rfl rfl rfl hin, rfl, rfl, ?_, ?_⟩
  · intro g
    have hhas : ∀ k ∈ K, (k.Has (m.setPage f x) g ↔ k.Has m g) := fun k hk =>
      Holding.has_iff_of_mem (h.whole k hk) fun g' hg' => hin g' k hk hg'
    have hheld' : Held (m.setPage f x) K g ↔ Held m K g := by
      constructor
      · rintro ⟨k, hk, hg⟩
        exact ⟨k, hk, (hhas k hk).mp hg⟩
      · rintro ⟨k, hk, hg⟩
        exact ⟨k, hk, (hhas k hk).mpr hg⟩
    rw [hheld']
    exact Iff.rfl
  · intro g hok _ hg
    refine Machine.setPage_mem_of_ne m x ?_
    rintro rfl
    exact hg (hheld hok)

end Pages

end Xv6.Vm
