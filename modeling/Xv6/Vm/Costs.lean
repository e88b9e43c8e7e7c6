import Xv6.Vm.UserMemory

/-!
# Virtual memory - How many pages a memory takes

An address space that is built from `PGSIZE` upwards has exactly the tables that its pages
need.  The next page then takes one page, and one more for each table that starts with it.
{lit}`imageCost` is the number of pages for all pages and tables below an address, without
the root, so that the length of the free list tells how far the building gets.

Main results:

- Theorem {lit}`walkpgdir_lays`: `walkpgdir` takes a page for each missing table.
- Theorem {lit}`mapPage_costs`: mapping the next page.
- Theorem {lit}`allocPage_costs`: one round of `allocuvm` at the next page.
-/

namespace Xv6.Vm

open Foundations

/-! ## Missing tables -/

/-- How many tables on the path are missing. -/
def missing (m : Machine) (root : Nat) : List Index → Nat
  | [] => 0
  | i :: p => missing m root p + if nodeAt m.child root (i :: p) = none then 1 else 0

/-- The tables on the path `q` were added, each in a free page; the entries of the root for the
kernel are as before. -/
structure Laid (m m' : Machine) (root : Nat) (q : List Index) : Prop where
  space : Space 3 m' root
  tables : ∀ r, UserPath 3 r →
    (nodeAt m'.child root r ≠ none ↔ nodeAt m.child root r ≠ none ∨ r <:+ q)
  free : m'.free.length + missing m root q = m.free.length
  upper : ∀ j : Index, 256 ≤ j.val → m'.pte root j = m.pte root j

section Walk

variable {m m' : Machine} {root t : Nat} {p : List Index} {i : Index} {E : VmStop → Prop}

theorem Laid.refl (h : Space 3 m root) : Laid m m root [] := by
  refine ⟨h, ?_, rfl, fun _ _ => rfl⟩
  intro r _
  constructor
  · exact Or.inl
  · rintro (hr | hr)
    · exact hr
    · rw [List.suffix_nil.mp hr]
      exact Option.some_ne_none _

/-- Below the root there is another page. -/
theorem Space.ne_root (h : Space 3 m root) (hp : UserPath 3 p) (hne : p ≠ [])
    (ht : nodeAt m.child root p = some t) : t ≠ root := by
  rintro rfl
  exact hne (h.unshared p [] t hp (UserPath.nil 3) ht rfl)

theorem descend_lays {m₀ : Machine} (h : Laid m₀ m root p) (hp : UserPath 3 (i :: p))
    (ht : nodeAt m.child root p = some t) :
    wp (descend t i true)
      (fun r m' => r = none ∧ m₀.free.length < missing m₀ root (i :: p) ∨
        ∃ f, r = some f ∧ nodeAt m'.child root (i :: p) = some f ∧ Laid m₀ m' root (i :: p))
      E m := by
  have hnot : ¬(i :: p) <:+ p := by
    intro hbad
    have hlen := hbad.length_le
    simp at hlen
  have hsame := h.tables (i :: p) hp
  rw [or_iff_left hnot] at hsame
  have hfree := h.free
  unfold descend
  rw [wp_bind, wp_get]
  by_cases hpresent : present (m.pte t i) = true
  · have hnode : nodeAt m.child root (i :: p) = some (frame (m.pte t i)) := by
      rw [nodeAt_cons ht, Machine.child, if_pos hpresent]
    have hold : nodeAt m₀.child root (i :: p) ≠ none :=
      hsame.mp (by rw [hnode]; exact Option.some_ne_none _)
    rw [if_pos hpresent, wp_pure]
    refine Or.inr ⟨_, rfl, hnode, h.space, ?_, ?_, h.upper⟩
    · intro r hr
      rw [h.tables r hr, List.suffix_cons_iff]
      constructor
      · exact Or.imp_right Or.inr
      · rintro (hr | rfl | hr)
        · exact Or.inl hr
        · exact Or.inl hold
        · exact Or.inr hr
    · rw [missing, if_neg hold]
      exact hfree
  · have hchild : m.child t i = none := if_neg hpresent
    have hnode : nodeAt m.child root (i :: p) = none := by rw [nodeAt_cons ht, hchild]
    have hold : nodeAt m₀.child root (i :: p) = none := by
      by_contra hbad
      exact hsame.mpr hbad hnode
    rw [if_neg hpresent, if_neg (by decide), wp_bind]
    refine wp_kalloc ?_ ?_
    · intro hnil
      refine Or.inl ⟨rfl, ?_⟩
      rw [missing, if_pos hold]
      rw [hnil, List.length_nil] at hfree
      omega
    · intro f fs hcons
      have hgraft := h.space.graft (le_refl 3) hcons hp ht hchild
      have hnew := hgraft.node (i :: p) hp
      rw [if_pos rfl] at hnew
      have hroot : root ≠ f := by
        rintro rfl
        refine h.space.fresh root ?_ ⟨[], UserPath.nil 3, rfl⟩
        rw [hcons]
        exact List.mem_cons_self
      refine Or.inr ⟨f, rfl, hnew, hgraft.space, ?_, ?_, ?_⟩
      · intro r hr
        change nodeAt (m.graft fs f t i).child root r ≠ none ↔ _
        rw [hgraft.node r hr, List.suffix_cons_iff]
        by_cases hrp : r = i :: p
        · rw [if_pos hrp]
          exact ⟨fun _ => Or.inr (Or.inl hrp), fun _ => Option.some_ne_none f⟩
        · rw [if_neg hrp, h.tables r hr, or_iff_right hrp]
      · change fs.length + _ = _
        rw [missing, if_pos hold]
        rw [hcons, List.length_cons] at hfree
        omega
      · intro j hj
        have hsame : (m.taken fs f).pte root j = m.pte root j :=
          Machine.pte_of_mem_eq m (Machine.setPage_mem_of_ne _ _ hroot) j
        rw [← h.upper j hj, ← hsame]
        refine Machine.pte_setPte_of_ne _ t i _ ?_
        by_cases hnil : p = []
        · right
          rintro rfl
          rw [hnil] at hp
          have hlt := hp.2 j rfl
          omega
        · exact Or.inl (h.space.ne_root (userPath_tailClosed 3 _ _ hp) hnil ht).symm

theorem missing_le_cons : missing m root p ≤ missing m root (i :: p) := by
  rw [missing]
  exact Nat.le_add_right _ _

/-- `walkpgdir` takes a page for each missing table. -/
theorem walkpgdir_lays (h : Space 3 m root) {va : Nat} (hva : va < 2 ^ 47) :
    wp (walkpgdir root va true)
      (fun r m' => r = none ∧ m.free.length < missing m root (tablePath va) ∨
        ∃ t, r = some (t, ptx va) ∧ nodeAt m'.child root (tablePath va) = some t ∧
          Laid m m' root (tablePath va)) E m := by
  have hpath := userPath_tablePath hva
  have hpath1 := userPath_tailClosed 3 _ _ hpath
  have hpath2 := userPath_tailClosed 3 _ _ hpath1
  unfold walkpgdir
  refine wp_bind_of (descend_lays (Laid.refl h) hpath2 rfl) ?_
  rintro r m₁ (⟨rfl, hfew⟩ | ⟨pdp, rfl, hpdp, hlaid₁⟩)
  · exact Or.inl ⟨rfl, (hfew.trans_le missing_le_cons).trans_le missing_le_cons⟩
  · refine wp_bind_of (descend_lays hlaid₁ hpath1 hpdp) ?_
    rintro r m₂ (⟨rfl, hfew⟩ | ⟨pd, rfl, hpd, hlaid₂⟩)
    · exact Or.inl ⟨rfl, hfew.trans_le missing_le_cons⟩
    · refine wp_bind_of (descend_lays hlaid₂ hpath hpd) ?_
      rintro r m₃ (⟨rfl, hfew⟩ | ⟨pgtab, rfl, hpgtab, hlaid₃⟩)
      · exact Or.inl ⟨rfl, hfew⟩
      · exact Or.inr ⟨pgtab, rfl, hpgtab, hlaid₃⟩

theorem mapPage_lays {a : Nat} {pa perm : UInt64} (h : Space 3 m root) (ha : a < 2 ^ 47)
    (hE : E .remap) :
    wp (mapPage root a pa perm)
      (fun r m' => r = -1 ∧ m.free.length < missing m root (tablePath a) ∨
        r = 0 ∧ Laid m m' root (tablePath a)) E m := by
  unfold mapPage
  refine wp_bind_of (walkpgdir_lays h ha) ?_
  rintro r m₁ (⟨rfl, hfew⟩ | ⟨t, rfl, ht, hlaid⟩)
  · exact Or.inl ⟨rfl, hfew⟩
  · simp only
    rw [wp_bind, wp_get]
    by_cases hpresent : present (m₁.pte t (ptx a)) = true
    · rw [if_pos hpresent, wp_stop]
      exact hE
    · rw [if_neg hpresent, wp_bind, wp_modify, wp_pure]
      refine Or.inr ⟨rfl, hlaid.space.setPte ha ht, ?_, hlaid.free, ?_⟩
      · intro r hr
        rw [nodeAt_setPte hlaid.space ha ht hr, hlaid.tables r hr]
      · intro j hj
        rw [← hlaid.upper j hj]
        exact Machine.pte_setPte_of_ne _ _ _ _ (Or.inl
          (hlaid.space.ne_root (userPath_tablePath ha) (List.cons_ne_nil _ _) ht).symm)

end Walk

/-! ## Memories built from `PGSIZE` upwards -/

/-- The table that maps `va`, and the two above it, are there if they start below `P`. -/
def Tables (m : Machine) (root P : Nat) : Prop :=
  ∀ va, va < 2 ^ 47 → ∀ k < 3, (nodeAt m.child root ((tablePath va).drop k) ≠ none ↔
    pgsize < P ∧ va / 2 ^ (21 + 9 * k) ≤ (P - 1) / 2 ^ (21 + 9 * k))

/-- How many tables start with the page at `P`. -/
def gaps (P : Nat) : Nat :=
  if P = pgsize then 3
  else (if P % 2 ^ 21 = 0 then 1 else 0) + (if P % 2 ^ 30 = 0 then 1 else 0) +
    (if P % 2 ^ 39 = 0 then 1 else 0)

/-- How many pages it takes to map the pages from `PGSIZE` to `P`. -/
def imageCost (P : Nat) : Nat :=
  if P ≤ pgsize then 0
  else (P / pgsize - 1) + ((P - 1) / 2 ^ 21 + 1) + ((P - 1) / 2 ^ 30 + 1) +
    ((P - 1) / 2 ^ 39 + 1)

theorem imageCost_succ {P : Nat} (hmod : P % pgsize = 0) (hle : pgsize ≤ P) :
    imageCost (P + pgsize) = imageCost P + 1 + gaps P := by
  unfold imageCost gaps
  unfold pgsize at *
  by_cases hP : P = 4096
  · subst hP
    decide
  · rw [if_neg (by omega), if_neg (by omega), if_neg hP]
    have hstep : ∀ s, s % 4096 = 0 → 0 < s →
        (P + 4096 - 1) / s = (P - 1) / s + if P % s = 0 then 1 else 0 := by
      intro s hs hpos
      obtain ⟨k, rfl⟩ := Nat.dvd_of_mod_eq_zero hs
      obtain ⟨n, rfl⟩ := Nat.dvd_of_mod_eq_zero hmod
      have hk : 0 < k := Nat.pos_of_mul_pos_left hpos
      have hn : 0 < n := by omega
      rw [Nat.mul_mod_mul_left, ← Nat.div_div_eq_div_mul, ← Nat.div_div_eq_div_mul,
        show (4096 * n + 4096 - 1) / 4096 = n by omega, show (4096 * n - 1) / 4096 = n - 1 by omega]
      obtain ⟨n, rfl⟩ := Nat.exists_eq_succ_of_ne_zero hn.ne'
      rw [Nat.succ_sub_one, Nat.succ_div]
      simp only [Nat.dvd_iff_mod_eq_zero, Nat.mul_eq_zero, OfNat.ofNat_ne_zero, false_or]
    rw [hstep (2 ^ 21) (by decide) (by decide), hstep (2 ^ 30) (by decide) (by decide),
      hstep (2 ^ 39) (by decide) (by decide)]
    omega

theorem imageCost_le_succ {P : Nat} (hmod : P % pgsize = 0) (hle : pgsize ≤ P) :
    imageCost P < imageCost (P + pgsize) := by
  rw [imageCost_succ hmod hle]
  omega

theorem imageCost_pages {P : Nat} (hmod : P % pgsize = 0) (hle : pgsize ≤ P) (n : Nat) :
    imageCost P + n ≤ imageCost (P + n * pgsize) := by
  induction n with
  | zero => rw [Nat.zero_mul, Nat.add_zero, Nat.add_zero]
  | succ n ih =>
    have hlt := imageCost_le_succ (P := P + n * pgsize) (by rw [Nat.add_mul_mod_self_right, hmod])
      (by omega)
    rw [Nat.succ_mul, ← Nat.add_assoc P]
    omega

/-- More memory costs more. -/
theorem imageCost_lt {P P' : Nat} (hmod : P % pgsize = 0) (hle : pgsize ≤ P)
    (hmod' : P' % pgsize = 0) (hlt : P < P') : imageCost P < imageCost P' := by
  have hcount : P + (P' / pgsize - P / pgsize) * pgsize = P' := by
    unfold pgsize at *
    omega
  have hpages := imageCost_pages hmod hle (P' / pgsize - P / pgsize)
  rw [hcount] at hpages
  unfold pgsize at *
  omega

/-- Paths of tables are equal if they cover the same range of addresses. -/
theorem drop_tablePath_eq_iff {va wa k : Nat} (hva : va < 2 ^ 47) (hwa : wa < 2 ^ 47)
    (hk : k < 3) : (tablePath va).drop k = (tablePath wa).drop k ↔
      va / 2 ^ (21 + 9 * k) = wa / 2 ^ (21 + 9 * k) := by
  unfold tablePath pdx pdpx pmx px
  interval_cases k
  · simp only [List.drop_zero, List.cons.injEq, Fin.mk.injEq, and_true]
    omega
  · simp only [List.drop_succ_cons, List.drop_zero, List.cons.injEq, Fin.mk.injEq, and_true]
    omega
  · simp only [List.drop_succ_cons, List.drop_zero, List.cons.injEq, Fin.mk.injEq, and_true]
    omega

theorem userPath_drop_tablePath {va k : Nat} (hva : va < 2 ^ 47) :
    UserPath 3 ((tablePath va).drop k) := by
  have hpath := userPath_tablePath hva
  rw [← List.take_append_drop k (tablePath va)] at hpath
  exact (userPath_tailClosed 3).of_append _ hpath

theorem drop_suffix_tablePath_iff {va wa k : Nat} (hva : va < 2 ^ 47) (hwa : wa < 2 ^ 47)
    (hk : k < 3) : (tablePath va).drop k <:+ tablePath wa ↔
      va / 2 ^ (21 + 9 * k) = wa / 2 ^ (21 + 9 * k) := by
  rw [← drop_tablePath_eq_iff hva hwa hk]
  constructor
  · intro hsuffix
    have hlen : ((tablePath va).drop k).length = ((tablePath wa).drop k).length := by
      simp [tablePath]
    exact (List.suffix_of_suffix_length_le hsuffix (List.drop_suffix k _) hlen.le).eq_of_length hlen
  · intro heq
    rw [heq]
    exact List.drop_suffix k _

section Build

variable {m m' : Machine} {root P : Nat} {E : VmStop → Prop}

/-- The tables of the next page. -/
theorem Tables.missing (h : Tables m root P) (hmod : P % pgsize = 0) (hle : pgsize ≤ P)
    (hlt : P < 2 ^ 47) : missing m root (tablePath P) = gaps P := by
  have htable : ∀ k, k < 3 → (nodeAt m.child root ((tablePath P).drop k) = none ↔
      P = pgsize ∨ P % 2 ^ (21 + 9 * k) = 0) := by
    intro k hk
    rw [← not_iff_not, ← ne_eq, h P hlt k hk]
    unfold pgsize at *
    interval_cases k <;> omega
  have h0 := htable 0 (by decide)
  have h1 := htable 1 (by decide)
  have h2 := htable 2 (by decide)
  unfold tablePath at *
  simp only [List.drop_succ_cons, List.drop_zero] at h0 h1 h2
  unfold gaps
  simp only [Vm.missing, h0, h1, h2]
  by_cases hP : P = pgsize
  · simp only [hP, true_or, if_true]
  · simp only [hP, false_or, if_false, Nat.reduceMul, Nat.reduceAdd]
    omega

/-- The tables after the next page was mapped. -/
theorem Tables.laid (h : Tables m root P) (hmod : P % pgsize = 0) (hle : pgsize ≤ P)
    (hlt : P < 2 ^ 47) (hlaid : Laid m m' root (tablePath P)) : Tables m' root (P + pgsize) := by
  intro va hva k hk
  rw [hlaid.tables _ (userPath_drop_tablePath hva), h va hva k hk,
    drop_suffix_tablePath_iff hva hlt hk]
  unfold pgsize at *
  interval_cases k <;> omega

/-- Mapping the next page takes the pages for its tables. -/
theorem mapPage_costs {pa perm : UInt64} (hs : Space 3 m root) (h : Tables m root P)
    (hmod : P % pgsize = 0) (hle : pgsize ≤ P) (hlt : P < 2 ^ 47) (hE : E .remap) :
    wp (mapPage root P pa perm)
      (fun r m' => r = -1 ∧ m.free.length < gaps P ∨
        r = 0 ∧ Tables m' root (P + pgsize) ∧ m'.free.length + gaps P = m.free.length) E m := by
  refine wp_mono (mapPage_lays hs hlt hE) ?_ fun _ hbad => hbad
  rw [h.missing hmod hle hlt]
  rintro r m' (⟨rfl, hfew⟩ | ⟨rfl, hlaid⟩)
  · exact Or.inl ⟨rfl, hfew⟩
  · have hfree := hlaid.free
    rw [h.missing hmod hle hlt] at hfree
    exact Or.inr ⟨rfl, h.laid hmod hle hlt hlaid, hfree⟩

/-- Tables depend on pages of the tree only. -/
theorem Tables.of_mem (h : Tables m root P) (hmem : ∀ s, Reaches m.child root (UserPath 3) s →
    m'.mem s = m.mem s) : Tables m' root P := by
  intro va hva k hk
  rw [nodeAt_of_mem hmem (userPath_drop_tablePath hva), h va hva k hk]

/-- One round of `allocuvm` at the next page. -/
theorem allocPage_costs {oldsz newsz : Nat} (hf : Forest m [userTree root]) (h : Tables m root P)
    (hmod : P % pgsize = 0) (hle : pgsize ≤ P) (hlt : P < 2 ^ 47) :
    wp (allocPage root oldsz newsz P)
      (fun more m' => more = false ∧ m.free.length < 1 + gaps P ∨
        more = true ∧ Tables m' root (P + pgsize) ∧ m'.free.length + 1 + gaps P = m.free.length)
      (fun _ => True) m := by
  unfold allocPage
  rw [wp_bind]
  refine wp_kalloc ?_ ?_
  · intro hnil
    refine wp_bind_of wp_true ?_
    intro _ m' _
    refine Or.inl ⟨rfl, ?_⟩
    rw [hnil, List.length_nil]
    omega
  · intro f fs hcons
    have hfree : f ∈ m.free := by
      rw [hcons]
      exact List.mem_cons_self
    have hmem : ∀ s, Reaches m.child root (UserPath 3) s →
        (m.taken fs f).mem s = m.mem s := by
      intro s hs
      refine Machine.setPage_mem_of_ne _ _ ?_
      rintro rfl
      exact (hf.space.mono (show 3 ≤ 4 by omega)).fresh s hfree hs
    have hspace := (hf.space.mono (show 3 ≤ 4 by omega)).take (le_refl 3) hcons
    simp only
    rw [wp_bind, wp_modify, mappages_one hmod hlt]
    refine wp_bind_of (mapPage_costs hspace.1.space (h.of_mem hmem) hmod hle hlt trivial) ?_
    rintro r m₁ (⟨rfl, hfew⟩ | ⟨rfl, htables, hcount⟩)
    · rw [if_pos (by decide)]
      refine wp_bind_of wp_true ?_
      intro _ m₂ _
      refine wp_bind_of wp_true ?_
      intro _ m₃ _
      refine Or.inl ⟨rfl, ?_⟩
      change fs.length < _ at hfew
      rw [hcons, List.length_cons]
      omega
    · rw [if_neg (by decide), wp_pure]
      refine Or.inr ⟨rfl, htables, ?_⟩
      change _ = fs.length at hcount
      rw [hcons, List.length_cons]
      omega

end Build

end Xv6.Vm
