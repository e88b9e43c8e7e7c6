import Xv6.Vm.Copyout
import Xv6.Vm.CopyMemory
import Xv6.Vm.Exec

/-!
# Virtual memory - Building an image

{lit}`Image` is an address space that is being built from `PGSIZE` upwards: how far it goes, what
its bytes are, and how many pages it has taken.  `allocuvm` makes it larger by zeroed pages, or
fails, which depends on the number of free pages only.

Main results:

- Theorem {lit}`Copied.turns`: stores to user pages leave all holdings as they are.
- Theorem {lit}`setupkvm_image`: the empty image.
- Theorem {lit}`Image.allocuvm`: more pages, or not enough memory.
- Theorem {lit}`Image.copied`: bytes are stored in the image.
-/

namespace Xv6.Vm

open Foundations

/-! ## Stores to user pages -/

/-- Bytes put over others. -/
def overlay (byte : Nat → UInt8) (a : Nat) (bytes : List UInt8) (va : Nat) : UInt8 :=
  if a ≤ va ∧ va < a + bytes.length then bytes.getD (va - a) 0 else byte va

/-- The bytes of the user memory from `PGSIZE` to `sz`. -/
def Contents (m : Machine) (root sz : Nat) (byte : Nat → UInt8) : Prop :=
  ∀ va, pgsize ≤ va → va < sz → userByte m root va = some (byte va)

theorem overlay_append (byte : Nat → UInt8) (a : Nat) (xs ys : List UInt8) :
    overlay (overlay byte a xs) (a + xs.length) ys = overlay byte a (xs ++ ys) := by
  funext va
  unfold overlay
  rw [List.length_append]
  by_cases hys : a + xs.length ≤ va ∧ va < a + xs.length + ys.length
  · rw [if_pos hys, if_pos (by omega), List.getD_append_right _ _ _ _ (by omega)]
    congr 1
    omega
  · rw [if_neg hys]
    by_cases hxs : a ≤ va ∧ va < a + xs.length
    · rw [if_pos hxs, if_pos (by omega), List.getD_append _ _ _ _ (by omega)]
    · rw [if_neg hxs, if_neg (by omega)]

theorem overlay_nil (byte : Nat → UInt8) (a : Nat) : overlay byte a [] = byte := by
  funext va
  unfold overlay
  rw [if_neg]
  rw [List.length_nil]
  omega

section Stores

variable {m m' : Machine} {root va : Nat} {bytes : List UInt8}

/-- Tables are no user pages. -/
theorem Copied.mem_table (h : Copied m m' root va bytes) (hspace : Space 4 m root) {s : Nat}
    (hs : Reaches m.child root (UserPath 3) s) : m'.mem s = m.mem s := by
  apply Bytes.ext_byteAt
  intro i _
  refine h.outside s i ?_
  rintro k _ ⟨hlt, ⟨e, he, rfl⟩, -⟩
  exact hspace.leaf_not_table hlt he hs

theorem Copied.mem_other (h : Copied m m' root va bytes) {g : Nat}
    (hg : ¬Reaches m.child root (UserPath 4) g) : m'.mem g = m.mem g := by
  apply Bytes.ext_byteAt
  intro i _
  refine h.outside g i ?_
  rintro k _ ⟨hlt, ⟨e, he, rfl⟩, -⟩
  exact hg (reaches_leaf hlt he)

theorem Copied.kend (h : Copied m m' root va bytes) : m'.kend = m.kend := by
  rw [h.rest]

theorem Copied.kpdpt (h : Copied m m' root va bytes) : m'.kpdpt = m.kpdpt := by
  rw [h.rest]

theorem Copied.refreed (h : Copied m m' root va bytes) : m'.refreed = m.refreed := by
  rw [h.rest]

theorem Copied.free (h : Copied m m' root va bytes) : m'.free = m.free := by
  rw [h.rest]

/-- Stores to user pages leave the pages where they are. -/
theorem Copied.turns (h : Copied m m' root va bytes) (hf : Forest m [userTree root]) :
    Turns m m' [userTree root] [userTree root] := by
  have hin : ∀ g, ∀ k ∈ [userTree root], k.Inner m g → m'.mem g = m.mem g := by
    intro g k hk hg
    rw [List.mem_singleton.mp hk] at hg
    obtain ⟨p, j, hp, hpg⟩ := hg
    refine h.mem_table hf.space ⟨p, ⟨?_, (userPath_tailClosed 4 j p hp).2⟩, hpg⟩
    have hlen := hp.1
    rw [List.length_cons] at hlen
    omega
  have hheld : ∀ g, Held m' [userTree root] g ↔ Held m [userTree root] g := by
    intro g
    rw [held_cons, held_cons, or_iff_left not_held_nil, or_iff_left not_held_nil]
    exact Holding.has_iff_of_mem (hf.whole _ List.mem_cons_self)
      fun g' hg' => hin g' _ List.mem_cons_self hg'
  refine ⟨hf.of_mem h.kend h.free h.refreed hin, h.kend, h.kpdpt, ?_, ?_⟩
  · intro g
    rw [h.free, hheld]
  · intro g _ _ hg
    refine h.mem_other ?_
    intro hbad
    exact hg (held_userTree.mpr hbad)

theorem Copied.userByte_eq (h : Copied m m' root va bytes) (hs : Space 4 m root) {wa : Nat}
    (hwa : wa < 2 ^ 47) : userByte m' root wa =
      if va ≤ wa ∧ wa < va + bytes.length then some (bytes.getD (wa - va) 0)
      else userByte m root wa := by
  by_cases hin : va ≤ wa ∧ wa < va + bytes.length
  · rw [if_pos hin]
    have hstored := h.stored (wa - va) (by omega)
    rwa [show va + (wa - va) = wa by omega] at hstored
  · rw [if_neg hin]
    have hflat := h.flat hwa
    cases he : Vm.flat m root wa with
    | none =>
      rw [he] at hflat
      unfold userByte view
      rw [he, hflat]
      rfl
    | some e =>
      rw [he] at hflat
      rw [Vm.userByte_eq he, Vm.userByte_eq hflat]
      congr 1
      refine h.outside _ _ ?_
      intro k hk hbacks
      have heq := Backs.inj hs ⟨hwa, ⟨e, he, rfl⟩, rfl⟩ hbacks
      omega

theorem Copied.contents (h : Copied m m' root va bytes) (hs : Space 4 m root) {sz : Nat}
    {byte : Nat → UInt8} (hsz : sz ≤ 2 ^ 47) (hc : Contents m root sz byte) :
    Contents m' root sz (overlay byte va bytes) := by
  intro wa hlow hhigh
  rw [h.userByte_eq hs (by omega)]
  unfold overlay
  by_cases hin : va ≤ wa ∧ wa < va + bytes.length
  · rw [if_pos hin, if_pos hin]
  · rw [if_neg hin, if_neg hin, hc wa hlow hhigh]

end Stores

/-! ## Images -/

/-- The kernel has only its entry in the upper half of the root. -/
def Upper (m : Machine) (root : Nat) : Prop :=
  ∀ i : Index, 256 < i.val → m.child root i = none

/-- The address space `root` of `m` was built from pages that were free in `m₀`, up to the size
`sz`; its bytes are given by `byte`. -/
structure Image (m₀ m : Machine) (root sz : Nat) (byte : Nat → UInt8) : Prop where
  turns : Turns m₀ m [] [userTree root]
  entries : ∀ va, va < 2 ^ 47 → if pgsize ≤ va ∧ va < pgroundup sz then
    ∃ f, flat m root va = some (userEntry f) else flat m root va = none
  tables : Tables m root (pgroundup sz)
  blank : Blank m root
  upper : Upper m root
  count : m.free.length + 1 + imageCost (pgroundup sz) = m₀.free.length
  bytes : Contents m root (pgroundup sz) byte
  zero : ∀ va, pgroundup sz ≤ va → byte va = 0
  low : pgsize ≤ sz
  high : sz ≤ 2 ^ 47

section Build

variable {m₀ m m' : Machine} {root sz newsz P : Nat} {byte : Nat → UInt8} {E : VmStop → Prop}

theorem Upper.of_pte (h : Upper m root)
    (hsame : ∀ j : Index, 256 ≤ j.val → m'.pte root j = m.pte root j) : Upper m' root := by
  intro i hi
  have hold := h i hi
  unfold Machine.child at hold ⊢
  rwa [hsame i (by omega)]

/-- A new page table. -/
theorem setupkvm_image (h : Forest m []) (hE : m.free = [] → E .nullPointer) :
    wp setupkvm (fun d m' => Image m m' d pgsize fun _ => 0) E m := by
  have hupper : wp setupkvm (fun d m' => Upper m' d) (fun _ => True) m := by
    unfold setupkvm
    rw [wp_bind]
    refine wp_kalloc (fun _ => trivial) ?_
    intro f fs _
    simp only
    rw [wp_bind, wp_modify, wp_bind, wp_modify, wp_pure]
    intro i hi
    have hne : i ≠ 256 := by
      rintro rfl
      exact absurd hi (by decide)
    unfold Machine.child
    rw [Machine.pte_setPte_of_ne _ _ _ _ (Or.inr hne), Machine.pte_setPage_zero,
      if_neg (by decide)]
  have hround : pgroundup pgsize = pgsize := by decide
  have hcost : imageCost pgsize = 0 := if_pos (le_refl _)
  refine wp_mono (wp_and_right hupper (setupkvm_turns h hE)) ?_ fun _ hbad => hbad
  rintro d m' ⟨hup, ht, hempty, hcount⟩
  refine ⟨ht, ?_, ?_, ?_, hup, ?_, ?_, fun _ _ => rfl, le_refl _, by decide⟩
  · intro va hva
    rw [hround, if_neg (by omega)]
    exact hempty.flat va hva
  · rw [hround]
    exact hempty.tables
  · intro va hva e he
    have hnone := hempty.tables va hva 0 (by decide)
    rw [List.drop_zero] at hnone
    unfold slotAt at he
    cases ht : nodeAt m'.child d (tablePath va) with
    | none =>
      rw [ht] at he
      cases he
    | some t =>
      rw [ht] at hnone
      have hbad := (hnone.mp (Option.some_ne_none t)).1
      omega
  · rw [hround, hcost]
    exact hcount
  · intro va hlow hhigh
    rw [hround] at hhigh
    omega

/-- `walkpgdir` finds the entry of a page that is mapped. -/
theorem walkpgdir_flat {va : Nat} {e : UInt64} (h : flat m root va = some e) :
    ∃ t, nodeAt m.child root (tablePath va) = some t ∧ m.pte t (ptx va) = e ∧ present e = true ∧
      walkpgdir root va false m = .ok (some (t, ptx va), m) := by
  unfold flat at h
  obtain ⟨t, ht, hte⟩ := Option.bind_eq_some_iff.mp h
  split at hte
  · have he := Option.some.inj hte
    refine ⟨t, ht, he, he ▸ ‹_›, ?_⟩
    rw [walkpgdir_lookup, ht]
    rfl
  · cases hte

theorem Image.forest (h : Image m₀ m root sz byte) : Forest m [userTree root] :=
  h.turns.forest

theorem Image.present (h : Image m₀ m root sz byte) {va : Nat} (hlow : pgsize ≤ va)
    (hhigh : va < pgroundup sz) (hva : va < 2 ^ 47) : ∃ f, flat m root va = some (userEntry f) := by
  have hentry := h.entries va hva
  rwa [if_pos ⟨hlow, hhigh⟩] at hentry

theorem Image.absent (h : Image m₀ m root sz byte) {va : Nat}
    (hout : ¬(pgsize ≤ va ∧ va < pgroundup sz)) (hva : va < 2 ^ 47) : flat m root va = none := by
  have hentry := h.entries va hva
  rwa [if_neg hout] at hentry

/-- One more page leaves the kernel's entries alone. -/
theorem allocPage_upper {oldsz a : Nat} (hf : Forest m [userTree root]) (ha : a % pgsize = 0)
    (hlt : a < 2 ^ 47) (h : Upper m root) :
    wp (allocPage root oldsz newsz a) (fun more m' => more = true → Upper m' root)
      (fun _ => True) m := by
  unfold allocPage
  rw [wp_bind]
  refine wp_kalloc ?_ ?_
  · intro _
    refine wp_bind_of wp_true ?_
    rintro _ m' - hbad
    cases hbad
  · intro f fs hcons
    have hne : root ≠ f := by
      rintro rfl
      refine hf.space.fresh root ?_ ⟨[], UserPath.nil _, rfl⟩
      rw [hcons]
      exact List.mem_cons_self
    have hspace := (hf.space.mono (show 3 ≤ 4 by omega)).take (le_refl 3) hcons
    simp only
    rw [wp_bind, wp_modify, mappages_one ha hlt]
    refine wp_bind_of (mapPage_lays hspace.1.space hlt trivial) ?_
    rintro r m₁ (⟨rfl, -⟩ | ⟨rfl, hlaid⟩)
    · rw [if_pos (by decide)]
      refine wp_bind_of wp_true ?_
      intro _ m₂ _
      refine wp_bind_of wp_true ?_
      rintro _ m₃ - hbad
      cases hbad
    · rw [if_neg (by decide), wp_pure]
      intro _
      refine h.of_pte ?_
      intro j hj
      rw [hlaid.upper j hj]
      exact Machine.pte_of_mem_eq m (Machine.setPage_mem_of_ne _ _ hne) j

/-- The loop of `allocuvm` gets through if there are enough pages. -/
theorem allocuvmLoop_costs {oldsz n : Nat} (hf : Forest m [userTree root])
    (htables : Tables m root P) (hupper : Upper m root) (hmod : P % pgsize = 0)
    (hle : pgsize ≤ P) (hlow : pgroundup oldsz ≤ P) (hsz : oldsz ≤ newsz) (htop : newsz ≤ 2 ^ 47)
    (hrange : ∀ k < n, P + k * pgsize < newsz) :
    wp (allocuvmLoop root oldsz newsz (pagesFrom P n))
      (fun r m' => r = 0 ∧ m.free.length + imageCost P < imageCost (P + n * pgsize) ∨
        r = newsz ∧ Tables m' root (P + n * pgsize) ∧ Upper m' root ∧
          m'.free.length + imageCost (P + n * pgsize) = m.free.length + imageCost P)
      (fun _ => True) m := by
  induction n generalizing m P with
  | zero =>
    rw [Nat.zero_mul, Nat.add_zero]
    exact Or.inr ⟨rfl, htables, hupper, rfl⟩
  | succ n ih =>
    have hnext : P + (n + 1) * pgsize = P + pgsize + n * pgsize := by
      rw [Nat.succ_mul]
      omega
    have hmod' : (P + pgsize) % pgsize = 0 := by
      rw [Nat.add_mod_right]
      exact hmod
    have hP := hrange 0 (Nat.succ_pos n)
    rw [Nat.zero_mul, Nat.add_zero] at hP
    have hin : P ∈ pagesBelow (pgroundup oldsz) newsz :=
      (mem_pagesBelow (pgroundup_mod oldsz)).mpr ⟨hmod, hlow, hP⟩
    have hcost := imageCost_succ hmod hle
    have hmono := imageCost_pages hmod' (show pgsize ≤ P + pgsize by omega) n
    rw [pagesFrom_succ, allocuvmLoop, hnext]
    have hturns : wp (allocPage root oldsz newsz P) _ (fun _ => True) m :=
      allocPage_turns hf hin hsz htop fun _ => trivial
    have hcosts : wp (allocPage root oldsz newsz P) _ (fun _ => True) m :=
      allocPage_costs hf htables hmod hle (show P < 2 ^ 47 by omega)
    have hup : wp (allocPage root oldsz newsz P) _ (fun _ => True) m :=
      allocPage_upper hf hmod (show P < 2 ^ 47 by omega) hupper
    refine wp_bind_of (wp_and hturns (wp_and hcosts hup)) ?_
    rintro more m₁ ⟨⟨ht, -⟩, ⟨rfl, hfew⟩ | ⟨rfl, htables₁, hcount⟩, hupper₁⟩
    · rw [if_neg (by decide), wp_pure]
      exact Or.inl ⟨rfl, by omega⟩
    · rw [if_pos rfl]
      refine wp_mono (ih ht.forest htables₁ (hupper₁ rfl) hmod' (by omega) (by omega) ?_) ?_
        fun _ hbad => hbad
      · intro k hk
        have hkn := hrange (k + 1) (by omega)
        rw [Nat.succ_mul] at hkn
        omega
      · rintro r m₂ (⟨hr, hfew⟩ | ⟨hr, htables₂, hupper₂, hcount₂⟩)
        · exact Or.inl ⟨hr, by omega⟩
        · exact Or.inr ⟨hr, htables₂, hupper₂, by omega⟩

theorem flat_of_view {va : Nat} {e : UInt64} {x : Page} (h : view m root va = some (e, x)) :
    flat m root va = some e := by
  obtain ⟨e', he', heq⟩ := Option.map_eq_some_iff.mp h
  cases heq
  exact he'

theorem userByte_of_zero {va : Nat} {e : UInt64}
    (h : view m root va = some (e, Bytes.zero pgsize)) : userByte m root va = some 0 := by
  unfold userByte
  rw [h, Option.map_some, Bytes.byteAt_zero]

/-- The pages that `allocuvm` adds. -/
theorem pagesBelow_round (hle : sz ≤ newsz) (htop : newsz ≤ 2 ^ 47) :
    ∃ n, pagesBelow (pgroundup sz) newsz = pagesFrom (pgroundup sz) n ∧
      pgroundup sz + n * pgsize = pgroundup newsz := by
  refine ⟨_, rfl, ?_⟩
  rw [pgroundup_of_le (hle.trans htop), pgroundup_of_le htop]
  unfold pgsize
  omega

/-- `allocuvm` adds zeroed pages, or there is not enough memory. -/
theorem Image.allocuvm (h : Image m₀ m root sz byte) (htop : newsz ≤ 2 ^ 47 ∨ kernbase ≤ newsz) :
    wp (Vm.allocuvm root sz newsz)
      (fun r m' => r = 0 ∧ Turns m₀ m' [] [userTree root] ∧
          (kernbase ≤ newsz ∨ m₀.free.length < 1 + imageCost (pgroundup (max sz newsz))) ∨
        newsz ≤ 2 ^ 47 ∧ r = max sz newsz ∧ Image m₀ m' root (max sz newsz) byte) E m := by
  have hkernbase : 2 ^ 47 < kernbase := by decide
  unfold Vm.allocuvm
  by_cases hkern : newsz ≥ kernbase
  · rw [if_pos hkern, wp_pure]
    exact Or.inl ⟨rfl, h.turns, Or.inl hkern⟩
  have htop := htop.resolve_right hkern
  rw [if_neg hkern]
  by_cases hlt : newsz < sz
  · rw [if_pos hlt, wp_pure, Nat.max_eq_left hlt.le]
    exact Or.inr ⟨htop, rfl, h⟩
  have hle : sz ≤ newsz := Nat.le_of_not_lt hlt
  have hlow := h.low
  obtain ⟨n, hpages, hend⟩ := pagesBelow_round hle htop
  have hround := pgroundup_of_le htop
  have hround₀ := pgroundup_of_le (hle.trans htop)
  have hfresh : ∀ a ∈ pagesBelow (pgroundup sz) newsz, flat m root a ≠ none → E .remap := by
    intro a ha hbad
    have hin := (mem_pagesBelow (pgroundup_mod sz)).mp ha
    exact absurd (h.absent (by omega) (by omega)) hbad
  have hrange : ∀ k < n, pgroundup sz + k * pgsize < newsz := by
    intro k hk
    have hmem : pgroundup sz + k * pgsize ∈ pagesBelow (pgroundup sz) newsz := by
      rw [hpages]
      exact mem_pagesFrom.mpr ⟨k, hk, rfl⟩
    exact ((mem_pagesBelow (pgroundup_mod sz)).mp hmem).2.2
  have hcosts : wp (allocuvmLoop root sz newsz (pagesFrom (pgroundup sz) n)) _ (fun _ => True) m :=
    allocuvmLoop_costs h.forest h.tables h.upper (pgroundup_mod sz)
      (by unfold pgsize at *; omega) (le_refl _) hle htop hrange
  rw [← hpages, hend] at hcosts
  rw [if_neg hlt, Nat.max_eq_right hle]
  refine wp_mono (wp_and_right hcosts (allocuvmLoop_turns h.forest (fun _ ha => ha)
    (pagesFrom_nodup _ _) hle htop hfresh)) ?_ fun _ hbad => hbad
  have hcount := h.count
  rintro r m' ⟨⟨rfl, hfew⟩ | ⟨rfl, htables, hupper, hcount'⟩, ht, hres⟩
  · exact Or.inl ⟨rfl, h.turns.trans ht, Or.inr (by omega)⟩
  rcases hres with ⟨hzero, -⟩ | ⟨-, hblank, hadds⟩
  · unfold pgsize at hlow
    omega
  have hview : ∀ va, va < 2 ^ 47 → if pgroundup sz ≤ va ∧ va < pgroundup r then
        ∃ f, view m' root va = some (userEntry f, Bytes.zero pgsize)
      else view m' root va = view m root va := by
    intro va hva
    have hva := hadds va hva
    simpa only [pgrounddown_mem_pagesBelow htop] using hva
  refine Or.inr ⟨htop, rfl, h.turns.trans ht, ?_, htables, hblank h.blank, hupper, by omega, ?_, ?_,
    hlow.trans hle, htop⟩
  · intro va hva
    have hnew := hview va hva
    have hold := h.entries va hva
    by_cases hin : pgroundup sz ≤ va ∧ va < pgroundup r
    · rw [if_pos hin] at hnew
      obtain ⟨f, hf⟩ := hnew
      rw [if_pos (by unfold pgsize at *; omega)]
      exact ⟨f, flat_of_view hf⟩
    · rw [if_neg hin] at hnew
      have hsame : flat m' root va = flat m root va := by
        unfold view at hnew
        cases hm : flat m root va with
        | none =>
          rw [hm, Option.map_none, Option.map_eq_none_iff] at hnew
          exact hnew
        | some e =>
          rw [hm, Option.map_some] at hnew
          exact flat_of_view hnew
      rw [hsame]
      by_cases hlowpart : pgsize ≤ va ∧ va < pgroundup sz
      · rw [if_pos hlowpart] at hold
        rw [if_pos (by omega)]
        exact hold
      · rw [if_neg hlowpart] at hold
        rw [if_neg (by omega)]
        exact hold
  · intro va hva hva'
    have hnew := hview va (by omega)
    by_cases hin : pgroundup sz ≤ va ∧ va < pgroundup r
    · rw [if_pos hin] at hnew
      obtain ⟨f, hf⟩ := hnew
      rw [userByte_of_zero hf, h.zero va hin.1]
    · rw [if_neg hin] at hnew
      rw [userByte_of_view hnew]
      exact h.bytes va hva (by omega)
  · intro va hva
    exact h.zero va (by omega)

/-- Stores to the pages of an image. -/
theorem Image.copied {va : Nat} {bytes : List UInt8} (h : Image m₀ m root sz byte)
    (hc : Copied m m' root va bytes) (hend : va + bytes.length ≤ pgroundup sz) :
    Image m₀ m' root sz (overlay byte va bytes) := by
  have hspace := h.forest.space
  have hround := pgroundup_of_le h.high
  have hhigh := h.high
  have htable : ∀ s, Reaches m.child root (UserPath 3) s → m'.mem s = m.mem s :=
    fun s hs => hc.mem_table hspace hs
  refine ⟨h.turns.trans (hc.turns h.forest), ?_, h.tables.of_mem htable, ?_, ?_, ?_,
    hc.contents hspace (by omega) h.bytes, ?_, h.low, h.high⟩
  · intro wa hwa
    rw [hc.flat hwa]
    exact h.entries wa hwa
  · intro wa hwa e he
    rw [hc.slots wa hwa] at he
    exact h.blank wa hwa e he
  · refine h.upper.of_pte ?_
    intro j _
    exact Machine.pte_of_mem_eq m (htable root ⟨[], UserPath.nil _, rfl⟩) j
  · rw [hc.free]
    exact h.count
  · intro wa hwa
    unfold overlay
    rw [if_neg (by omega)]
    exact h.zero wa hwa

end Build

end Xv6.Vm
