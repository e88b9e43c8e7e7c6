import Xv6.Foundations.RadixTree
import Xv6.Vm.PageTable

/-!
# Virtual memory - Address spaces

A page table is read as a tree of linked pages: the path of an address has its four
indices, and the user half of a page table are the paths that start below entry 256 of
the root.  {lit}`Space` says that no page is shared within the user half nor with the
free list.  {lit}`flat` is what the tree stands for, a partial map from addresses to
entries.

The lemmas say what the single steps of the kernel do to both: making a table, setting
an entry, giving a page back.

Main results:

- Theorem {lit}`pagePath_inj`: user pages have different paths.
- Theorem {lit}`walkpgdir_spec`: making tables leaves the map as it is.
- Theorem {lit}`flat_setPte`: an entry stands for one page.
- Theorems {lit}`Space.map`, {lit}`Space.unmap`: a page moves into the tree, or out of it.
-/

namespace Xv6.Vm

open Foundations

/-! ## Paths -/

/-- The user half of the tree, down to depth `d`: tables have depth at most 3, the pages
they map have depth 4. -/
def UserPath (d : Nat) (p : List Index) : Prop :=
  p.length ≤ d ∧ ∀ i ∈ p.getLast?, i.val < 256

theorem UserPath.nil (d : Nat) : UserPath d [] := by
  simp [UserPath]

theorem userPath_tailClosed (d : Nat) : TailClosed (UserPath d) := by
  intro i p h
  refine ⟨?_, ?_⟩
  · have hlen := h.1
    rw [List.length_cons] at hlen
    omega
  · intro j hj
    apply h.2 j
    cases p with
    | nil => cases hj
    | cons k p => exact hj

theorem UserPath.mono {d d' : Nat} (hd : d ≤ d') {p : List Index} (h : UserPath d p) :
    UserPath d' p :=
  ⟨h.1.trans hd, h.2⟩

/-- The path of the table that maps `va`. -/
def tablePath (va : Nat) : List Index :=
  [pdx va, pdpx va, pmx va]

/-- The path of the page that `va` is mapped to. -/
def pagePath (va : Nat) : List Index :=
  ptx va :: tablePath va

theorem pmx_lt {va : Nat} (h : va < 2 ^ 47) : (pmx va).val < 256 := by
  change va / 2 ^ 39 % 512 < 256
  omega

theorem userPath_tablePath {va : Nat} (h : va < 2 ^ 47) : UserPath 3 (tablePath va) := by
  refine ⟨le_refl _, ?_⟩
  intro i hi
  cases hi
  exact pmx_lt h

theorem userPath_pagePath {va : Nat} (h : va < 2 ^ 47) : UserPath 4 (pagePath va) := by
  refine ⟨le_refl _, ?_⟩
  intro i hi
  cases hi
  exact pmx_lt h

/-- The four indices of a user address give its page. -/
theorem pagePath_inj {va wa : Nat} (hva : va < 2 ^ 47) (hwa : wa < 2 ^ 47)
    (h : pagePath va = pagePath wa) : va / pgsize = wa / pgsize := by
  unfold pagePath tablePath at h
  simp only [List.cons.injEq, ptx, pdx, pdpx, pmx, px, Fin.mk.injEq, and_true] at h
  rcases h with ⟨h0, h1, h2, h3⟩
  unfold pgsize
  omega

/-- Addresses of one page have the same path. -/
theorem pagePath_congr {va wa : Nat} (h : va / pgsize = wa / pgsize) :
    pagePath va = pagePath wa := by
  have hpx : ∀ s, 12 ≤ s → px s va = px s wa := by
    intro s hs
    have hsplit : 2 ^ s = pgsize * 2 ^ (s - 12) := by
      rw [show pgsize = 2 ^ 12 from rfl, ← pow_add]
      congr 1
      omega
    apply Fin.ext
    change va / 2 ^ s % 512 = wa / 2 ^ s % 512
    rw [hsplit, ← Nat.div_div_eq_div_mul, ← Nat.div_div_eq_div_mul, h]
  unfold pagePath tablePath ptx pdx pdpx pmx
  rw [hpx 12 (by omega), hpx 21 (by omega), hpx 30 (by omega), hpx 39 (by omega)]

/-! ## The tree and the map -/

/-- The page that entry `i` of table `t` points to. -/
def Machine.child (m : Machine) (t : Nat) (i : Index) : Option Nat :=
  if present (m.pte t i) then some (frame (m.pte t i)) else none

/-- The user half of the page table in `root` down to depth `d`, and the free list:
no page is used twice, and `kfree` accepts the free ones. -/
structure Space (d : Nat) (m : Machine) (root : Nat) : Prop where
  unshared : Unshared m.child root (UserPath d)
  nodup : m.free.Nodup
  fresh : ∀ f ∈ m.free, ¬Reaches m.child root (UserPath d) f
  freeable : ∀ f ∈ m.free, m.Freeable f

/-- The partial map that a page table stands for: the present entry for `va`. -/
def flat (m : Machine) (root va : Nat) : Option UInt64 :=
  (nodeAt m.child root (tablePath va)).bind fun t =>
    if present (m.pte t (ptx va)) then some (m.pte t (ptx va)) else none

/-- The present entry for `va`, with the page it maps. -/
def view (m : Machine) (root va : Nat) : Option (UInt64 × Page) :=
  (flat m root va).map fun e => (e, m.mem (frame e))

/-- The entry for `va`, which need not be present. -/
def slotAt (m : Machine) (root va : Nat) : Option UInt64 :=
  (nodeAt m.child root (tablePath va)).map fun t => m.pte t (ptx va)

/-- Entries that are not present are 0. -/
def Blank (m : Machine) (root : Nat) : Prop :=
  ∀ va, va < 2 ^ 47 → ∀ e, slotAt m root va = some e → present e = true ∨ e = 0

/-- Both page tables map user addresses alike. -/
def SameFlat (m m' : Machine) (root : Nat) : Prop :=
  ∀ va, va < 2 ^ 47 → flat m' root va = flat m root va

theorem SameFlat.trans {m m' m'' : Machine} {root : Nat} (h : SameFlat m m' root)
    (h' : SameFlat m' m'' root) : SameFlat m m'' root := by
  intro va hva
  rw [h' va hva, h va hva]

/-- Both page tables show the same pages at user addresses. -/
def SameView (m m' : Machine) (root : Nat) : Prop :=
  ∀ va, va < 2 ^ 47 → view m' root va = view m root va

theorem SameView.refl {m : Machine} {root : Nat} : SameView m m root :=
  fun _ _ => rfl

theorem SameView.trans {m m' m'' : Machine} {root : Nat} (h : SameView m m' root)
    (h' : SameView m' m'' root) : SameView m m'' root := by
  intro va hva
  rw [h' va hva, h va hva]

/-- What is seen at an address depends on its entry and the page behind it. -/
theorem view_of_flat {m m' : Machine} {root va : Nat} (h : flat m' root va = flat m root va)
    (hmem : ∀ e, flat m root va = some e → m'.mem (frame e) = m.mem (frame e)) :
    view m' root va = view m root va := by
  unfold view
  rw [h]
  cases he : flat m root va with
  | none => rfl
  | some e => rw [Option.map_some, Option.map_some, hmem e he]

theorem flat_eq_slotAt {m : Machine} {root va : Nat} :
    flat m root va = (slotAt m root va).bind fun e => if present e then some e else none := by
  unfold flat slotAt
  cases nodeAt m.child root (tablePath va) with
  | none => rw [Option.bind_none, Option.map_none, Option.bind_none]
  | some t => rw [Option.bind_some, Option.map_some, Option.bind_some]

/-- The second page table has the entries of the first, and new ones that are 0. -/
def SameSlots (m m' : Machine) (root : Nat) : Prop :=
  ∀ va, va < 2 ^ 47 → slotAt m' root va = slotAt m root va ∨
    slotAt m root va = none ∧ slotAt m' root va = some 0

namespace SameSlots

variable {m m' m'' : Machine} {root : Nat}

theorem refl : SameSlots m m root :=
  fun _ _ => Or.inl rfl

theorem trans (h : SameSlots m m' root) (h' : SameSlots m' m'' root) : SameSlots m m'' root := by
  intro va hva
  rcases h va hva with hsame | ⟨hnone, hzero⟩
  · rw [← hsame]
    exact h' va hva
  · rcases h' va hva with hsame' | ⟨hnone', _⟩
    · exact Or.inr ⟨hnone, hsame'.trans hzero⟩
    · rw [hnone'] at hzero
      cases hzero

theorem sameFlat (h : SameSlots m m' root) : SameFlat m m' root := by
  intro va hva
  rw [flat_eq_slotAt, flat_eq_slotAt]
  rcases h va hva with hsame | ⟨hnone, hzero⟩
  · rw [hsame]
  · rw [hnone, hzero, Option.bind_some, Option.bind_none, present_zero]
    rfl

theorem blank (h : SameSlots m m' root) (hb : Blank m root) : Blank m' root := by
  intro va hva e he
  rcases h va hva with hsame | ⟨_, hzero⟩
  · rw [hsame] at he
    exact hb va hva e he
  · rw [hzero, Option.some.injEq] at he
    exact Or.inr he.symm

end SameSlots

theorem flat_of_table {m : Machine} {root va t : Nat}
    (ht : nodeAt m.child root (tablePath va) = some t) :
    flat m root va = if present (m.pte t (ptx va)) then some (m.pte t (ptx va)) else none := by
  rw [flat, ht, Option.bind_some]

/-- Addresses of one page have the same entry. -/
theorem flat_congr {m : Machine} {root va wa : Nat} (h : va / pgsize = wa / pgsize) :
    flat m root va = flat m root wa := by
  have hpath := pagePath_congr h
  unfold pagePath at hpath
  rw [List.cons.injEq] at hpath
  unfold flat
  rw [hpath.1, hpath.2]

/-- The page that `va` is mapped to is a node of the tree. -/
theorem nodeAt_pagePath {m : Machine} {root va : Nat} :
    nodeAt m.child root (pagePath va) = (flat m root va).map frame := by
  unfold flat pagePath
  rw [nodeAt]
  cases nodeAt m.child root (tablePath va) with
  | none => rfl
  | some t =>
    rw [Option.bind_some, Option.bind_some, Machine.child]
    split
    · rfl
    · rfl

/-- What a step may do to memory: it moves pages between the tree and the free list,
and changes only these. -/
structure Moves (d : Nat) (m m' : Machine) (root : Nat) : Prop where
  kend : m'.kend = m.kend
  kpdpt : m'.kpdpt = m.kpdpt
  refreed : m'.refreed = m.refreed
  pages : ∀ f, Reaches m'.child root (UserPath d) f ∨ f ∈ m'.free →
    Reaches m.child root (UserPath d) f ∨ f ∈ m.free
  mem : ∀ g, ¬Reaches m.child root (UserPath d) g → g ∉ m.free → m'.mem g = m.mem g

namespace Moves

variable {d root : Nat} {m m' m'' : Machine}

theorem refl : Moves d m m root :=
  ⟨rfl, rfl, rfl, fun _ hf => hf, fun _ _ _ => rfl⟩

theorem trans (h : Moves d m m' root) (h' : Moves d m' m'' root) : Moves d m m'' root := by
  refine ⟨h'.kend.trans h.kend, h'.kpdpt.trans h.kpdpt, h'.refreed.trans h.refreed,
    fun f hf => h.pages f (h'.pages f hf), ?_⟩
  intro g hg hfree
  have hnot : ¬(Reaches m'.child root (UserPath d) g ∨ g ∈ m'.free) := by
    intro hbad
    exact (h.pages g hbad).elim hg hfree
  rw [h'.mem g (fun hr => hnot (Or.inl hr)) (fun hf => hnot (Or.inr hf)), h.mem g hg hfree]

theorem freeable (h : Moves d m m' root) (f : Nat) : m'.Freeable f ↔ m.Freeable f := by
  unfold Machine.Freeable
  rw [h.kend]

end Moves

/-- No page of the tree or the free list is lost. -/
def Saves (d : Nat) (m m' : Machine) (root : Nat) : Prop :=
  ∀ f, Reaches m.child root (UserPath d) f ∨ f ∈ m.free →
    Reaches m'.child root (UserPath d) f ∨ f ∈ m'.free

theorem Saves.refl {d root : Nat} {m : Machine} : Saves d m m root :=
  fun _ hf => hf

theorem Saves.trans {d root : Nat} {m m' m'' : Machine} (h : Saves d m m' root)
    (h' : Saves d m' m'' root) : Saves d m m'' root :=
  fun f hf => h' f (h f hf)

section Steps

variable {d root t f : Nat} {m m' : Machine} {p : List Index} {i : Index}

theorem Machine.child_of_mem_eq {s : Nat} (h : m'.mem s = m.mem s) (j : Index) :
    m'.child s j = m.child s j := by
  unfold Machine.child
  rw [m.pte_of_mem_eq h]

theorem Machine.child_setPte_of_ne {s : Nat} {j : Index} {e : UInt64} (h : s ≠ t ∨ j ≠ i) :
    (m.setPte t i e).child s j = m.child s j := by
  unfold Machine.child
  rw [m.pte_setPte_of_ne t i e h]

theorem Machine.child_setPte_self {e : UInt64} :
    (m.setPte t i e).child t i = if present e then some (frame e) else none := by
  unfold Machine.child
  rw [m.pte_setPte_self]

/-- Pages that `kfree` accepts have numbers that fit into an entry. -/
theorem Machine.Freeable.lt (h : m.Freeable f) : f < 2 ^ 52 := by
  have hlt := h.2
  unfold pgsize phystop at hlt
  omega

theorem Machine.Freeable.ne_zero (h : m.Freeable f) : f ≠ 0 := by
  rintro rfl
  have hpos := m.kend_pos
  have hle := h.1
  omega

/-- Less of the tree. -/
theorem Space.mono {d' : Nat} (h : Space d m root) (hd : d' ≤ d) : Space d' m root := by
  refine ⟨h.unshared.mono fun p hp => hp.mono hd, h.nodup, ?_, h.freeable⟩
  rintro f hf ⟨p, hp, hpf⟩
  exact h.fresh f hf ⟨p, hp.mono hd, hpf⟩

/-- The page at `va` is no table. -/
theorem Space.leaf_not_table (h : Space 4 m root) {va : Nat} (hva : va < 2 ^ 47) {e : UInt64}
    (he : flat m root va = some e) : ¬Reaches m.child root (UserPath 3) (frame e) := by
  rintro ⟨q, hq, hqf⟩
  have hpage : nodeAt m.child root (pagePath va) = some (frame e) := by
    rw [nodeAt_pagePath, he]
    rfl
  have hsame := h.unshared _ _ _ (hq.mono (by omega)) (userPath_pagePath hva) hqf hpage
  have hlen := hq.1
  rw [hsame] at hlen
  simp [pagePath, tablePath] at hlen

/-- The page at `va` is part of the tree. -/
theorem reaches_leaf {va : Nat} (hva : va < 2 ^ 47) {e : UInt64} (he : flat m root va = some e) :
    Reaches m.child root (UserPath 4) (frame e) := by
  refine ⟨pagePath va, userPath_pagePath hva, ?_⟩
  rw [nodeAt_pagePath, he]
  rfl

/-- Different pages have different frames. -/
theorem Space.frame_inj (h : Space 4 m root) {va wa : Nat} (hva : va < 2 ^ 47) (hwa : wa < 2 ^ 47)
    {e e' : UInt64} (he : flat m root va = some e) (he' : flat m root wa = some e')
    (heq : frame e = frame e') : va / pgsize = wa / pgsize := by
  apply pagePath_inj hva hwa
  refine h.unshared _ _ (frame e) (userPath_pagePath hva) (userPath_pagePath hwa) ?_ ?_
  · rw [nodeAt_pagePath, he]
    rfl
  · rw [nodeAt_pagePath, he', heq]
    rfl

/-- What changes only tables and free pages leaves the pages as they are. -/
theorem Space.view_of_moves (h : Space 4 m root) (hm : Moves 3 m m' root) {va : Nat}
    (hva : va < 2 ^ 47) (hflat : flat m' root va = flat m root va) :
    view m' root va = view m root va := by
  refine view_of_flat hflat ?_
  intro e he
  refine hm.mem _ (h.leaf_not_table hva he) ?_
  intro hbad
  exact h.fresh _ hbad (reaches_leaf hva he)

/-! ## Memory outside the tree -/

section Outside

variable (hmem : ∀ s, Reaches m.child root (UserPath d) s → m'.mem s = m.mem s)

include hmem

theorem nodeAt_of_mem {q : List Index} (hq : UserPath d q) :
    nodeAt m'.child root q = nodeAt m.child root q :=
  nodeAt_congr (userPath_tailClosed d) (fun s j hs => Machine.child_of_mem_eq (hmem s hs) j) hq

theorem reaches_of_mem {g : Nat} :
    Reaches m'.child root (UserPath d) g ↔ Reaches m.child root (UserPath d) g := by
  constructor
  · rintro ⟨q, hq, hqg⟩
    exact ⟨q, hq, by rw [← nodeAt_of_mem hmem hq, hqg]⟩
  · rintro ⟨q, hq, hqg⟩
    exact ⟨q, hq, by rw [nodeAt_of_mem hmem hq, hqg]⟩

/-- Nothing changes when the pages of all tables stay. -/
theorem sameSlots_of_mem (hd : 3 ≤ d) : SameSlots m m' root := by
  intro va hva
  have hpath := (userPath_tablePath hva).mono hd
  left
  unfold slotAt
  rw [nodeAt_of_mem hmem hpath]
  cases hs : nodeAt m.child root (tablePath va) with
  | none => rw [Option.map_none, Option.map_none]
  | some s =>
    rw [Option.map_some, Option.map_some, Machine.pte_of_mem_eq m (hmem s ⟨_, hpath, hs⟩)]

/-- The free list may change to other pages outside the tree. -/
theorem Space.of_mem (h : Space d m root) (hkend : m'.kend = m.kend) (hnodup : m'.free.Nodup)
    (hfree : ∀ g ∈ m'.free, ¬Reaches m.child root (UserPath d) g ∧ m.Freeable g) :
    Space d m' root := by
  refine ⟨?_, hnodup, ?_, ?_⟩
  · intro q r g hq hr hqg hrg
    rw [nodeAt_of_mem hmem hq] at hqg
    rw [nodeAt_of_mem hmem hr] at hrg
    exact h.unshared q r g hq hr hqg hrg
  · intro g hg hbad
    exact (hfree g hg).1 ((reaches_of_mem hmem).mp hbad)
  · intro g hg
    unfold Machine.Freeable
    rw [hkend]
    exact (hfree g hg).2

end Outside

/-! ## Making a table -/

/-- The entry that `walkpgdir` stores for a new table. -/
def tableEntry (f : Nat) : UInt64 :=
  physAddr f ||| (pteP ||| pteW ||| pteU)

theorem present_tableEntry (f : Nat) : present (tableEntry f) = true := by
  have hflags : pteP ||| pteW ||| pteU = (pteW ||| pteU) ||| pteP := by decide
  rw [tableEntry, hflags, ← UInt64.or_assoc]
  exact present_or _

theorem frame_tableEntry (hf : f < 2 ^ 52) : frame (tableEntry f) = f :=
  frame_physAddr_or hf (by decide)

/-- A zeroed page from the free list is put into an empty entry of a table. -/
def Machine.graft (m : Machine) (fs : List Nat) (f t : Nat) (i : Index) : Machine :=
  ({ m with free := fs }.setPage f (Bytes.zero pgsize)).setPte t i (tableEntry f)

theorem Machine.graft_mem {fs : List Nat} {g : Nat} (hgf : g ≠ f) (hgt : g ≠ t) :
    (m.graft fs f t i).mem g = m.mem g := by
  unfold Machine.graft
  rw [Machine.setPte_mem_of_ne _ _ _ _ hgt, Machine.setPage_mem_of_ne _ _ hgf]

theorem Machine.graft_pte {fs : List Nat} {s : Nat} {j : Index} (hsf : s ≠ f)
    (hst : s ≠ t ∨ j ≠ i) : (m.graft fs f t i).pte s j = m.pte s j := by
  unfold Machine.graft
  rw [Machine.pte_setPte_of_ne _ _ _ _ hst]
  exact Machine.pte_of_mem_eq _ (Machine.setPage_mem_of_ne _ _ hsf) j

theorem Machine.graft_pte_new {fs : List Nat} (hft : f ≠ t) (j : Index) :
    (m.graft fs f t i).pte f j = 0 := by
  unfold Machine.graft
  rw [Machine.pte_setPte_of_ne _ _ _ _ (Or.inl hft), Machine.pte_setPage_zero]

theorem Machine.graft_child {fs : List Nat} {s : Nat} {j : Index} (hsf : s ≠ f)
    (hst : s ≠ t ∨ j ≠ i) : (m.graft fs f t i).child s j = m.child s j := by
  unfold Machine.child
  rw [Machine.graft_pte hsf hst]

/-- What holds after a new table was put at the path `i :: p`. -/
structure Grafted (d : Nat) (m m' : Machine) (root : Nat) (q : List Index) (f : Nat) : Prop where
  space : Space d m' root
  moves : Moves d m m' root
  saves : Saves d m m' root
  slots : SameSlots m m' root
  node : ∀ r, UserPath d r →
    nodeAt m'.child root r = if r = q then some f else nodeAt m.child root r

/-- A new table in an empty entry keeps the tables apart. -/
theorem Space.graft (h : Space d m root) (hd : 3 ≤ d) {fs : List Nat} (hfree : m.free = f :: fs)
    (hp : UserPath 3 (i :: p)) (ht : nodeAt m.child root p = some t) (hnone : m.child t i = none) :
    Grafted d m (m.graft fs f t i) root (i :: p) f := by
  have hmem : f ∈ m.free := by
    rw [hfree]
    exact List.mem_cons_self
  have hfresh := h.fresh f hmem
  have hpd : UserPath d (i :: p) := hp.mono hd
  have hpd' : UserPath d p := userPath_tailClosed d i p hpd
  have htree : Reaches m.child root (UserPath d) t := ⟨p, hpd', ht⟩
  have hft : f ≠ t := by
    rintro rfl
    exact hfresh htree
  have hother : ∀ s j, Reaches m.child root (UserPath d) s → s ≠ t ∨ j ≠ i →
      (m.graft fs f t i).child s j = m.child s j := by
    intro s j hs hsj
    refine Machine.graft_child ?_ hsj
    rintro rfl
    exact hfresh hs
  have hset : (m.graft fs f t i).child t i = some f := by
    unfold Machine.graft
    rw [Machine.child_setPte_self, present_tableEntry, if_pos rfl,
      frame_tableEntry (h.freeable f hmem).lt]
  have hleaf : ∀ j, (m.graft fs f t i).child f j = none := by
    intro j
    unfold Machine.child
    rw [Machine.graft_pte_new hft, present_zero]
    rfl
  have hnode : ∀ q, UserPath d q → nodeAt (m.graft fs f t i).child root q =
      if q = i :: p then some f else nodeAt m.child root q := fun q hq =>
    nodeAt_graft (userPath_tailClosed d) h.unshared hpd' ht hnone hother hset hleaf hq
  have hold : nodeAt m.child root (i :: p) = none := by rw [nodeAt_cons ht, hnone]
  have hreach : ∀ {g}, Reaches (m.graft fs f t i).child root (UserPath d) g ↔
      g = f ∨ Reaches m.child root (UserPath d) g := reaches_add hpd hold hnode
  have hnodup := h.nodup
  rw [hfree, List.nodup_cons] at hnodup
  refine ⟨⟨h.unshared.add hfresh hnode, hnodup.2, ?_, ?_⟩, ⟨rfl, rfl, rfl, ?_, ?_⟩, ?_, ?_, hnode⟩
  · intro g hg hbad
    rcases hreach.mp hbad with rfl | hbad
    · exact hnodup.1 hg
    · exact h.fresh g (by rw [hfree]; exact List.mem_cons_of_mem f hg) hbad
  · intro g hg
    exact h.freeable g (by rw [hfree]; exact List.mem_cons_of_mem f hg)
  · rintro g (hg | hg)
    · rcases hreach.mp hg with rfl | hg
      · exact Or.inr hmem
      · exact Or.inl hg
    · right
      rw [hfree]
      exact List.mem_cons_of_mem f hg
  · intro g hg hgfree
    refine Machine.graft_mem ?_ ?_
    · rintro rfl
      exact hgfree hmem
    · rintro rfl
      exact hg htree
  · rintro g (hg | hg)
    · exact Or.inl (hreach.mpr (Or.inr hg))
    · rw [hfree] at hg
      rcases List.mem_cons.mp hg with rfl | hg
      · exact Or.inl (hreach.mpr (Or.inl rfl))
      · exact Or.inr hg
  · -- the new table has no entries, and there were none where it is
    intro va hva
    have hpath : UserPath d (tablePath va) := (userPath_tablePath hva).mono hd
    unfold slotAt
    rw [hnode _ hpath]
    by_cases heq : tablePath va = i :: p
    · right
      rw [if_pos heq, heq, hold, Option.map_some, Option.map_none, Machine.graft_pte_new hft]
      exact ⟨rfl, rfl⟩
    · left
      rw [if_neg heq]
      cases hs : nodeAt m.child root (tablePath va) with
      | none => rw [Option.map_none, Option.map_none]
      | some s =>
        have hsf : s ≠ f := by
          rintro rfl
          exact hfresh ⟨_, hpath, hs⟩
        have hst : s ≠ t := by
          rintro rfl
          have hlen := congrArg List.length (h.unshared _ _ s hpath hpd' hs ht)
          have hle := hp.1
          simp only [tablePath, List.length_cons, List.length_nil] at hlen hle
          omega
        rw [Option.map_some, Option.map_some, Machine.graft_pte hsf (Or.inl hst)]

/-! ## Walking down -/

/-- The tree got new tables at most, which map nothing. -/
structure Extends (d : Nat) (m m' : Machine) (root : Nat) : Prop where
  space : Space d m' root
  moves : Moves d m m' root
  slots : SameSlots m m' root
  keeps : ∀ q g, UserPath d q → nodeAt m.child root q = some g → nodeAt m'.child root q = some g

theorem Extends.refl (h : Space d m root) : Extends d m m root :=
  ⟨h, Moves.refl, SameSlots.refl, fun _ _ _ hg => hg⟩

theorem Extends.same (h : Extends d m m' root) : SameFlat m m' root :=
  h.slots.sameFlat

theorem Extends.trans {m'' : Machine} (h : Extends d m m' root) (h' : Extends d m' m'' root) :
    Extends d m m'' root :=
  ⟨h'.space, h.moves.trans h'.moves, h.slots.trans h'.slots,
    fun q g hq hg => h'.keeps q g hq (h.keeps q g hq hg)⟩

theorem Grafted.extends (h : Grafted d m m' root p f) (hnone : nodeAt m.child root p = none) :
    Extends d m m' root := by
  refine ⟨h.space, h.moves, h.slots, ?_⟩
  intro q g hq hg
  have hqp : q ≠ p := by
    rintro rfl
    rw [hnone] at hg
    cases hg
  rw [h.node q hq, if_neg hqp, hg]

section Rules

variable {E : VmStop → Prop}

/-- `kalloc` takes the first page of the list, or returns null. -/
theorem wp_kalloc {Q : Option Nat → Machine → Prop} (hnone : m.free = [] → Q none m)
    (hsome : ∀ f fs, m.free = f :: fs → Q (some f) { m with free := fs }) :
    wp kalloc Q E m := by
  unfold kalloc
  rw [wp_bind, wp_get]
  cases hfree : m.free with
  | nil => exact hnone hfree
  | cons f fs => exact hsome f fs hfree

/-- Page `f` is put on the free list. -/
def Machine.freed (m : Machine) (f : Nat) : Machine :=
  { m.setPage f m.junk with
    free := f :: m.free, refreed := m.refreed || decide (f ∈ m.free) }

/-- `kfree` puts the page in front, or panics. -/
theorem wp_kfree {Q : Unit → Machine → Prop} (hok : m.Freeable f → Q () (m.freed f))
    (hstop : ¬m.Freeable f → E .kfree) : wp (kfree f) Q E m := by
  unfold kfree
  rw [wp_bind, wp_get]
  by_cases hf : m.Freeable f
  · rw [if_pos hf]
    exact hok hf
  · rw [if_neg hf]
    exact hstop hf

/-- One level down, with a new table where there was none. -/
theorem descend_spec (hd : 3 ≤ d) (h : Space d m root) (hp : UserPath 3 (i :: p))
    (ht : nodeAt m.child root p = some t) :
    wp (descend t i true)
      (fun r m' => Extends d m m' root ∧ Saves d m m' root ∧
        nodeAt m'.child root (i :: p) = r) E m := by
  unfold descend
  rw [wp_bind, wp_get]
  by_cases hpresent : present (m.pte t i) = true
  · rw [if_pos hpresent, wp_pure]
    refine ⟨Extends.refl h, Saves.refl, ?_⟩
    rw [nodeAt_cons ht, Machine.child, if_pos hpresent]
  · have hchild : m.child t i = none := if_neg hpresent
    have hnone : nodeAt m.child root (i :: p) = none := by rw [nodeAt_cons ht, hchild]
    rw [if_neg hpresent, if_neg (by decide), wp_bind]
    refine wp_kalloc ?_ ?_
    · intro _
      exact ⟨Extends.refl h, Saves.refl, hnone⟩
    · intro f fs hfree
      have hgraft := h.graft hd hfree hp ht hchild
      refine ⟨hgraft.extends hnone, hgraft.saves, ?_⟩
      exact (hgraft.node (i :: p) (hp.mono hd)).trans (if_pos rfl)

/-- `walkpgdir` that may make tables finds nothing or the entry for `va`, in a page table
that stands for the same map. -/
theorem walkpgdir_spec (hd : 3 ≤ d) (h : Space d m root) {va : Nat} (hva : va < 2 ^ 47) :
    wp (walkpgdir root va true)
      (fun r m' => Extends d m m' root ∧ Saves d m m' root ∧
        ∀ t i, r = some (t, i) → nodeAt m'.child root (tablePath va) = some t ∧ i = ptx va)
      E m := by
  have hpath := userPath_tablePath hva
  have hpath1 := userPath_tailClosed 3 _ _ hpath
  have hpath2 := userPath_tailClosed 3 _ _ hpath1
  unfold walkpgdir
  refine wp_bind_of (descend_spec hd h hpath2 rfl) ?_
  rintro r m₁ ⟨hext₁, hsaves₁, hr⟩
  cases r with
  | none => exact ⟨hext₁, hsaves₁, nofun⟩
  | some pdp =>
    refine wp_bind_of (descend_spec hd hext₁.space hpath1 hr) ?_
    rintro r m₂ ⟨hext₂, hsaves₂, hr₂⟩
    cases r with
    | none => exact ⟨hext₁.trans hext₂, hsaves₁.trans hsaves₂, nofun⟩
    | some pd =>
      refine wp_bind_of (descend_spec hd hext₂.space hpath hr₂) ?_
      rintro r m₃ ⟨hext₃, hsaves₃, hr₃⟩
      have hext := (hext₁.trans hext₂).trans hext₃
      have hsaves := (hsaves₁.trans hsaves₂).trans hsaves₃
      cases r with
      | none => exact ⟨hext, hsaves, nofun⟩
      | some pgtab =>
        refine ⟨hext, hsaves, ?_⟩
        intro t i heq
        cases heq
        exact ⟨hr₃, rfl⟩

/-- Without `alloc`, `descend` only looks. -/
theorem descend_lookup : descend t i false m = .ok (m.child t i, m) := by
  unfold descend Machine.child
  have hget : (Exec.get : VmM Machine) m = .ok (m, m) := rfl
  rw [bind_ok hget]
  by_cases hpresent : present (m.pte t i) = true
  · rw [if_pos hpresent, if_pos hpresent]
    rfl
  · rw [if_neg hpresent, if_neg hpresent, if_pos rfl]
    rfl

/-- `walkpgdir` that makes no tables only looks. -/
theorem walkpgdir_lookup {va : Nat} : walkpgdir root va false m =
    .ok ((nodeAt m.child root (tablePath va)).map fun t => (t, ptx va), m) := by
  have hroot : nodeAt m.child root [] = some root := rfl
  unfold walkpgdir tablePath
  rw [bind_ok descend_lookup]
  cases hpdp : m.child root (pmx va) with
  | none =>
    have hnone : nodeAt m.child root [pmx va] = none := (nodeAt_cons hroot).trans hpdp
    have hnone' := nodeAt_append_none hnone [pdx va, pdpx va]
    rw [List.cons_append, List.cons_append, List.nil_append] at hnone'
    rw [hnone']
    rfl
  | some pdp =>
    have hpdp' : nodeAt m.child root [pmx va] = some pdp := (nodeAt_cons hroot).trans hpdp
    refine (bind_ok descend_lookup).trans ?_
    cases hpd : m.child pdp (pdpx va) with
    | none =>
      have hnone : nodeAt m.child root [pdpx va, pmx va] = none :=
        (nodeAt_cons hpdp').trans hpd
      have hnone' := nodeAt_append_none hnone [pdx va]
      rw [List.cons_append, List.nil_append] at hnone'
      rw [hnone']
      rfl
    | some pd =>
      have hpd' : nodeAt m.child root [pdpx va, pmx va] = some pd :=
        (nodeAt_cons hpdp').trans hpd
      refine (bind_ok descend_lookup).trans ?_
      rw [nodeAt_cons hpd']
      cases m.child pd (pdx va) with
      | none => rfl
      | some pgtab => rfl

end Rules

/-! ## Setting an entry -/

section Entry

variable {va wa : Nat} {e : UInt64}

/-- An entry of a last-level table is no pointer to a table. -/
theorem nodeAt_setPte (h : Space 3 m root) (hva : va < 2 ^ 47)
    (ht : nodeAt m.child root (tablePath va) = some t) {q : List Index} (hq : UserPath 3 q) :
    nodeAt (m.setPte t (ptx va) e).child root q = nodeAt m.child root q := by
  refine nodeAt_of_not_suffix (userPath_tailClosed 3) h.unshared (userPath_tablePath hva) ht
    (fun s j _ hsj => Machine.child_setPte_of_ne hsj) hq ?_
  intro hbad
  have hlen := hbad.length_le
  have hle := hq.1
  simp only [tablePath, List.length_cons, List.length_nil] at hlen
  omega

/-- The entry is that of its page alone. -/
theorem slotAt_setPte (h : Space 3 m root) (hva : va < 2 ^ 47) (hwa : wa < 2 ^ 47)
    (ht : nodeAt m.child root (tablePath va) = some t) :
    slotAt (m.setPte t (ptx va) e) root wa =
      if wa / pgsize = va / pgsize then some e else slotAt m root wa := by
  unfold slotAt
  rw [nodeAt_setPte h hva ht (userPath_tablePath hwa)]
  by_cases hpage : wa / pgsize = va / pgsize
  · have hpath := pagePath_congr hpage
    unfold pagePath at hpath
    rw [List.cons.injEq] at hpath
    rw [if_pos hpage, hpath.1, hpath.2, ht, Option.map_some, Machine.pte_setPte_self]
  · rw [if_neg hpage]
    cases hs : nodeAt m.child root (tablePath wa) with
    | none => rw [Option.map_none, Option.map_none]
    | some s =>
      have hne : s ≠ t ∨ ptx wa ≠ ptx va := by
        by_cases hst : s = t
        · right
          intro hptx
          rw [hst] at hs
          have hpath := h.unshared _ _ t (userPath_tablePath hwa) (userPath_tablePath hva) hs ht
          apply hpage
          apply pagePath_inj hwa hva
          rw [pagePath, pagePath, hptx, hpath]
        · exact Or.inl hst
      rw [Option.map_some, Option.map_some, Machine.pte_setPte_of_ne _ _ _ _ hne]

/-- The entry stands for its page alone. -/
theorem flat_setPte (h : Space 3 m root) (hva : va < 2 ^ 47) (hwa : wa < 2 ^ 47)
    (ht : nodeAt m.child root (tablePath va) = some t) :
    flat (m.setPte t (ptx va) e) root wa =
      if wa / pgsize = va / pgsize then (if present e then some e else none)
      else flat m root wa := by
  rw [flat_eq_slotAt, flat_eq_slotAt, slotAt_setPte h hva hwa ht]
  by_cases hpage : wa / pgsize = va / pgsize
  · rw [if_pos hpage, if_pos hpage, Option.bind_some]
  · rw [if_neg hpage, if_neg hpage]

/-- Setting an entry keeps the tables apart. -/
theorem Space.setPte (h : Space 3 m root) (hva : va < 2 ^ 47)
    (ht : nodeAt m.child root (tablePath va) = some t) :
    Space 3 (m.setPte t (ptx va) e) root := by
  have hnode : ∀ q, UserPath 3 q →
      nodeAt (m.setPte t (ptx va) e).child root q = nodeAt m.child root q :=
    fun q hq => nodeAt_setPte h hva ht hq
  refine ⟨?_, h.nodup, ?_, h.freeable⟩
  · intro q r g hq hr hqg hrg
    rw [hnode q hq] at hqg
    rw [hnode r hr] at hrg
    exact h.unshared q r g hq hr hqg hrg
  · rintro g hg ⟨q, hq, hqg⟩
    rw [hnode q hq] at hqg
    exact h.fresh g hg ⟨q, hq, hqg⟩

/-- An entry for `va` is also a pointer to the page that `va` is mapped to. -/
theorem nodeAt_setPte_page (h : Space 4 m root) (hva : va < 2 ^ 47)
    (ht : nodeAt m.child root (tablePath va) = some t) {q : List Index} (hq : UserPath 4 q) :
    nodeAt (m.setPte t (ptx va) e).child root q =
      if q = pagePath va then (if present e then some (frame e) else none)
      else nodeAt m.child root q := by
  rw [← m.child_setPte_self (t := t) (i := ptx va)]
  refine nodeAt_setLeaf (userPath_tailClosed 4) h.unshared
    ((userPath_tablePath hva).mono (by omega)) ht ?_
    (fun s j _ hsj => Machine.child_setPte_of_ne hsj) hq
  intro j hj
  have hle := hj.1
  simp only [tablePath, List.length_cons, List.length_nil] at hle
  omega

/-- What holds after a page was mapped at `va`. -/
structure Mapped (m m' : Machine) (root va f : Nat) (e : UInt64) : Prop where
  space : Space 4 m' root
  kend : m'.kend = m.kend
  kpdpt : m'.kpdpt = m.kpdpt
  refreed : m'.refreed = m.refreed
  pages : ∀ g, Reaches m'.child root (UserPath 4) g ∨ g ∈ m'.free →
    g = f ∨ Reaches m.child root (UserPath 4) g ∨ g ∈ m.free
  saves : ∀ g, g = f ∨ Reaches m.child root (UserPath 4) g ∨ g ∈ m.free →
    Reaches m'.child root (UserPath 4) g ∨ g ∈ m'.free
  mem : ∀ g, ¬Reaches m.child root (UserPath 4) g → g ∉ m.free → m'.mem g = m.mem g
  flat : ∀ wa, wa < 2 ^ 47 → flat m' root wa =
    if wa / pgsize = va / pgsize then some e else flat m root wa
  views : ∀ wa, wa < 2 ^ 47 → view m' root wa =
    if wa / pgsize = va / pgsize then some (e, m.mem f) else view m root wa
  blank : Blank m root → Blank m' root

/-- A page that is in no other place is mapped at an address that was not mapped. -/
theorem Space.map (h : Space 4 m root) (hva : va < 2 ^ 47)
    (ht : nodeAt m.child root (tablePath va) = some t) (hnone : flat m root va = none)
    (he : present e = true) (hnew : ¬Reaches m.child root (UserPath 4) (frame e))
    (hfree : frame e ∉ m.free) :
    Mapped m (m.setPte t (ptx va) e) root va (frame e) e := by
  have hnode : ∀ q, UserPath 4 q → nodeAt (m.setPte t (ptx va) e).child root q =
      if q = pagePath va then some (frame e) else nodeAt m.child root q := by
    intro q hq
    rw [nodeAt_setPte_page h hva ht hq, if_pos he]
  have hold : nodeAt m.child root (pagePath va) = none := by
    rw [nodeAt_pagePath, hnone]
    rfl
  have hreach : ∀ {g}, Reaches (m.setPte t (ptx va) e).child root (UserPath 4) g ↔
      g = frame e ∨ Reaches m.child root (UserPath 4) g :=
    reaches_add (userPath_pagePath hva) hold hnode
  have htree : Reaches m.child root (UserPath 4) t :=
    ⟨_, (userPath_tablePath hva).mono (by omega), ht⟩
  have hflat : ∀ wa, wa < 2 ^ 47 → Vm.flat (m.setPte t (ptx va) e) root wa =
      if wa / pgsize = va / pgsize then some e else Vm.flat m root wa := by
    intro wa hwa
    rw [flat_setPte (h.mono (by omega)) hva hwa ht, if_pos he]
  refine ⟨⟨h.unshared.add hnew hnode, h.nodup, ?_, h.freeable⟩, rfl, rfl, rfl, ?_, ?_, ?_, hflat,
    ?_, ?_⟩
  · intro g hg hbad
    rcases hreach.mp hbad with rfl | hbad
    · exact hfree hg
    · exact h.fresh g hg hbad
  · rintro g (hg | hg)
    · exact (hreach.mp hg).imp id Or.inl
    · exact Or.inr (Or.inr hg)
  · rintro g (hg | hg | hg)
    · exact Or.inl (hreach.mpr (Or.inl hg))
    · exact Or.inl (hreach.mpr (Or.inr hg))
    · exact Or.inr hg
  · intro g hg _
    apply Machine.setPte_mem_of_ne
    rintro rfl
    exact hg htree
  · intro wa hwa
    by_cases hpage : wa / pgsize = va / pgsize
    · have hft : frame e ≠ t := by
        intro hbad
        rw [hbad] at hnew
        exact hnew htree
      rw [if_pos hpage, view, hflat wa hwa, if_pos hpage, Option.map_some,
        Machine.setPte_mem_of_ne _ _ _ _ hft]
    · rw [if_neg hpage]
      refine view_of_flat (by rw [hflat wa hwa, if_neg hpage]) ?_
      intro e' he'
      refine Machine.setPte_mem_of_ne _ _ _ _ ?_
      intro hbad
      refine h.leaf_not_table hwa he' ?_
      rw [hbad]
      exact ⟨_, userPath_tablePath hva, ht⟩
  · intro hb wa hwa e' he'
    rw [slotAt_setPte (h.mono (by omega)) hva hwa ht] at he'
    by_cases hpage : wa / pgsize = va / pgsize
    · rw [if_pos hpage, Option.some.injEq] at he'
      rw [← he']
      exact Or.inl he
    · rw [if_neg hpage] at he'
      exact hb wa hwa e' he'

/-- What holds after the mapping of `va` was removed and its page given back. -/
structure Unmapped (m m' : Machine) (root va : Nat) : Prop where
  space : Space 4 m' root
  moves : Moves 4 m m' root
  saves : Saves 4 m m' root
  flat : ∀ wa, wa < 2 ^ 47 → flat m' root wa =
    if wa / pgsize = va / pgsize then none else flat m root wa
  views : ∀ wa, wa < 2 ^ 47 → view m' root wa =
    if wa / pgsize = va / pgsize then none else view m root wa

/-- The entry for `va` is cleared and its page given back. -/
theorem Space.unmap (h : Space 4 m root) (hva : va < 2 ^ 47)
    (ht : nodeAt m.child root (tablePath va) = some t) (he : flat m root va = some e)
    (hok : m.Freeable (frame e)) :
    Unmapped m ((m.freed (frame e)).setPte t (ptx va) 0) root va := by
  have hpath := (userPath_tablePath hva).mono (show 3 ≤ 4 by omega)
  have hpage : nodeAt m.child root (pagePath va) = some (frame e) := by
    rw [nodeAt_pagePath, he]
    rfl
  have hft : frame e ≠ t := by
    intro heq
    rw [heq] at hpage
    have hlen := congrArg List.length (h.unshared _ _ t (userPath_pagePath hva) hpath hpage ht)
    simp [pagePath, tablePath] at hlen
  have htree : Reaches m.child root (UserPath 4) t := ⟨_, hpath, ht⟩
  have hleaf : Reaches m.child root (UserPath 4) (frame e) := ⟨_, userPath_pagePath hva, hpage⟩
  -- the page given back is not looked at any more
  have hmem : ∀ s, s ≠ frame e → ((m.freed (frame e)).setPte t (ptx va) 0).mem s =
      (m.setPte t (ptx va) 0).mem s := by
    intro s hs
    by_cases hst : s = t
    · rw [hst]
      unfold Machine.setPte Machine.freed
      rw [Machine.setPage_mem_self, Machine.setPage_mem_self]
      exact congrArg (fun x : Page => x.write Layout.u64 _ 0)
        (Machine.setPage_mem_of_ne m m.junk hft.symm)
    · rw [Machine.setPte_mem_of_ne _ _ _ _ hst, Machine.setPte_mem_of_ne _ _ _ _ hst]
      exact Machine.setPage_mem_of_ne m m.junk hs
  have hclear : ∀ q, UserPath 4 q → nodeAt (m.setPte t (ptx va) 0).child root q =
      if q = pagePath va then none else nodeAt m.child root q := by
    intro q hq
    rw [nodeAt_setPte_page h hva ht hq, present_zero]
    rfl
  have hgone : ∀ {g}, Reaches (m.setPte t (ptx va) 0).child root (UserPath 4) g ↔
      g ≠ frame e ∧ Reaches m.child root (UserPath 4) g :=
    reaches_remove h.unshared (userPath_pagePath hva) hpage hclear
  have hnode : ∀ q, UserPath 4 q →
      nodeAt ((m.freed (frame e)).setPte t (ptx va) 0).child root q =
        if q = pagePath va then none else nodeAt m.child root q := by
    intro q hq
    rw [← hclear q hq]
    exact nodeAt_of_mem (fun s hs => hmem s (hgone.mp hs).1) hq
  have hreach : ∀ {g}, Reaches ((m.freed (frame e)).setPte t (ptx va) 0).child root
      (UserPath 4) g ↔ g ≠ frame e ∧ Reaches m.child root (UserPath 4) g :=
    reaches_remove h.unshared (userPath_pagePath hva) hpage hnode
  have hflat : ∀ wa, wa < 2 ^ 47 → Vm.flat ((m.freed (frame e)).setPte t (ptx va) 0) root wa =
      if wa / pgsize = va / pgsize then none else Vm.flat m root wa := by
    intro wa hwa
    have hclearFlat : Vm.flat (m.setPte t (ptx va) 0) root wa =
        if wa / pgsize = va / pgsize then none else Vm.flat m root wa := by
      rw [flat_setPte (h.mono (by omega)) hva hwa ht, present_zero]
      rfl
    rw [← hclearFlat]
    exact (sameSlots_of_mem (fun s hs => hmem s (hgone.mp hs).1) (show 3 ≤ 4 by omega)).sameFlat
      wa hwa
  refine ⟨⟨h.unshared.remove hnode, ?_, ?_, ?_⟩, ⟨rfl, rfl, ?_, ?_, ?_⟩, ?_, hflat, ?_⟩
  · exact List.nodup_cons.mpr ⟨fun hbad => h.fresh _ hbad hleaf, h.nodup⟩
  · intro g hg hbad
    rcases List.mem_cons.mp hg with rfl | hg
    · exact (hreach.mp hbad).1 rfl
    · exact h.fresh g hg (hreach.mp hbad).2
  · intro g hg
    rcases List.mem_cons.mp hg with rfl | hg
    · exact hok
    · exact h.freeable g hg
  · exact (congrArg (m.refreed || ·) (decide_eq_false fun hbad => h.fresh _ hbad hleaf)).trans
      (Bool.or_false _)
  · rintro g (hg | hg)
    · exact Or.inl (hreach.mp hg).2
    · rcases List.mem_cons.mp hg with rfl | hg
      · exact Or.inl hleaf
      · exact Or.inr hg
  · intro g hg _
    have hgt : g ≠ t := by
      rintro rfl
      exact hg htree
    have hgf : g ≠ frame e := by
      rintro rfl
      exact hg hleaf
    rw [hmem g hgf, Machine.setPte_mem_of_ne _ _ _ _ hgt]
  · rintro g (hg | hg)
    · by_cases hgf : g = frame e
      · right
        rw [hgf]
        exact List.mem_cons_self
      · exact Or.inl (hreach.mpr ⟨hgf, hg⟩)
    · exact Or.inr (List.mem_cons_of_mem _ hg)
  · intro wa hwa
    by_cases hpage' : wa / pgsize = va / pgsize
    · rw [if_pos hpage', view, hflat wa hwa, if_pos hpage', Option.map_none]
    · rw [if_neg hpage']
      refine view_of_flat (by rw [hflat wa hwa, if_neg hpage']) ?_
      intro e' he'
      have hne : frame e' ≠ frame e := by
        intro hbad
        exact hpage' (h.frame_inj hwa hva he' he hbad)
      have hnt : frame e' ≠ t := by
        intro hbad
        refine h.leaf_not_table hwa he' ?_
        rw [hbad]
        exact ⟨_, userPath_tablePath hva, ht⟩
      rw [hmem _ hne, Machine.setPte_mem_of_ne _ _ _ _ hnt]

end Entry

/-! ## Pages on their way -/

/-- A page is taken from the free list and cleared. -/
def Machine.taken (m : Machine) (fs : List Nat) (f : Nat) : Machine :=
  { m with free := fs }.setPage f (Bytes.zero pgsize)

/-- A page that was taken is neither in the tree nor free. -/
theorem Space.take (h : Space d m root) (hd : 3 ≤ d) {fs : List Nat} (hfree : m.free = f :: fs) :
    Extends d m (m.taken fs f) root ∧ ¬Reaches (m.taken fs f).child root (UserPath d) f ∧
      f ∉ fs := by
  have hin : f ∈ m.free := by
    rw [hfree]
    exact List.mem_cons_self
  have hrest : ∀ g ∈ fs, g ∈ m.free := by
    intro g hg
    rw [hfree]
    exact List.mem_cons_of_mem f hg
  have hmem : ∀ s, Reaches m.child root (UserPath d) s → (m.taken fs f).mem s = m.mem s := by
    intro s hs
    refine Machine.setPage_mem_of_ne { m with free := fs } _ ?_
    rintro rfl
    exact h.fresh s hin hs
  have hnodup := h.nodup
  rw [hfree, List.nodup_cons] at hnodup
  refine ⟨⟨?_, ⟨rfl, rfl, rfl, ?_, ?_⟩, sameSlots_of_mem hmem hd, ?_⟩, ?_, hnodup.1⟩
  · exact h.of_mem hmem rfl hnodup.2
      fun g hg => ⟨h.fresh g (hrest g hg), h.freeable g (hrest g hg)⟩
  · rintro g (hg | hg)
    · exact Or.inl ((reaches_of_mem hmem).mp hg)
    · exact Or.inr (hrest g hg)
  · intro g _ hg
    refine Machine.setPage_mem_of_ne { m with free := fs } _ ?_
    rintro rfl
    exact hg hin
  · intro q g hq hg
    rw [nodeAt_of_mem hmem hq, hg]
  · intro hbad
    exact h.fresh f hin ((reaches_of_mem hmem).mp hbad)

/-- A page outside the tree is given back. -/
theorem Space.give (h : Space d m root) (hnew : ¬Reaches m.child root (UserPath d) f)
    (hfree : f ∉ m.free) (hok : m.Freeable f) :
    Space d (m.freed f) root ∧
      ∀ s, Reaches m.child root (UserPath d) s → (m.freed f).mem s = m.mem s := by
  have hmem : ∀ s, Reaches m.child root (UserPath d) s → (m.freed f).mem s = m.mem s := by
    intro s hs
    refine Machine.setPage_mem_of_ne m _ ?_
    rintro rfl
    exact hnew hs
  refine ⟨h.of_mem hmem rfl (List.nodup_cons.mpr ⟨hfree, h.nodup⟩) ?_, hmem⟩
  intro g hg
  rcases List.mem_cons.mp hg with rfl | hg
  · exact ⟨hnew, hok⟩
  · exact ⟨h.fresh g hg, h.freeable g hg⟩

end Steps

end Xv6.Vm
