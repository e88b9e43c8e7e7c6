import Xv6.Vm.Image

/-!
# Virtual memory - Loading a program

`exec` goes through the program headers of the file, makes the image large enough for each segment
and loads it.  The first page of an address space is not mapped, and `loaduvm` does not test the
entries it finds for `PTE_P`: a segment at address 0 is stopped by a panic when there is no table
yet, and is read to physical page 0 when there is one.  To see the second, {lit}`loader` also gives
a loader that stops there.

Main results:

- Theorem {lit}`Image.loadPages`: the loop of `loaduvm` over pages that are mapped.
- Theorem {lit}`Image.loader`: when a segment is loaded.
- Theorem {lit}`Image.loadSegment`, {lit}`Image.loadSegments`: the loop over the program headers.
-/

namespace Xv6.Vm

open Foundations

/-! ## Loading -/

/-- There is something to read at the offset. -/
def readsData (file : List UInt8) (offset n : Nat) : Prop :=
  ∃ b bytes, readFile file offset n = some (b :: bytes)

instance (file : List UInt8) (offset n : Nat) : Decidable (readsData file offset n) :=
  match h : readFile file offset n with
  | none => isFalse fun ⟨_, _, hbad⟩ => by rw [h] at hbad; cases hbad
  | some [] => isFalse fun ⟨_, _, hbad⟩ => by rw [h] at hbad; cases hbad
  | some (b :: bytes) => isTrue ⟨b, bytes, h⟩

/-- The body of the loop of `loaduvm`, stopped when data would be read to a page that is not
mapped at the address. -/
def loadPageChecked (pgdir addr : Nat) (file : List UInt8) (offset sz i : Nat) : VmM Bool := do
  let m ← Exec.get
  if flat m pgdir ((addr + i) % 2 ^ 64) = none ∧
      readsData file ((offset + i) % 2 ^ 32) (min (sz - i) pgsize) then
    Exec.stop .loaduvmAddressShouldExist
  else
    loadPage pgdir addr file offset sz i

/-- The loader of the kernel, and the one that checks where data goes. -/
def loader : Bool → Loader
  | false => loaduvm
  | true => loadWith loadPageChecked

/-- All `n` bytes are read. -/
def ReadsAll (file : List UInt8) (offset n : Nat) : Prop :=
  offset + n ≤ file.length ∧ offset + n < 2 ^ 32

instance (file : List UInt8) (offset n : Nat) : Decidable (ReadsAll file offset n) :=
  inferInstanceAs (Decidable (_ ∧ _))

/-- The bytes are all in the file. -/
def InFile (file : List UInt8) (offset len : Nat) : Prop :=
  len = 0 ∨ ReadsAll file offset len

instance (file : List UInt8) (offset len : Nat) : Decidable (InFile file offset len) :=
  inferInstanceAs (Decidable (_ ∨ _))

/-- Loading to address 0 goes wrong: there is no table, or, with the check, there is data. -/
def Strays (checked : Bool) (file : List UInt8) (sz addr offset len : Nat) : Prop :=
  len ≠ 0 ∧ addr = 0 ∧ (sz ≤ pgsize ∨ checked = true ∧ readsData file offset (min len pgsize))

instance (checked : Bool) (file : List UInt8) (sz addr offset len : Nat) :
    Decidable (Strays checked file sz addr offset len) :=
  inferInstanceAs (Decidable (_ ∧ _ ∧ _))

section Load

variable {m₀ m m' : Machine} {root sz addr offset len i : Nat} {byte : Nat → UInt8}
  {file : List UInt8} {E : VmStop → Prop}

/-- What the body of the loop does once it has an entry: all bytes are in the file, or it stops. -/
theorem Image.loadPage_at {t : Nat} {k : Index} {g : List UInt8 → Nat → UInt8}
    (h : Image m₀ m root sz byte) (hoff : offset + i < 2 ^ 32)
    (hwalk : walkpgdir root ((addr + i) % 2 ^ 64) false m = .ok (some (t, k), m))
    (hstore : ∀ bytes, bytes.length ≤ pgsize → Image m₀ (m.setPage (frame (m.pte t k))
      ((m.mem (frame (m.pte t k))).overwrite 0 bytes)) root sz (g bytes)) :
    wp (Vm.loadPage root addr file offset len i)
      (fun more m' => more = true ∧ ReadsAll file (offset + i) (min (len - i) pgsize) ∧
          Image m₀ m' root sz (g ((file.drop (offset + i)).take (min (len - i) pgsize))) ∨
        more = false ∧ ¬ReadsAll file (offset + i) (min (len - i) pgsize) ∧
          Turns m₀ m' [] [userTree root]) E m := by
  unfold Vm.loadPage readFile ReadsAll
  rw [wp_bind, wp_of_ok hwalk, Nat.mod_eq_of_lt hoff]
  simp only
  rw [wp_bind, wp_get]
  by_cases hbad : file.length < offset + i ∨ 2 ^ 32 ≤ offset + i + min (len - i) pgsize
  · rw [if_pos hbad]
    exact Or.inr ⟨rfl, by omega, h.turns⟩
  · rw [if_neg hbad]
    simp only
    rw [wp_bind, wp_modify, wp_pure]
    have himage := hstore ((file.drop (offset + i)).take (min (len - i) pgsize))
      ((List.length_take_le _ _).trans (min_le_right _ _))
    rw [List.length_take, List.length_drop]
    by_cases hfull : offset + i + min (len - i) pgsize ≤ file.length
    · exact Or.inl ⟨decide_eq_true (by omega), ⟨hfull, by omega⟩, himage⟩
    · exact Or.inr ⟨decide_eq_false (by omega), fun hall => hfull hall.1, himage.turns⟩

/-- The body of the loop at a page that is mapped. -/
theorem Image.loadPage (h : Image m₀ m root sz byte) (hmod : (addr + i) % pgsize = 0)
    (hlow : pgsize ≤ addr + i) (hhigh : addr + i < pgroundup sz) (hoff : offset + i < 2 ^ 32) :
    wp (Vm.loadPage root addr file offset len i)
      (fun more m' => more = true ∧ ReadsAll file (offset + i) (min (len - i) pgsize) ∧
          Image m₀ m' root sz
            (overlay byte (addr + i) ((file.drop (offset + i)).take (min (len - i) pgsize))) ∨
        more = false ∧ ¬ReadsAll file (offset + i) (min (len - i) pgsize) ∧
          Turns m₀ m' [] [userTree root]) E m := by
  have hround := pgroundup_of_le h.high
  have htop := h.high
  have hlt : addr + i < 2 ^ 47 := by
    unfold pgsize at hmod
    omega
  obtain ⟨f, hflat⟩ := h.present hlow hhigh hlt
  obtain ⟨t, -, hpte, -, hwalk⟩ := walkpgdir_flat hflat
  rw [← Nat.mod_eq_of_lt (show addr + i < 2 ^ 64 by omega)] at hwalk
  refine h.loadPage_at hoff hwalk ?_
  intro bytes hlen
  rw [Nat.mod_eq_of_lt (show addr + i < 2 ^ 64 by omega), hpte, ← hmod]
  refine h.copied (h.forest.space.copied hlt hflat ?_) ?_
  · rw [hmod]
    omega
  · unfold pgsize at *
    omega

/-- The loop of `loaduvm` over pages that are mapped. -/
theorem Image.loadPages {n : Nat} {page : Nat → VmM Bool}
    (hpage : ∀ m k, addr + k < 2 ^ 64 → flat m root (addr + k) ≠ none →
      page k m = Vm.loadPage root addr file offset len k m)
    (h : Image m₀ m root sz (overlay byte addr ((file.drop offset).take (min i len))))
    (haddr : addr % pgsize = 0) (hi : i % pgsize = 0) (hlow : pgsize ≤ addr + i)
    (hend : addr + len ≤ sz) (hoff : offset < 2 ^ 32) (hpre : InFile file offset (min i len))
    (hpages : len ≤ i + n * pgsize ∧ (n ≠ 0 → i + (n - 1) * pgsize < len)) :
    wp (Vm.loadPages page (pagesFrom i n))
      (fun done m' => done = true ∧ InFile file offset len ∧
          Image m₀ m' root sz (overlay byte addr ((file.drop offset).take len)) ∨
        done = false ∧ ¬InFile file offset len ∧ Turns m₀ m' [] [userTree root]) E m := by
  induction n generalizing m i with
  | zero =>
    have hmin : min i len = len := by omega
    rw [hmin] at h hpre
    exact Or.inl ⟨rfl, hpre, h⟩
  | succ n ih =>
    have hround := pgroundup_of_le h.high
    have htop := h.high
    have hilt : i < len := by
      have hlast := hpages.2 (Nat.succ_ne_zero n)
      omega
    have hmin : min i len = i := by omega
    have hin : addr + i < pgroundup sz := by omega
    have hmod : (addr + i) % pgsize = 0 := by
      unfold pgsize at *
      omega
    have hoffi : offset + i < 2 ^ 32 := by
      rcases hpre with hzero | ⟨-, hlt⟩
      · omega
      · omega
    have hmapped : flat m root (addr + i) ≠ none := by
      obtain ⟨f, hf⟩ := h.present hlow hin (by omega)
      rw [hf]
      exact Option.some_ne_none _
    have hrun : ∀ Q : Bool → Machine → Prop, wp (page i) Q E m ↔
        wp (Vm.loadPage root addr file offset len i) Q E m := by
      intro Q
      unfold wp
      rw [hpage m i (by omega) hmapped]
    rw [pagesFrom_succ, Vm.loadPages]
    refine wp_bind_of ((hrun _).mpr (h.loadPage hmod hlow hin hoffi)) ?_
    rintro more m₁ (⟨rfl, ⟨hfull, hlt⟩, himage⟩ | ⟨rfl, hbad, hturns⟩)
    · rw [if_pos rfl]
      have hstep : min (i + pgsize) len = i + min (len - i) pgsize := by omega
      have htake : (file.drop offset).take (min (i + pgsize) len) =
          (file.drop offset).take i ++
            (file.drop (offset + i)).take (min (len - i) pgsize) := by
        rw [hstep, List.take_add, List.drop_drop]
      have hlen : ((file.drop offset).take i).length = i := by
        rw [List.length_take, List.length_drop]
        omega
      have hpos : 0 < pgsize := by decide
      refine ih ?_ ?_ (by omega) ?_ ?_
      · rw [htake, ← overlay_append, hlen]
        rwa [hmin] at himage
      · rw [Nat.add_mod_right]
        exact hi
      · exact Or.inr ⟨by omega, by omega⟩
      · rw [Nat.succ_mul] at hpages
        refine ⟨by omega, ?_⟩
        intro hn
        obtain ⟨k, rfl⟩ := Nat.exists_eq_succ_of_ne_zero hn
        have hlast := hpages.2 (Nat.succ_ne_zero _)
        rw [Nat.succ_sub_one, Nat.succ_mul] at hlast
        rw [Nat.succ_sub_one]
        omega
    · rw [if_neg (by decide), wp_pure]
      refine Or.inr ⟨rfl, ?_, hturns⟩
      unfold InFile ReadsAll at *
      omega

/-- Page 0 belongs to no one. -/
theorem Image.setPage_zero (h : Image m₀ m root sz byte) (x : Page) :
    Image m₀ (m.setPage 0 x) root sz byte := by
  have hforest : Forest m ([] ++ [userTree root]) := h.forest
  have hzero : ¬m.Freeable 0 := by
    intro hbad
    have hpos := m.kend_pos
    have hle := hbad.1
    omega
  have ht : Turns m (m.setPage 0 x) [] [] :=
    Turns.setPage (hforest.left (K := [])) nofun (fun hbad => absurd hbad hzero) x
  have hview := ht.view_right hforest
  have hmem : ∀ s, Reaches m.child root (UserPath 3) s → (m.setPage 0 x).mem s = m.mem s := by
    rintro s ⟨q, hq, hs⟩
    exact ht.mem_tree hforest ⟨q, hq.mono (by omega), hs⟩
  refine ⟨h.turns.trans (ht.beside hforest), ?_, h.tables.of_mem hmem,
    ht.blank_right hforest h.blank, ?_, h.count, ?_, h.zero, h.low, h.high⟩
  · intro va hva
    have hflat : flat (m.setPage 0 x) root va = flat m root va :=
      (sameSlots_of_mem (fun _ hs => ht.mem_tree hforest hs) (show 3 ≤ 4 by omega)).sameFlat va hva
    rw [hflat]
    exact h.entries va hva
  · refine h.upper.of_pte ?_
    intro j _
    exact Machine.pte_of_mem_eq m (hmem root ⟨[], UserPath.nil _, rfl⟩) j
  · intro va hlow hhigh
    have htop := h.high
    have hround := pgroundup_of_le htop
    rw [userByte_of_view (hview va (by omega))]
    exact h.bytes va hlow hhigh

/-- The first page of a segment at address 0, when there is a table. -/
theorem Image.loadPage_zero (h : Image m₀ m root sz byte) (hsz : pgsize < sz)
    (hoff : offset < 2 ^ 32) :
    wp (Vm.loadPage root 0 file offset len 0)
      (fun more m' => more = true ∧ ReadsAll file offset (min len pgsize) ∧
          Image m₀ m' root sz byte ∨
        more = false ∧ ¬ReadsAll file offset (min len pgsize) ∧
          Turns m₀ m' [] [userTree root]) E m := by
  have hround := pgroundup_of_le h.high
  have htable := h.tables 0 (by decide) 0 (by decide)
  rw [List.drop_zero] at htable
  obtain ⟨t, ht⟩ :=
    Option.ne_none_iff_exists'.mp (htable.mpr ⟨by unfold pgsize at *; omega, by simp⟩)
  have hpte : m.pte t (ptx 0) = 0 := by
    have hslot : slotAt m root 0 = some (m.pte t (ptx 0)) := by
      unfold slotAt
      rw [ht, Option.map_some]
    refine (h.blank 0 (by decide) _ hslot).resolve_left ?_
    intro hpresent
    have hnone : flat m root 0 = none := h.absent (by unfold pgsize; omega) (by decide)
    rw [flat_eq_slotAt, hslot, Option.bind_some, if_pos hpresent] at hnone
    cases hnone
  have hwalk : walkpgdir root ((0 + 0) % 2 ^ 64) false m = .ok (some (t, ptx 0), m) := by
    rw [Nat.zero_mod, walkpgdir_lookup, ht]
    rfl
  have hframe : frame 0 = 0 := by decide
  refine h.loadPage_at (i := 0) (g := fun _ => byte) hoff hwalk ?_
  intro bytes _
  rw [hpte, hframe]
  exact h.setPage_zero _

/-- Without a table there is a panic. -/
theorem Image.loadPage_panics (h : Image m₀ m root sz byte) (hsz : sz ≤ pgsize) :
    Vm.loadPage root 0 file offset len 0 m = .error .loaduvmAddressShouldExist := by
  have hlow := h.low
  have hround := pgroundup_of_le h.high
  have htable := h.tables 0 (by decide) 0 (by decide)
  rw [List.drop_zero] at htable
  have hnone : nodeAt m.child root (tablePath 0) = none := by
    by_contra hbad
    have hlarge := (htable.mp hbad).1
    unfold pgsize at *
    omega
  have hwalk : walkpgdir root 0 false m = .ok (none, m) := by
    rw [walkpgdir_lookup, hnone]
    rfl
  unfold Vm.loadPage
  rw [Nat.add_zero, Nat.zero_mod, bind_ok hwalk]
  rfl

/-- Bytes below `PGSIZE` do not matter. -/
theorem Image.overlay_low (h : Image m₀ m root sz byte) {bytes : List UInt8}
    (hlen : bytes.length ≤ pgsize) : Image m₀ m root sz (overlay byte 0 bytes) := by
  have hsame : ∀ va, pgsize ≤ va → overlay byte 0 bytes va = byte va := by
    intro va hva
    unfold overlay
    rw [if_neg (by omega)]
  have hlow := h.low
  have hround := le_pgroundup h.high
  refine ⟨h.turns, h.entries, h.tables, h.blank, h.upper, h.count, ?_, ?_, h.low, h.high⟩
  · intro va hva hva'
    rw [hsame va hva]
    exact h.bytes va hva hva'
  · intro va hva
    rw [hsame va (by omega)]
    exact h.zero va hva

/-- The body of the loop in `loader`. -/
def pageLoader : Bool → Nat → Nat → List UInt8 → Nat → Nat → Nat → VmM Bool
  | false => loadPage
  | true => loadPageChecked

theorem loader_eq (checked : Bool) : loader checked = loadWith (pageLoader checked) := by
  cases checked with
  | false => rfl
  | true => rfl

theorem pageLoader_mapped (checked : Bool) (m : Machine) {k : Nat} (hk : addr + k < 2 ^ 64)
    (hmapped : flat m root (addr + k) ≠ none) :
    pageLoader checked root addr file offset len k m =
      Vm.loadPage root addr file offset len k m := by
  cases checked with
  | false => rfl
  | true =>
    have hget : (Exec.get : VmM Machine) m = .ok (m, m) := rfl
    show loadPageChecked root addr file offset len k m = _
    unfold loadPageChecked
    rw [bind_ok hget, Nat.mod_eq_of_lt hk, if_neg]
    rintro ⟨hbad, -⟩
    exact hmapped hbad

/-- The checked loader at page 0 stops if there is data, and else is the other one. -/
theorem pageLoader_zero (checked : Bool) (h : flat m root 0 = none) (hoff : offset < 2 ^ 32) :
    pageLoader checked root 0 file offset len 0 m =
      if checked = true ∧ readsData file offset (min len pgsize) then
        .error .loaduvmAddressShouldExist
      else Vm.loadPage root 0 file offset len 0 m := by
  cases checked with
  | false =>
    rw [if_neg fun hbad => Bool.false_ne_true hbad.1]
    rfl
  | true =>
    have hget : (Exec.get : VmM Machine) m = .ok (m, m) := rfl
    show loadPageChecked root 0 file offset len 0 m = _
    unfold loadPageChecked
    rw [bind_ok hget, Nat.add_zero, Nat.zero_mod, Nat.add_zero, Nat.mod_eq_of_lt hoff,
      Nat.sub_zero]
    by_cases hreads : readsData file offset (min len pgsize)
    · rw [if_pos ⟨h, hreads⟩, if_pos ⟨rfl, hreads⟩]
      rfl
    · rw [if_neg (fun hbad => hreads hbad.2), if_neg (fun hbad => hreads hbad.2)]

/-- A segment of a size that fits in the image is loaded if it is in the file, except at address
0. -/
theorem Image.loader {checked : Bool} {off filesz : Nat} (h : Image m₀ m root sz byte)
    (haddr : addr % pgsize = 0) (hend : addr + filesz ≤ sz) :
    wp (Vm.loader checked root addr file off filesz)
      (fun done m' => ¬Strays checked file sz addr (off % 2 ^ 32) (filesz % 2 ^ 32) ∧
        (done = true ∧ InFile file (off % 2 ^ 32) (filesz % 2 ^ 32) ∧
            Image m₀ m' root sz
              (overlay byte addr ((file.drop (off % 2 ^ 32)).take (filesz % 2 ^ 32))) ∨
          done = false ∧ ¬InFile file (off % 2 ^ 32) (filesz % 2 ^ 32) ∧
            Turns m₀ m' [] [userTree root]))
      (fun _ => Strays checked file sz addr (off % 2 ^ 32) (filesz % 2 ^ 32)) m := by
  have hle : filesz % 2 ^ 32 ≤ filesz := Nat.mod_le _ _
  have hoff : off % 2 ^ 32 < 2 ^ 32 := Nat.mod_lt _ (by decide)
  rw [loader_eq]
  unfold loadWith
  rw [if_neg (fun hbad => hbad haddr)]
  generalize filesz % 2 ^ 32 = len at hle ⊢
  generalize off % 2 ^ 32 = offset at hoff ⊢
  obtain ⟨n, hpages, hcount⟩ : ∃ n, pagesBelow 0 len = pagesFrom 0 n ∧
      (len ≤ 0 + n * pgsize ∧ (n ≠ 0 → 0 + (n - 1) * pgsize < len)) := by
    refine ⟨_, rfl, ?_⟩
    unfold pgsize
    omega
  rw [hpages]
  have hpage : ∀ m k, addr + k < 2 ^ 64 → flat m root (addr + k) ≠ none →
      pageLoader checked root addr file offset len k m =
        Vm.loadPage root addr file offset len k m :=
    fun m k hk hmapped => pageLoader_mapped checked m hk hmapped
  by_cases hlen : len = 0
  · subst hlen
    have hn : n = 0 := by
      by_contra hbad
      have hlast := hcount.2 hbad
      omega
    subst hn
    refine ⟨fun hbad => hbad.1 rfl, Or.inl ⟨rfl, Or.inl rfl, ?_⟩⟩
    rw [List.take_zero, overlay_nil]
    exact h
  by_cases hzero : addr = 0
  · subst hzero
    obtain ⟨k, rfl⟩ : ∃ k, n = k + 1 := by
      refine Nat.exists_eq_succ_of_ne_zero ?_
      rintro rfl
      omega
    have habsent : flat m root 0 = none := h.absent (by unfold pgsize; omega) (by decide)
    have hrun : pageLoader checked root 0 file offset len 0 m = _ :=
      pageLoader_zero checked habsent hoff
    rw [pagesFrom_succ, Vm.loadPages, wp_bind]
    by_cases hdata : checked = true ∧ readsData file offset (min len pgsize)
    · rw [if_pos hdata] at hrun
      rw [wp_of_error hrun]
      exact ⟨hlen, rfl, Or.inr hdata⟩
    rw [if_neg hdata] at hrun
    by_cases hsz : sz ≤ pgsize
    · rw [h.loadPage_panics hsz] at hrun
      rw [wp_of_error hrun]
      exact ⟨hlen, rfl, Or.inl hsz⟩
    have hgood : ¬Strays checked file sz 0 offset len := by
      rintro ⟨-, -, hbad | hbad⟩
      · exact hsz hbad
      · exact hdata hbad
    have hwp : ∀ (Q : Bool → Machine → Prop) E,
        wp (pageLoader checked root 0 file offset len 0) Q E m ↔
          wp (Vm.loadPage root 0 file offset len 0) Q E m := by
      intro Q E
      unfold wp
      rw [hrun]
    rw [hwp]
    refine wp_mono (h.loadPage_zero (Nat.lt_of_not_le hsz) hoff) ?_ fun _ hbad => hbad
    rintro more m₁ (⟨rfl, ⟨hfull, hlt⟩, himage⟩ | ⟨rfl, hbad, hturns⟩)
    · rw [if_pos rfl]
      have hfirst : ((file.drop offset).take (min pgsize len)).length ≤ pgsize :=
        (List.length_take_le _ _).trans (min_le_left _ _)
      have hlow := himage.overlay_low hfirst
      rw [Nat.succ_mul, Nat.succ_sub_one, Nat.zero_add] at hcount
      refine wp_mono (Image.loadPages hpage hlow rfl (by decide) (by omega) (by omega) hoff
        (Or.inr ⟨by omega, by omega⟩) ⟨by omega, ?_⟩) (fun _ _ hdone => ⟨hgood, hdone⟩)
        fun _ hbad => hbad
      intro hk
      obtain ⟨j, rfl⟩ := Nat.exists_eq_succ_of_ne_zero hk
      have hlast := hcount.2 (Nat.succ_ne_zero _)
      rw [Nat.succ_mul] at hlast
      rw [Nat.succ_sub_one]
      omega
    · rw [if_neg (by decide), wp_pure]
      refine ⟨hgood, Or.inr ⟨rfl, ?_, hturns⟩⟩
      unfold InFile ReadsAll at *
      omega
  · have hstart : Image m₀ m root sz (overlay byte addr ((file.drop offset).take (min 0 len))) := by
      rw [Nat.zero_min, List.take_zero, overlay_nil]
      exact h
    refine wp_mono (Image.loadPages hpage hstart haddr rfl ?_ (by omega) hoff ?_ hcount) ?_
      fun _ hbad => hbad
    · unfold pgsize at *
      omega
    · exact Or.inl (Nat.zero_min len)
    · intro done m₁ hdone
      exact ⟨fun hbad => hzero hbad.2.1, hdone⟩

end Load

/-! ## Program headers -/

namespace ProgHdr

variable (ph : ProgHdr)

/-- The end of the segment in memory. -/
def top : Nat :=
  ph.vaddr.toNat + ph.memsz.toNat

/-- The tests of `exec` before the segment is loaded pass, and there is memory for it when `n`
pages were free and the image has size `sz`. -/
def Placed (n sz : Nat) : Prop :=
  ph.filesz ≤ ph.memsz ∧ ph.top ≤ 2 ^ 47 ∧ 1 + imageCost (pgroundup (max sz ph.top)) ≤ n ∧
    ph.vaddr.toNat % pgsize = 0

/-- The segment ends above the user half, and `allocuvm` does not refuse it. -/
def Beyond : Prop :=
  ph.filesz ≤ ph.memsz ∧ 2 ^ 47 < ph.top ∧ ph.top < kernbase

/-- What is to be loaded is in the file. -/
def Readable (file : List UInt8) : Prop :=
  InFile file (ph.off.toNat % 2 ^ 32) (ph.filesz.toNat % 2 ^ 32)

/-- Loading goes wrong. -/
def Astray (checked : Bool) (file : List UInt8) (sz : Nat) : Prop :=
  Strays checked file (max sz ph.top) ph.vaddr.toNat (ph.off.toNat % 2 ^ 32)
    (ph.filesz.toNat % 2 ^ 32)

/-- The bytes of the image with those of the segment. -/
def load (file : List UInt8) (byte : Nat → UInt8) : Nat → UInt8 :=
  overlay byte ph.vaddr.toNat
    ((file.drop (ph.off.toNat % 2 ^ 32)).take (ph.filesz.toNat % 2 ^ 32))

instance (n sz : Nat) : Decidable (ph.Placed n sz) :=
  inferInstanceAs (Decidable (_ ∧ _ ∧ _ ∧ _))

instance : Decidable ph.Beyond :=
  inferInstanceAs (Decidable (_ ∧ _ ∧ _))

instance (file : List UInt8) : Decidable (ph.Readable file) :=
  inferInstanceAs (Decidable (InFile _ _ _))

instance (checked : Bool) (file : List UInt8) (sz : Nat) : Decidable (ph.Astray checked file sz) :=
  inferInstanceAs (Decidable (Strays _ _ _ _ _ _))

theorem add_lt_iff : ph.vaddr + ph.memsz < ph.vaddr ↔ 2 ^ 64 ≤ ph.top := by
  have hvaddr := ph.vaddr.toNat_lt
  have hmemsz := ph.memsz.toNat_lt
  rw [UInt64.lt_iff_toNat_lt, UInt64.toNat_add]
  unfold top
  omega

theorem toNat_add (h : ph.top < 2 ^ 64) : (ph.vaddr + ph.memsz).toNat = ph.top := by
  rw [UInt64.toNat_add]
  exact Nat.mod_eq_of_lt h

end ProgHdr

section Segment

variable {m₀ m : Machine} {root sz : Nat} {byte : Nat → UInt8} {file : List UInt8}
  {checked : Bool} {ph : ProgHdr}

/-- One round of the loop over the program headers. -/
theorem Image.loadSegment (h : Image m₀ m root sz byte) (hbeyond : ¬ph.Beyond) :
    wp (Vm.loadSegment (Vm.loader checked) root file ph sz)
      (fun r m' => r = none ∧ Turns m₀ m' [] [userTree root] ∧
          (ph.Placed m₀.free.length sz → ¬ph.Readable file ∧ ¬ph.Astray checked file sz) ∨
        r = some (max sz ph.top) ∧ ph.Placed m₀.free.length sz ∧ ph.Readable file ∧
          ¬ph.Astray checked file sz ∧ Image m₀ m' root (max sz ph.top) (ph.load file byte))
      (fun _ => ph.Placed m₀.free.length sz ∧ ph.Astray checked file sz) m := by
  have hlow := h.low
  have hkernbase : 2 ^ 47 < kernbase ∧ kernbase < 2 ^ 64 := by decide
  unfold Vm.loadSegment
  by_cases hsizes : ph.memsz < ph.filesz
  · rw [if_pos hsizes, wp_pure]
    refine Or.inl ⟨rfl, h.turns, ?_⟩
    intro hplaced
    exact absurd hsizes (UInt64.not_lt.mpr hplaced.1)
  have hfilesz : ph.filesz ≤ ph.memsz := UInt64.not_lt.mp hsizes
  rw [if_neg hsizes]
  by_cases hover : ph.vaddr + ph.memsz < ph.vaddr
  · rw [if_pos hover, wp_pure]
    rw [ph.add_lt_iff] at hover
    refine Or.inl ⟨rfl, h.turns, ?_⟩
    intro hplaced
    have htop := hplaced.2.1
    omega
  have hnowrap : ph.top < 2 ^ 64 := by
    rw [ph.add_lt_iff] at hover
    omega
  have hwhere : ph.top ≤ 2 ^ 47 ∨ kernbase ≤ ph.top := by
    by_contra hbad
    exact hbeyond ⟨hfilesz, by omega, by omega⟩
  rw [if_neg hover, ph.toNat_add hnowrap]
  refine wp_bind_of (h.allocuvm hwhere) ?_
  rintro r m₁ (⟨rfl, ht, hfew⟩ | ⟨htop, rfl, himage⟩)
  · rw [if_pos rfl, wp_pure]
    refine Or.inl ⟨rfl, ht, ?_⟩
    rintro ⟨-, htop, hroom, -⟩
    omega
  have hne : max sz ph.top ≠ 0 := by
    unfold pgsize at hlow
    omega
  have hroom : 1 + imageCost (pgroundup (max sz ph.top)) ≤ m₀.free.length := by
    have hcount := himage.count
    omega
  rw [if_neg hne]
  by_cases haligned : ph.vaddr.toNat % pgsize = 0
  · have hplaced : ph.Placed m₀.free.length sz := ⟨hfilesz, htop, hroom, haligned⟩
    have hend : ph.vaddr.toNat + ph.filesz.toNat ≤ max sz ph.top := by
      have hle := UInt64.le_iff_toNat_le.mp hfilesz
      unfold ProgHdr.top
      omega
    rw [if_neg (fun hbad => hbad haligned), wp_bind]
    refine wp_mono (himage.loader haligned hend) ?_ fun _ hbad => ⟨hplaced, hbad⟩
    rintro done m₂ ⟨hstrays, ⟨rfl, hin, himage'⟩ | ⟨rfl, hin, ht⟩⟩
    · exact Or.inr ⟨rfl, hplaced, hin, hstrays, himage'⟩
    · exact Or.inl ⟨rfl, ht, fun _ => ⟨hin, hstrays⟩⟩
  · rw [if_pos haligned, wp_pure]
    refine Or.inl ⟨rfl, himage.turns, ?_⟩
    intro hplaced
    exact absurd hplaced.2.2.2 haligned

end Segment

/-! ## The loop over the program headers -/

/-- The size of the image after the header. -/
def ProgHdr.sizeAfter (ph : ProgHdr) (sz : Nat) : Nat :=
  if ph.type = elfProgLoad then max sz ph.top else sz

/-- The bytes of the image after the header. -/
def ProgHdr.bytesAfter (ph : ProgHdr) (file : List UInt8) (byte : Nat → UInt8) : Nat → UInt8 :=
  if ph.type = elfProgLoad then ph.load file byte else byte

/-- The size of the image after the headers. -/
def sizeAfter : List (Option ProgHdr) → Nat → Nat
  | [], sz => sz
  | none :: _, sz => sz
  | some ph :: phs, sz => sizeAfter phs (ph.sizeAfter sz)

/-- The bytes of the image after the headers. -/
def bytesAfter (file : List UInt8) : List (Option ProgHdr) → (Nat → UInt8) → Nat → UInt8
  | [], byte => byte
  | none :: _, byte => byte
  | some ph :: phs, byte => bytesAfter file phs (ph.bytesAfter file byte)

section Headers

variable (checked : Bool) (file : List UInt8) (n : Nat)

/-- The header is skipped, or its segment is loaded. -/
def ProgHdr.Passes (ph : ProgHdr) (sz : Nat) : Prop :=
  ph.type = elfProgLoad → ph.Placed n sz ∧ ph.Readable file ∧ ¬ph.Astray checked file sz

instance (ph : ProgHdr) (sz : Nat) : Decidable (ph.Passes checked file n sz) :=
  inferInstanceAs (Decidable (_ → _))

/-- All headers pass. -/
def AllPass : List (Option ProgHdr) → Nat → Prop
  | [], _ => True
  | none :: _, _ => False
  | some ph :: phs, sz => ph.Passes checked file n sz ∧ AllPass phs (ph.sizeAfter sz)

/-- After headers that pass there is one with the property, which may depend on the size. -/
def Meets (bad : ProgHdr → Nat → Prop) : List (Option ProgHdr) → Nat → Prop
  | [], _ => False
  | none :: _, _ => False
  | some ph :: phs, sz => ph.type = elfProgLoad ∧ bad ph sz ∨
      ph.Passes checked file n sz ∧ Meets bad phs (ph.sizeAfter sz)

/-- A segment that goes astray is reached. -/
def MeetsAstray : List (Option ProgHdr) → Nat → Prop :=
  Meets checked file n fun ph sz => ph.Placed n sz ∧ ph.Astray checked file sz

/-- A segment is reached that ends above the user half. -/
def MeetsBeyond : List (Option ProgHdr) → Nat → Prop :=
  Meets checked file n fun ph _ => ph.Beyond

end Headers

section Segments

variable {m₀ m : Machine} {root sz : Nat} {byte : Nat → UInt8} {file : List UInt8}
  {checked : Bool}

/-- The loop over the program headers: how it ends, for each file and number of free pages. -/
theorem Image.loadSegments {phs : List (Option ProgHdr)} (h : Image m₀ m root sz byte)
    (hbeyond : ¬MeetsBeyond checked file m₀.free.length phs sz) :
    wp (Vm.loadSegments (Vm.loader checked) root file phs sz)
      (fun r m' => ¬MeetsAstray checked file m₀.free.length phs sz ∧
        (r = none ∧ ¬AllPass checked file m₀.free.length phs sz ∧
            Turns m₀ m' [] [userTree root] ∨
          r = some (sizeAfter phs sz) ∧ AllPass checked file m₀.free.length phs sz ∧
            Image m₀ m' root (sizeAfter phs sz) (bytesAfter file phs byte)))
      (fun _ => MeetsAstray checked file m₀.free.length phs sz) m := by
  induction phs generalizing m sz byte with
  | nil => exact ⟨id, Or.inr ⟨rfl, trivial, h⟩⟩
  | cons head phs ih =>
    cases head with
    | none => exact ⟨id, Or.inl ⟨rfl, id, h.turns⟩⟩
    | some ph =>
      rw [Vm.loadSegments]
      by_cases htype : ph.type = elfProgLoad
      · rw [if_neg (fun hbad => hbad htype)]
        have hsize : ph.sizeAfter sz = max sz ph.top := if_pos htype
        have hbytes : ph.bytesAfter file byte = ph.load file byte := if_pos htype
        rw [wp_bind]
        refine wp_mono (h.loadSegment fun hbad => hbeyond (Or.inl ⟨htype, hbad⟩)) ?_
          fun _ hbad => Or.inl ⟨htype, hbad⟩
        rintro r m₁ (⟨rfl, ht, hfail⟩ | ⟨rfl, hplaced, hin, hstrays, himage⟩)
        · simp only
          rw [wp_pure]
          refine ⟨?_, Or.inl ⟨rfl, ?_, ht⟩⟩
          · rintro (⟨-, hplaced, hbad⟩ | ⟨hpass, -⟩)
            · exact (hfail hplaced).2 hbad
            · exact (hfail (hpass htype).1).1 (hpass htype).2.1
          · rintro ⟨hpass, -⟩
            exact (hfail (hpass htype).1).1 (hpass htype).2.1
        · have hpass : ph.Passes checked file m₀.free.length sz := fun _ => ⟨hplaced, hin, hstrays⟩
          rw [← hsize, ← hbytes] at himage
          simp only
          rw [← hsize]
          refine wp_mono (ih himage fun hbad => hbeyond (Or.inr ⟨hpass, hbad⟩)) ?_
            fun _ hbad => Or.inr ⟨hpass, hbad⟩
          rintro r m₂ ⟨hnone, hres⟩
          refine ⟨?_, ?_⟩
          · rintro (⟨-, -, hbad⟩ | ⟨-, hbad⟩)
            · exact hstrays hbad
            · exact hnone hbad
          · rcases hres with ⟨hr, hall, ht⟩ | ⟨hr, hall, himage'⟩
            · exact Or.inl ⟨hr, fun hbad => hall hbad.2, ht⟩
            · exact Or.inr ⟨hr, ⟨hpass, hall⟩, himage'⟩
      · rw [if_pos htype]
        have hsize : ph.sizeAfter sz = sz := if_neg htype
        have hbytes : ph.bytesAfter file byte = byte := if_neg htype
        have hpass : ph.Passes checked file m₀.free.length sz := fun hbad => absurd hbad htype
        rw [← hsize, ← hbytes] at h
        have hrest := ih h fun hbad => hbeyond (Or.inr ⟨hpass, hbad⟩)
        rw [hsize] at hrest
        refine wp_mono hrest ?_ ?_
        · rintro r m₁ ⟨hnone, hres⟩
          rw [← hsize] at hnone hres
          refine ⟨?_, ?_⟩
          · rintro (⟨hbad, -⟩ | ⟨-, hbad⟩)
            · exact htype hbad
            · exact hnone hbad
          · rcases hres with ⟨hr, hall, ht⟩ | ⟨hr, hall, himage⟩
            · exact Or.inl ⟨hr, fun hbad => hall hbad.2, ht⟩
            · exact Or.inr ⟨hr, ⟨hpass, hall⟩, himage⟩
        · intro _ hbad
          rw [← hsize] at hbad
          exact Or.inr ⟨hpass, hbad⟩

end Segments

end Xv6.Vm
