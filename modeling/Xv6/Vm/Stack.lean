import Xv6.Vm.Segments

/-!
# Virtual memory - The stack of a new program

Above the image `exec` adds two pages: a page that the user may not touch, and the stack, where the
argument strings and the array of pointers to them go.  `copyout` refuses the page below the stack,
so that what does not fit in the stack page is noticed, unless the string is longer than everything
below the stack pointer: then the address wraps to the end of the address space, where there is no
table, and `copyout` reads through a null pointer.

Main results:

- Theorem {lit}`Image.clearpteu`: the page below the stack.
- Theorems {lit}`Stacked.copyout_top`, {lit}`Stacked.copyout_guard`, {lit}`Stacked.copyout_wild`:
  where bytes may be pushed.
- Theorem {lit}`Image.makeStack`: how the building of the stack ends.
-/

namespace Xv6.Vm

open Foundations

/-! ## A page that is not for the user -/

section Flags

variable (e : UInt64)

theorem frame_clear : frame (e &&& ~~~pteU) = frame e := by
  have hmask : (~~~pteU).toNat / 2 ^ 12 = 2 ^ 52 - 1 := by decide
  have hlt := e.toNat_lt
  unfold frame
  rw [show pgsize = 2 ^ 12 from rfl, UInt64.toNat_and, Nat.and_div_two_pow, hmask,
    Nat.and_two_pow_sub_one_eq_mod, Nat.mod_eq_of_lt (by omega)]

theorem present_clear : present (e &&& ~~~pteU) = present e := by
  have hmask : (~~~pteU).toNat % 2 ^ 1 = 2 ^ 1 - 1 := by decide
  rw [Bool.eq_iff_iff, present_iff, present_iff, UInt64.toNat_and, show 2 = 2 ^ 1 from rfl,
    Nat.and_mod_two_pow, hmask, Nat.and_two_pow_sub_one_eq_mod, Nat.mod_mod]

theorem user_clear : e &&& ~~~pteU &&& pteU = 0 := by
  rw [UInt64.and_assoc, UInt64.not_and_self, UInt64.and_zero]

end Flags

section Entry

variable {m : Machine} {root t f : Nat} {i : Index} {e : UInt64}

theorem user_userEntry : userEntry f &&& pteU ≠ 0 := by
  intro hzero
  have hbit := congrArg (fun x => x.toNat.testBit 2) hzero
  have hmask : pteU.toNat.testBit 2 = true := by decide
  have hnone : (0 : UInt64).toNat.testBit 2 = false := by decide
  simp only [userEntry, UInt64.toNat_and, UInt64.toNat_or, Nat.testBit_and, Nat.testBit_or, hmask,
    hnone, Bool.or_true, Bool.true_or, Bool.and_true] at hbit
  cases hbit

/-- An entry that points to the same page leaves the tree as it is. -/
theorem Turns.setPte_same (h : Forest m [userTree root])
    (ht : Reaches m.child root (UserPath 4) t) (hpresent : present e = present (m.pte t i))
    (hframe : frame e = frame (m.pte t i)) :
    Turns m (m.setPte t i e) [userTree root] [userTree root] := by
  have hchild : (m.setPte t i e).child = m.child := by
    funext s j
    unfold Machine.child
    by_cases hsj : s = t ∧ j = i
    · obtain ⟨rfl, rfl⟩ := hsj
      rw [Machine.pte_setPte_self, hpresent, hframe]
    · rw [Machine.pte_setPte_of_ne]
      by_cases hs : s = t
      · exact Or.inr fun hj => hsj ⟨hs, hj⟩
      · exact Or.inl hs
  have hheld : ∀ g, Held (m.setPte t i e) [userTree root] g ↔ Held m [userTree root] g := by
    intro g
    rw [held_userTree, held_userTree, hchild]
  refine ⟨⟨?_, List.pairwise_singleton _ _, ?_, ?_, h.nodup, h.freeable, h.once⟩, rfl, rfl, ?_, ?_⟩
  · intro k hk
    rw [List.mem_singleton.mp hk]
    refine ⟨userPath_tailClosed 4, ?_⟩
    rw [hchild]
    exact h.space.unshared
  · intro g hg hbad
    exact h.fresh g hg ((hheld g).mp hbad)
  · intro g hg
    exact h.ok g ((hheld g).mp hg)
  · intro g
    rw [hheld]
    exact Iff.rfl
  · intro g _ _ hg
    refine Machine.setPte_mem_of_ne _ _ _ _ ?_
    rintro rfl
    exact hg (held_userTree.mpr ht)

/-- An entry that points to the same page leaves the bytes as they are. -/
theorem userByte_setPte_same {va wa : Nat} {e₀ : UInt64} (h : Space 4 m root) (hva : va < 2 ^ 47)
    (hwa : wa < 2 ^ 47) (ht : nodeAt m.child root (tablePath va) = some t)
    (hflat : flat m root va = some e₀) (hpresent : present e = true) (hframe : frame e = frame e₀) :
    userByte (m.setPte t (ptx va) e) root wa = userByte m root wa := by
  have hmem : ∀ e', flat m root wa = some e' →
      (m.setPte t (ptx va) e).mem (frame e') = m.mem (frame e') := by
    intro e' he'
    refine Machine.setPte_mem_of_ne _ _ _ _ ?_
    intro hbad
    refine h.leaf_not_table hwa he' ?_
    rw [hbad]
    exact ⟨_, userPath_tablePath hva, ht⟩
  have hnew := flat_setPte (e := e) (h.mono (show 3 ≤ 4 by omega)) hva hwa ht
  by_cases hin : wa / pgsize = va / pgsize
  · rw [if_pos hin, if_pos hpresent] at hnew
    have hold : flat m root wa = some e₀ := (flat_congr hin).trans hflat
    rw [userByte_eq hnew, userByte_eq hold, hframe, hmem e₀ hold]
  · rw [if_neg hin] at hnew
    cases hold : flat m root wa with
    | none =>
      unfold userByte view
      rw [hnew, hold]
      rfl
    | some e' => rw [userByte_eq (hnew.trans hold), userByte_eq hold, hmem e' hold]

end Entry

/-! ## The stack -/

/-- An image of size `sz` with a stack in its last page; the page below is not for the user. -/
structure Stacked (m₀ m : Machine) (root sz : Nat) (byte : Nat → UInt8) : Prop where
  turns : Turns m₀ m [] [userTree root]
  pages : PagesExact m root sz
  user : ∀ va, pgsize ≤ va → va < sz →
    (Accessible m root va ↔ ¬(sz - 2 * pgsize ≤ va ∧ va < sz - pgsize))
  slots : ∀ va, va < sz → slotAt m root va ≠ none
  upper : Upper m root
  bytes : Contents m root sz byte
  aligned : sz % pgsize = 0
  low : 3 * pgsize ≤ sz
  high : sz ≤ 2 ^ 47

section Stack

variable {m₀ m m' : Machine} {root sz va sp : Nat} {byte : Nat → UInt8} {buf : List UInt8}
  {E : VmStop → Prop}

theorem pgroundup_of_mod (hmod : sz % pgsize = 0) (hle : sz ≤ 2 ^ 47) : pgroundup sz = sz := by
  rw [pgroundup_of_le hle]
  unfold pgsize at hmod
  omega

theorem Image.pages (h : Image m₀ m root sz byte) : PagesExact m root sz := by
  intro va hva
  by_cases hin : pgsize ≤ va ∧ va < pgroundup sz
  · obtain ⟨f, hf⟩ := h.present hin.1 hin.2 hva
    rw [hf]
    exact ⟨fun _ => hin, fun _ => Option.some_ne_none _⟩
  · rw [h.absent hin hva]
    exact ⟨fun hbad => absurd rfl hbad, fun hbad => absurd hbad hin⟩

/-- There is an entry for each address of the image, also in the page that is not mapped. -/
theorem Image.slots (h : Image m₀ m root sz byte) (hmod : sz % pgsize = 0) (hlow : pgsize < sz)
    (hlt : va < sz) : slotAt m root va ≠ none := by
  have htop := h.high
  have hround := pgroundup_of_mod hmod htop
  have htable := (h.tables va (by omega) 0 (by decide)).mpr
    ⟨by unfold pgsize at *; omega, Nat.div_le_div_right (by omega)⟩
  rw [List.drop_zero] at htable
  unfold slotAt
  rw [ne_eq, Option.map_eq_none_iff]
  exact htable

/-- The page below the stack is taken from the user. -/
theorem Image.clearpteu (h : Image m₀ m root sz byte) (hmod : sz % pgsize = 0)
    (hlow : 3 * pgsize ≤ sz) :
    wp (Vm.clearpteu root (sz - 2 * pgsize)) (fun _ m' => Stacked m₀ m' root sz byte) E m := by
  have htop := h.high
  have hround := pgroundup_of_mod hmod htop
  have hspace := h.forest.space
  have hpage : ∀ wa, wa / pgsize = (sz - 2 * pgsize) / pgsize ↔
      sz - 2 * pgsize ≤ wa ∧ wa < sz - pgsize := by
    intro wa
    unfold pgsize at *
    omega
  have hguard : pgsize ≤ sz - 2 * pgsize ∧ sz - 2 * pgsize < sz := by
    unfold pgsize at *
    omega
  have hva : sz - 2 * pgsize < 2 ^ 47 := by omega
  obtain ⟨f, hflat⟩ := h.present hguard.1 (by omega) hva
  generalize hbelow : sz - 2 * pgsize = va at *
  obtain ⟨t, ht, hpte, hpresent, hwalk⟩ := walkpgdir_flat hflat
  have hpath := userPath_tablePath hva
  unfold Vm.clearpteu
  rw [wp_bind, wp_of_ok hwalk]
  simp only
  rw [wp_modify, hpte]
  generalize he : userEntry f &&& ~~~pteU = e
  have hframe : frame e = frame (userEntry f) := by rw [← he, frame_clear]
  have hpre : Vm.present e = true := by rw [← he, present_clear, hpresent]
  have hturns : Turns m (m.setPte t (ptx va) e) [userTree root] [userTree root] := by
    refine Turns.setPte_same h.forest ⟨_, hpath.mono (by omega), ht⟩ ?_ ?_
    · rw [hpre, hpte, hpresent]
    · rw [hframe, hpte]
  have hflats : ∀ wa, wa < 2 ^ 47 → flat (m.setPte t (ptx va) e) root wa =
      if wa / pgsize = va / pgsize then some e else flat m root wa := by
    intro wa hwa
    rw [flat_setPte (hspace.mono (by omega)) hva hwa ht, if_pos hpre]
  refine ⟨h.turns.trans hturns, ?_, ?_, ?_, ?_, ?_, hmod, hlow, htop⟩
  · intro wa hwa
    rw [← h.pages wa hwa, hflats wa hwa]
    by_cases hin : wa / pgsize = va / pgsize
    · rw [if_pos hin, flat_congr hin, hflat]
      exact iff_of_true (Option.some_ne_none _) (Option.some_ne_none _)
    · rw [if_neg hin]
  · intro wa hwlow hwhigh
    unfold Accessible
    rw [hflats wa (by omega), hbelow, ← hpage wa]
    by_cases hin : wa / pgsize = va / pgsize
    · rw [if_pos hin]
      refine iff_of_false ?_ (not_not.mpr hin)
      rintro ⟨-, e', he', huser⟩
      cases he'
      rw [← he] at huser
      exact huser (user_clear _)
    · rw [if_neg hin]
      obtain ⟨g, hg⟩ := h.present hwlow (by omega) (show wa < 2 ^ 47 by omega)
      exact iff_of_true ⟨by omega, _, hg, user_userEntry⟩ hin
  · intro wa hwa
    rw [slotAt_setPte (hspace.mono (by omega)) hva (by omega) ht]
    by_cases hin : wa / pgsize = va / pgsize
    · rw [if_pos hin]
      exact Option.some_ne_none _
    · rw [if_neg hin]
      exact h.slots hmod (by omega) hwa
  · refine h.upper.of_pte ?_
    intro j _
    exact Machine.pte_setPte_of_ne _ _ _ _ (Or.inl
      ((hspace.mono (show 3 ≤ 4 by omega)).ne_root hpath (List.cons_ne_nil _ _) ht).symm)
  · intro wa hwlow hwhigh
    rw [userByte_setPte_same hspace hva (by omega) ht hflat hpre hframe]
    exact h.bytes wa hwlow (by omega)

theorem Stacked.forest (h : Stacked m₀ m root sz byte) : Forest m [userTree root] :=
  h.turns.forest

/-- Addresses of the memory have an entry each. -/
theorem Stacked.copySafe (h : Stacked m₀ m root sz byte) (hend : va + buf.length ≤ sz) :
    CopySafe m root va buf.length := by
  intro k hk _
  have htop := h.high
  obtain ⟨e, he⟩ := Option.ne_none_iff_exists'.mp (h.slots (va + k) (by omega))
  exact ⟨e, he, Or.inl (by omega)⟩

theorem Stacked.copied (h : Stacked m₀ m root sz byte) (hc : Copied m m' root va buf) :
    Stacked m₀ m' root sz (overlay byte va buf) := by
  have hspace := h.forest.space
  have htop := h.high
  refine ⟨h.turns.trans (hc.turns h.forest), ?_, ?_, ?_, ?_, hc.contents hspace h.high h.bytes,
    h.aligned, h.low, h.high⟩
  · intro wa hwa
    rw [hc.flat hwa]
    exact h.pages wa hwa
  · intro wa hlow hhigh
    rw [hc.accessible_iff]
    exact h.user wa hlow hhigh
  · intro wa hwa
    rw [hc.slots wa (by omega)]
    exact h.slots wa hwa
  · refine h.upper.of_pte ?_
    intro j _
    exact Machine.pte_of_mem_eq m
      (hc.mem_table hspace ⟨[], UserPath.nil _, rfl⟩) j

/-- Bytes in the stack page are stored. -/
theorem Stacked.copyout_top (h : Stacked m₀ m root sz byte) (hlow : sz - pgsize ≤ va)
    (hend : va + buf.length ≤ sz) :
    wp (copyout root va buf)
      (fun r m' => r = 0 ∧ Stacked m₀ m' root sz (overlay byte va buf)) E m := by
  have hsz := h.low
  obtain ⟨r, m', hrun, hres⟩ :=
    copyoutLoop_safe h.forest.space (Nat.le_refl _) (h.copySafe hend)
  unfold copyout
  rw [wp_of_ok hrun]
  rcases hres with ⟨hr, -, hc⟩ | ⟨-, k, hk, hbad, -⟩
  · exact ⟨hr, h.copied hc⟩
  · refine absurd ((h.user (va + k) ?_ (by omega)).mpr ?_) hbad
    · unfold pgsize at *
      omega
    · omega

/-- Bytes that reach into the page below are refused. -/
theorem Stacked.copyout_guard (h : Stacked m₀ m root sz byte) (hbuf : 0 < buf.length)
    (hlow : va < sz - pgsize) (hreach : sz - 2 * pgsize < va + buf.length)
    (hend : va + buf.length ≤ sz) :
    wp (copyout root va buf) (fun r m' => r = -1 ∧ Turns m₀ m' [] [userTree root]) E m := by
  have hsz := h.low
  obtain ⟨r, m', hrun, hres⟩ :=
    copyoutLoop_safe h.forest.space (Nat.le_refl _) (h.copySafe hend)
  unfold copyout
  rw [wp_of_ok hrun]
  rcases hres with ⟨-, hall, -⟩ | ⟨hr, k, hk, -, hc⟩
  · have hpos : 0 < pgsize := by decide
    have hin : max va (sz - 2 * pgsize) - va < buf.length := by
      omega
    have hacc := hall _ hin
    rw [show va + (max va (sz - 2 * pgsize) - va) = max va (sz - 2 * pgsize) by omega,
      h.user _ (by unfold pgsize at *; omega) (by omega)] at hacc
    omega
  · exact ⟨hr, h.turns.trans (hc.turns h.forest)⟩

/-- At the end of the address space there is no table. -/
theorem Stacked.copyout_wild (h : Stacked m₀ m root sz byte) (hbuf : buf ≠ [])
    (hlow : 2 ^ 64 - 2 ^ 39 ≤ va) (hhigh : va < 2 ^ 64) :
    copyout root va buf m = .error .nullPointer := by
  have hlen : 0 < buf.length := List.length_pos_iff.mpr hbuf
  have hindex : 256 < (pmx va).val := by
    change 256 < va / 2 ^ 39 % 512
    omega
  have hroot : nodeAt m.child root [] = some root := rfl
  have hnone : nodeAt m.child root [pmx va] = none := (nodeAt_cons hroot).trans (h.upper _ hindex)
  have hslot : slotAt m root va = none := by
    have hall := nodeAt_append_none hnone [pdx va, pdpx va]
    unfold slotAt tablePath
    rw [List.cons_append, List.cons_append, List.nil_append] at hall
    rw [hall, Option.map_none]
  unfold copyout
  obtain ⟨n, hn⟩ := Nat.exists_eq_succ_of_ne_zero hlen.ne'
  rw [hn, copyoutLoop_succ hbuf, hslot]

end Stack

/-! ## Arguments -/

/-- The arguments fit above `base` when they are pushed from `sp` on. -/
def ArgsFit (base : Nat) : List (List UInt8) → Nat → Prop
  | [], _ => True
  | arg :: args, sp => base + arg.length + 1 ≤ sp ∧ ArgsFit base args (pushAddr sp arg)

/-- After arguments that fit there is one that is longer than all that is below `sp`. -/
def ArgsWrap (base : Nat) : List (List UInt8) → Nat → Prop
  | [], _ => False
  | arg :: args, sp => sp < arg.length + 1 ∨
      base + arg.length + 1 ≤ sp ∧ ArgsWrap base args (pushAddr sp arg)

/-- The stack pointer after the arguments. -/
def spAfter (args : List (List UInt8)) (sp : Nat) : Nat :=
  args.foldl pushAddr sp

/-- The addresses of the arguments. -/
def argAddrs : List (List UInt8) → Nat → List Nat
  | [], _ => []
  | arg :: args, sp => pushAddr sp arg :: argAddrs args (pushAddr sp arg)

/-- The bytes of the memory after the arguments were pushed. -/
def pushBytes (args : List (List UInt8)) (sp : Nat) (byte : Nat → UInt8) : Nat → UInt8 :=
  ((argAddrs args sp).zip args).foldl (fun byte x => overlay byte x.1 (x.2 ++ [0])) byte

section Args

variable {m₀ m : Machine} {root sz sp : Nat} {byte : Nat → UInt8} {args : List (List UInt8)}

theorem pushAddr_of_le {arg : List UInt8} (hle : arg.length + 1 ≤ sp) (hsp : sp < 2 ^ 64) :
    pushAddr sp arg = (sp - (arg.length + 1)) / 8 * 8 := by
  unfold pushAddr subAddr
  rw [show sp + 2 ^ 64 - (arg.length + 1) = sp - (arg.length + 1) + 2 ^ 64 by omega,
    Nat.add_mod_right, Nat.mod_eq_of_lt (by omega)]

theorem spAfter_cons {arg : List UInt8} :
    spAfter (arg :: args) sp = spAfter args (pushAddr sp arg) :=
  List.foldl_cons ..

theorem pushBytes_cons {arg : List UInt8} : pushBytes (arg :: args) sp byte =
    pushBytes args (pushAddr sp arg) (overlay byte (pushAddr sp arg) (arg ++ [0])) := by
  unfold pushBytes
  rw [argAddrs, List.zip_cons_cons, List.foldl_cons]

/-- The loop over the arguments. -/
theorem Stacked.pushArgs {ptrs : List Nat} (h : Stacked m₀ m root sz byte)
    (hbase : sz - pgsize ≤ sp) (hsp : sp ≤ sz) (hlen : ∀ arg ∈ args, arg.length < 2 ^ 32)
    (hcount : ptrs.length + args.length ≤ maxarg) :
    wp (Vm.pushArgs root args sp ptrs)
      (fun r m' => ¬ArgsWrap (sz - pgsize) args sp ∧
        (r = none ∧ ¬ArgsFit (sz - pgsize) args sp ∧ Turns m₀ m' [] [userTree root] ∨
          r = some (spAfter args sp, ptrs ++ argAddrs args sp) ∧
            ArgsFit (sz - pgsize) args sp ∧ sz - pgsize ≤ spAfter args sp ∧ spAfter args sp ≤ sz ∧
            Stacked m₀ m' root sz (pushBytes args sp byte)))
      (fun _ => ArgsWrap (sz - pgsize) args sp) m := by
  induction args generalizing m sp ptrs byte with
  | nil =>
    rw [Vm.pushArgs, wp_pure, ArgsWrap, ArgsFit, pushBytes, argAddrs, List.append_nil]
    exact ⟨not_false, Or.inr ⟨rfl, trivial, hbase, hsp, h⟩⟩
  | cons arg args ih =>
    have htop := h.high
    have hlow := h.low
    have hmod := h.aligned
    have harg := hlen arg List.mem_cons_self
    have hbuf : (arg ++ [0]).length = arg.length + 1 := by
      rw [List.length_append, List.length_singleton]
    rw [List.length_cons] at hcount
    rw [Vm.pushArgs, if_neg (by omega)]
    by_cases hwrap : sp < arg.length + 1
    · have haddr : pushAddr sp arg = (sp + 2 ^ 64 - (arg.length + 1)) / 8 * 8 := by
        unfold pushAddr subAddr
        rw [Nat.mod_eq_of_lt (by omega)]
      have hwild : copyout root (pushAddr sp arg) (arg ++ [0]) m = .error .nullPointer :=
        h.copyout_wild (List.append_ne_nil_of_right_ne_nil _ (List.cons_ne_nil _ _)) (by omega)
          (by omega)
      rw [wp_bind, wp_of_error hwild]
      exact Or.inl hwrap
    have haddr := pushAddr_of_le (Nat.le_of_not_lt hwrap) (show sp < 2 ^ 64 by omega)
    by_cases hfit : sz - pgsize + arg.length + 1 ≤ sp
    · have hnext : sz - pgsize ≤ pushAddr sp arg := by
        unfold pgsize at *
        omega
      refine wp_bind_of (h.copyout_top hnext (by omega)) ?_
      rintro r m₁ ⟨rfl, hstacked⟩
      rw [if_neg (by decide)]
      have hle : pushAddr sp arg ≤ sz := by omega
      have hrest : ∀ a ∈ args, a.length < 2 ^ 32 := fun a ha => hlen a (List.mem_cons_of_mem _ ha)
      have hroom : (ptrs ++ [pushAddr sp arg]).length + args.length ≤ maxarg := by
        rw [List.length_append, List.length_singleton]
        omega
      refine wp_mono (ih hstacked hnext hle hrest hroom) ?_ fun _ hbad => Or.inr ⟨hfit, hbad⟩
      rintro r m₂ ⟨hnone, hres⟩
      rw [ArgsWrap, ArgsFit, spAfter_cons, pushBytes_cons, argAddrs]
      refine ⟨?_, ?_⟩
      · rintro (hbad | ⟨-, hbad⟩)
        · exact hwrap hbad
        · exact hnone hbad
      · rcases hres with ⟨hr, hall, ht⟩ | ⟨hr, hall, hbase', hsp', hstacked'⟩
        · exact Or.inl ⟨hr, fun hbad => hall hbad.2, ht⟩
        · refine Or.inr ⟨?_, ⟨hfit, hall⟩, hbase', hsp', hstacked'⟩
          rw [hr, List.append_assoc, List.singleton_append]
    · refine wp_bind_of (h.copyout_guard (by omega) ?_ ?_ (by omega)) ?_
      · unfold pgsize at *
        omega
      · unfold pgsize at *
        omega
      · rintro r m₁ ⟨rfl, ht⟩
        rw [if_pos (by decide), wp_pure]
        refine ⟨?_, Or.inl ⟨rfl, fun hbad => hfit hbad.1, ht⟩⟩
        rintro (hbad | ⟨hbad, -⟩)
        · exact hwrap hbad
        · exact hfit hbad

theorem Image.round (h : Image m₀ m root sz byte) : Image m₀ m root (pgroundup sz) byte := by
  have hround := pgroundup_of_le h.high
  have hlow := h.low
  have hhigh := h.high
  have htwice : pgroundup (pgroundup sz) = pgroundup sz :=
    pgroundup_of_mod (pgroundup_mod sz) (by omega)
  refine ⟨h.turns, ?_, ?_, h.blank, h.upper, ?_, ?_, ?_, by omega, by omega⟩
  · rw [htwice]
    exact h.entries
  · rw [htwice]
    exact h.tables
  · rw [htwice]
    exact h.count
  · rw [htwice]
    exact h.bytes
  · rw [htwice]
    exact h.zero

/-- An image is smaller than the physical memory. -/
theorem Image.size_le (h : Image m₀ m root sz byte) : sz ≤ phystop + pgsize :=
  h.pages.size_le h.forest (h.high.trans_lt (by decide))

/-- With `n` free pages there is memory for an image of size `sz` with all tables. -/
def Room (n sz : Nat) : Prop :=
  1 + imageCost sz ≤ n

/-- How the building of the stack ends; `top` is the end of the new image. -/
theorem Image.makeStack {top : Nat} (h : Image m₀ m root sz byte) (hmod : sz % pgsize = 0)
    (htop : top = sz + 2 * pgsize) (hlen : ∀ arg ∈ args, arg.length < 2 ^ 32)
    (hcount : args.length ≤ maxarg) :
    wp (Vm.makeStack root sz args)
      (fun r m' => ¬(Room m₀.free.length top ∧ ArgsWrap (top - pgsize) args top) ∧
        (r = none ∧ ¬(Room m₀.free.length top ∧ ArgsFit (top - pgsize) args top) ∧
            Turns m₀ m' [] [userTree root] ∨
          r = some (top, spAfter args top, argAddrs args top) ∧ Room m₀.free.length top ∧
            ArgsFit (top - pgsize) args top ∧ top - pgsize ≤ spAfter args top ∧
            spAfter args top ≤ top ∧ Stacked m₀ m' root top (pushBytes args top byte)))
      (fun _ => Room m₀.free.length top ∧ ArgsWrap (top - pgsize) args top) m := by
  have hsize := h.size_le
  have hlow := h.low
  have hnew : (sz + 2 * pgsize) % 2 ^ 64 = top := by
    unfold phystop pgsize at *
    omega
  have hhigh : top ≤ 2 ^ 47 := by
    unfold phystop pgsize at *
    omega
  have hmax : max sz top = top := by omega
  have hround : pgroundup top = top :=
    pgroundup_of_mod (by unfold pgsize at *; omega) hhigh
  have hkernbase : 2 ^ 47 < kernbase := by decide
  unfold Vm.makeStack
  rw [hnew]
  refine wp_bind_of (h.allocuvm (Or.inl hhigh)) ?_
  rintro r m₁ (⟨rfl, hturns, hout⟩ | ⟨-, rfl, himage⟩)
  · have hnone : ¬Room m₀.free.length top := by
      rw [hmax, hround] at hout
      unfold Room
      omega
    rw [if_pos rfl, wp_pure]
    exact ⟨fun hbad => hnone hbad.1, Or.inl ⟨rfl, fun hbad => hnone hbad.1, hturns⟩⟩
  · rw [hmax] at himage ⊢
    have hroom : Room m₀.free.length top := by
      have hcost := himage.count
      rw [hround] at hcost
      unfold Room
      omega
    have hsub : subAddr top (2 * pgsize) = top - 2 * pgsize := by
      unfold subAddr pgsize at *
      omega
    rw [if_neg (by unfold pgsize at *; omega), hsub]
    refine wp_bind_of (himage.clearpteu (by unfold pgsize at *; omega)
      (by unfold pgsize at *; omega)) ?_
    intro _ m₂ hstacked
    have hnil : ([] : List Nat).length + args.length ≤ maxarg := by
      rw [List.length_nil]
      omega
    have hpush := hstacked.pushArgs (Nat.sub_le _ _) (le_refl top) hlen hnil
    refine wp_bind_of (wp_mono hpush (fun _ _ hres => hres) fun _ hbad => ⟨hroom, hbad⟩) ?_
    rintro r m₃ ⟨hwrap, hres⟩
    rcases hres with ⟨rfl, hfit, hturns⟩ | ⟨rfl, hfit, hbase, hsp, hdone⟩
    · exact ⟨fun hbad => hwrap hbad.2, Or.inl ⟨rfl, fun hbad => hfit hbad.2, hturns⟩⟩
    · exact ⟨fun hbad => hwrap hbad.2, Or.inr ⟨rfl, hroom, hfit, hbase, hsp, hdone⟩⟩

end Args

end Xv6.Vm
