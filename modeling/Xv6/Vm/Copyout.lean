import Mathlib
import Xv6.Vm.UserMemory

/-!
# Virtual memory - Copying to user memory

`copyout` stores bytes at a user address of some page table, page by page.  It refuses a page
that is not present or not for the user, but only when there is an entry to look at:
{lit}`uva2ka` reads through the pointer that `walkpgdir` returns, which is null when a table is
missing.

Main results:

- Theorem {lit}`uva2ka_eq`: what `uva2ka` does in each case.
- Theorem {lit}`Space.setLeaf`: a store to a page leaves the page table as it is.
- Theorem {lit}`Copied.trans`: one copy after the other.
- Theorem {lit}`copyout_exact`: when `copyout` is exact.
-/

namespace Xv6.Vm

open Foundations

/-! ## Specification -/

/-- A page is present at the user address `a`, and is for the user. -/
def Accessible (m : Machine) (root a : Nat) : Prop :=
  a < 2 ^ 47 ∧ ∃ e, flat m root a = some e ∧ e &&& pteU ≠ 0

/-- Byte `i` of page `f` is the one at the user address `a`. -/
def Backs (m : Machine) (root a f i : Nat) : Prop :=
  a < 2 ^ 47 ∧ (∃ e, flat m root a = some e ∧ frame e = f) ∧ i = a % pgsize

/-- What `copyout` has to do when it returns `r`. -/
structure CopyResult (m m' : Machine) (root va : Nat) (buf : List UInt8) (r : Int) : Prop where
  ret : r = 0 ∨ r = -1
  success : r = 0 → ∀ k < buf.length, Accessible m root (va + k) ∧
    userByte m' root (va + k) = some (buf.getD k 0)
  failure : r = -1 → ∃ k < buf.length, ¬Accessible m root (va + k)
  outside : ∀ f i, (∀ k < buf.length, ¬Backs m root (va + k) f i) →
    (m'.mem f).byteAt i = (m.mem f).byteAt i
  rest : m' = { m with mem := m'.mem }

/-- `copyout` returns with such a result. -/
def CopiesExactly (m : Machine) (root va : Nat) (buf : List UInt8) : Prop :=
  wp (copyout root va buf) (fun r m' => CopyResult m m' root va buf r) (fun _ => False) m

/-- Up to the first address that is not accessible, there is an entry for each address, and all
are user addresses; the first one may be another if its entry does not admit the user. -/
def CopySafe (m : Machine) (root va len : Nat) : Prop :=
  ∀ k < len, (∀ j < k, Accessible m root (va + j)) →
    ∃ e, slotAt m root (va + k) = some e ∧
      (va + k < 2 ^ 47 ∨ k = 0 ∧ ¬(present e = true ∧ e &&& pteU ≠ 0))

/-! ## One page -/

section Page

variable {m m' : Machine} {root va wa : Nat} {e : UInt64}

theorem uva2ka_eq : uva2ka root va m =
    match slotAt m root va with
    | none => .error .nullPointer
    | some e => .ok (if present e = true ∧ e &&& pteU ≠ 0 then some (frame e) else none, m) := by
  have hget : (Exec.get : VmM Machine) m = .ok (m, m) := rfl
  unfold uva2ka slotAt
  rw [bind_ok walkpgdir_lookup]
  cases nodeAt m.child root (tablePath va) with
  | none => rfl
  | some t =>
    rw [Option.map_some, Option.map_some]
    dsimp only
    rw [bind_ok hget]
    split
    · rfl
    · rfl

theorem slotAt_congr (h : va / pgsize = wa / pgsize) : slotAt m root va = slotAt m root wa := by
  have hpath := pagePath_congr h
  unfold pagePath at hpath
  rw [List.cons.injEq] at hpath
  unfold slotAt
  rw [hpath.1, hpath.2]

theorem accessible_iff :
    Accessible m root va ↔
      va < 2 ^ 47 ∧ ∃ e, slotAt m root va = some e ∧ present e = true ∧ e &&& pteU ≠ 0 := by
  unfold Accessible
  rw [flat_eq_slotAt]
  constructor
  · rintro ⟨hva, e, he, huser⟩
    obtain ⟨e', hslot, hpresent⟩ := Option.bind_eq_some_iff.mp he
    split at hpresent
    · cases hpresent
      exact ⟨hva, e, hslot, ‹_›, huser⟩
    · cases hpresent
  · rintro ⟨hva, e, hslot, hpresent, huser⟩
    refine ⟨hva, e, ?_, huser⟩
    rw [hslot, Option.bind_some, if_pos hpresent]

theorem Accessible.congr (h : Accessible m root va) (hpage : wa / pgsize = va / pgsize)
    (hwa : wa < 2 ^ 47) : Accessible m root wa := by
  obtain ⟨-, e, he, huser⟩ := h
  exact ⟨hwa, e, (flat_congr hpage).trans he, huser⟩

/-- A store to a page of the user leaves the page table as it is. -/
theorem Space.setLeaf (h : Space 4 m root) (hva : va < 2 ^ 47) (he : flat m root va = some e)
    (x : Page) : Space 4 (m.setPage (frame e) x) root ∧
      ∀ wa, wa < 2 ^ 47 → slotAt (m.setPage (frame e) x) root wa = slotAt m root wa := by
  have hmem : ∀ s, Reaches m.child root (UserPath 3) s →
      (m.setPage (frame e) x).mem s = m.mem s := by
    intro s hs
    refine m.setPage_mem_of_ne x ?_
    rintro rfl
    exact h.leaf_not_table hva he hs
  have hnode : ∀ q, UserPath 4 q →
      nodeAt (m.setPage (frame e) x).child root q = nodeAt m.child root q := by
    intro q hq
    cases q with
    | nil => rw [nodeAt, nodeAt]
    | cons i p =>
      have hp : UserPath 3 p := by
        refine ⟨?_, (userPath_tailClosed 4 i p hq).2⟩
        have hlen := hq.1
        rw [List.length_cons] at hlen
        omega
      rw [nodeAt, nodeAt, nodeAt_of_mem hmem hp]
      cases hs : nodeAt m.child root p with
      | none => rw [Option.bind_none, Option.bind_none]
      | some s =>
        rw [Option.bind_some, Option.bind_some]
        exact Machine.child_of_mem_eq (hmem s ⟨p, hp, hs⟩) i
  refine ⟨⟨?_, h.nodup, ?_, h.freeable⟩, ?_⟩
  · intro q r f hq hr hqf hrf
    rw [hnode q hq] at hqf
    rw [hnode r hr] at hrf
    exact h.unshared q r f hq hr hqf hrf
  · rintro f hf ⟨q, hq, hqf⟩
    rw [hnode q hq] at hqf
    exact h.fresh f hf ⟨q, hq, hqf⟩
  · intro wa hwa
    have hpath := userPath_tablePath hwa
    unfold slotAt
    rw [nodeAt_of_mem hmem hpath]
    cases hs : nodeAt m.child root (tablePath wa) with
    | none => rw [Option.map_none, Option.map_none]
    | some s =>
      rw [Option.map_some, Option.map_some, Machine.pte_of_mem_eq m (hmem s ⟨_, hpath, hs⟩)]

end Page

/-! ## Copies -/

/-- The bytes are at the user addresses from `va` on, and nothing else has changed. -/
structure Copied (m m' : Machine) (root va : Nat) (bytes : List UInt8) : Prop where
  space : Space 4 m' root
  slots : ∀ wa, wa < 2 ^ 47 → slotAt m' root wa = slotAt m root wa
  stored : ∀ k < bytes.length, userByte m' root (va + k) = some (bytes.getD k 0)
  outside : ∀ f i, (∀ k < bytes.length, ¬Backs m root (va + k) f i) →
    (m'.mem f).byteAt i = (m.mem f).byteAt i
  rest : m' = { m with mem := m'.mem }

section Copies

variable {m m' m'' : Machine} {root va : Nat} {bytes more : List UInt8}

theorem Copied.nil (h : Space 4 m root) : Copied m m root va [] :=
  ⟨h, fun _ _ => rfl, nofun, fun _ _ _ => rfl, rfl⟩

theorem Copied.flat (h : Copied m m' root va bytes) {wa : Nat} (hwa : wa < 2 ^ 47) :
    flat m' root wa = flat m root wa := by
  rw [flat_eq_slotAt, flat_eq_slotAt, h.slots wa hwa]

theorem Copied.accessible_iff (h : Copied m m' root va bytes) {wa : Nat} :
    Accessible m' root wa ↔ Accessible m root wa := by
  unfold Accessible
  refine and_congr_right ?_
  intro hwa
  rw [h.flat hwa]

theorem Copied.backs_iff (h : Copied m m' root va bytes) {wa f i : Nat} :
    Backs m' root wa f i ↔ Backs m root wa f i := by
  unfold Backs
  refine and_congr_right ?_
  intro hwa
  rw [h.flat hwa]

/-- A byte belongs to one user address. -/
theorem Backs.inj (h : Space 4 m root) {a b f i : Nat} (ha : Backs m root a f i)
    (hb : Backs m root b f i) : a = b := by
  obtain ⟨hau, ⟨e, he, hef⟩, hi⟩ := ha
  obtain ⟨hbu, ⟨e', he', hef'⟩, hi'⟩ := hb
  have hpage := h.frame_inj hau hbu he he' (hef.trans hef'.symm)
  unfold pgsize at *
  omega

theorem userByte_eq {a : Nat} {e : UInt64} (he : Vm.flat m root a = some e) :
    userByte m root a = some ((m.mem (frame e)).byteAt (a % pgsize)) := by
  unfold userByte view
  rw [he]
  rfl

/-- One copy after the other. -/
theorem Copied.trans (h₁ : Copied m m' root va bytes)
    (h₂ : Copied m' m'' root (va + bytes.length) more)
    (hin : ∀ k < bytes.length, Accessible m root (va + k)) :
    Copied m m'' root va (bytes ++ more) := by
  refine ⟨h₂.space, ?_, ?_, ?_, ?_⟩
  · intro wa hwa
    rw [h₂.slots wa hwa, h₁.slots wa hwa]
  · intro k hk
    rw [List.length_append] at hk
    by_cases hlow : k < bytes.length
    · -- the second copy does not touch the byte
      obtain ⟨hva, e, he, -⟩ := hin k hlow
      have he₁ := (h₁.flat hva).trans he
      have he₂ := (h₂.flat hva).trans he₁
      rw [List.getD_append _ _ _ _ hlow, ← h₁.stored k hlow, userByte_eq he₂, userByte_eq he₁]
      congr 1
      refine h₂.outside _ _ ?_
      intro j _ hbacks
      have hself : Backs m' root (va + k) (frame e) ((va + k) % pgsize) :=
        ⟨hva, ⟨e, he₁, rfl⟩, rfl⟩
      have heq := Backs.inj h₁.space hself hbacks
      omega
    · rw [List.getD_append_right _ _ _ _ (Nat.le_of_not_lt hlow)]
      have hbyte := h₂.stored (k - bytes.length) (by omega)
      rwa [show va + bytes.length + (k - bytes.length) = va + k by omega] at hbyte
  · intro f i hout
    rw [List.length_append] at hout
    rw [h₂.outside f i, h₁.outside f i]
    · intro k hk
      exact hout k (by omega)
    · intro k hk hbacks
      refine hout (bytes.length + k) (by omega) ?_
      rw [← Nat.add_assoc]
      exact h₁.backs_iff.mp hbacks
  · rw [h₂.rest, h₁.rest]

/-- Bytes of one page are stored. -/
theorem Space.copied (h : Space 4 m root) {e : UInt64} (hva : va < 2 ^ 47)
    (he : Vm.flat m root va = some e) (hfit : va % pgsize + bytes.length ≤ pgsize) :
    Copied m (m.setPage (frame e) ((m.mem (frame e)).overwrite (va % pgsize) bytes)) root va
      bytes := by
  obtain ⟨hspace, hslots⟩ := h.setLeaf hva he ((m.mem (frame e)).overwrite (va % pgsize) bytes)
  have hpage : ∀ k < bytes.length, (va + k) / pgsize = va / pgsize ∧
      (va + k) % pgsize = va % pgsize + k ∧ va + k < 2 ^ 47 := by
    intro k hk
    unfold pgsize at *
    omega
  have hflat : ∀ wa, wa < 2 ^ 47 → Vm.flat (m.setPage (frame e)
      ((m.mem (frame e)).overwrite (va % pgsize) bytes)) root wa = Vm.flat m root wa := by
    intro wa hwa
    rw [flat_eq_slotAt, flat_eq_slotAt, hslots wa hwa]
  refine ⟨hspace, hslots, ?_, ?_, rfl⟩
  · intro k hk
    obtain ⟨hsame, hoff, hlt⟩ := hpage k hk
    rw [userByte_eq ((hflat _ hlt).trans ((flat_congr hsame).trans he)), hoff,
      Machine.setPage_mem_self, Bytes.byteAt_overwrite_inside hk hfit]
  · intro f i hout
    by_cases hf : f = frame e
    · rw [hf, Machine.setPage_mem_self]
      refine Bytes.byteAt_overwrite_outside ?_
      by_contra hin
      have hbounds : va % pgsize ≤ i ∧ i < va % pgsize + bytes.length := by omega
      obtain ⟨hsame, hoff, hlt⟩ := hpage (i - va % pgsize) (by omega)
      refine hout (i - va % pgsize) (by omega) ⟨hlt, ⟨e, (flat_congr hsame).trans he, hf.symm⟩, ?_⟩
      omega
    · rw [Machine.setPage_mem_of_ne _ _ hf]

end Copies

/-! ## The loop -/

/-- How many bytes of the next `len` are on the page of `va`. -/
def roundLen (va len : Nat) : Nat :=
  min (pgsize - va % pgsize) len

section Loop

variable {m : Machine} {root va fuel : Nat} {buf : List UInt8}

theorem pgrounddown_div (va : Nat) : pgrounddown va / pgsize = va / pgsize :=
  Nat.mul_div_cancel _ (by decide)

theorem sub_pgrounddown (va : Nat) : va - pgrounddown va = va % pgsize := by
  unfold pgrounddown pgsize
  omega

/-- One round, by the entry for the page. -/
theorem copyoutLoop_succ (hbuf : buf ≠ []) :
    copyoutLoop root (fuel + 1) va buf m =
      match slotAt m root va with
      | none => .error .nullPointer
      | some e =>
        if present e = true ∧ e &&& pteU ≠ 0 then
          copyoutLoop root fuel ((pgrounddown va + pgsize) % 2 ^ 64)
            (buf.drop (roundLen va buf.length))
            (m.setPage (frame e) ((m.mem (frame e)).overwrite (va % pgsize)
              (buf.take (roundLen va buf.length))))
        else .ok (-1, m) := by
  rw [copyoutLoop, if_neg hbuf, sub_pgrounddown, slotAt_congr (pgrounddown_div va).symm]
  have hlook : uva2ka root (pgrounddown va) m = _ := uva2ka_eq
  cases hslot : slotAt m root (pgrounddown va) with
  | none =>
    rw [hslot] at hlook
    exact bind_error hlook
  | some e =>
    rw [hslot] at hlook
    rw [bind_ok hlook]
    dsimp only
    split
    · rfl
    · rfl

/-- The next round starts where this one ended, unless it was the last one. -/
theorem next_round (hva : va < 2 ^ 47) (hmore : buf.drop (roundLen va buf.length) ≠ []) :
    (pgrounddown va + pgsize) % 2 ^ 64 = va + roundLen va buf.length := by
  have hlen : roundLen va buf.length < buf.length := by
    by_contra hge
    exact hmore (List.drop_eq_nil_of_le (by omega))
  unfold roundLen pgrounddown pgsize at *
  omega

theorem copyoutLoop_nil : copyoutLoop root fuel va [] m = .ok (0, m) := by
  cases fuel with
  | zero => rfl
  | succ fuel =>
    rw [copyoutLoop, if_pos rfl]
    rfl

theorem roundLen_le (va len : Nat) : roundLen va len ≤ len :=
  Nat.min_le_right _ _

theorem roundLen_pos (va : Nat) {len : Nat} (hlen : 0 < len) : 0 < roundLen va len := by
  unfold roundLen pgsize
  omega

/-- The addresses of a round are on one page. -/
theorem roundLen_page {len k : Nat} (hk : k < roundLen va len) :
    (va + k) / pgsize = va / pgsize := by
  unfold roundLen pgsize at *
  omega

/-- The addresses of a round are accessible together. -/
theorem Accessible.round (h : Accessible m root va) {len k : Nat} (hk : k < roundLen va len) :
    Accessible m root (va + k) := by
  have hlt := h.1
  refine h.congr (roundLen_page hk) ?_
  unfold roundLen pgsize at hk
  omega

/-- The first round copies a part of the bytes, and the loop goes on with the rest. -/
theorem Accessible.copyoutLoop (h : Accessible m root va) (fuel : Nat) (hspace : Space 4 m root)
    (hbuf : buf ≠ []) : ∃ m₁, Copied m m₁ root va (buf.take (roundLen va buf.length)) ∧
      copyoutLoop root (fuel + 1) va buf m =
        copyoutLoop root fuel (va + roundLen va buf.length)
          (buf.drop (roundLen va buf.length)) m₁ := by
  obtain ⟨hva, e, hslot, hpresent, huser⟩ := accessible_iff.mp h
  have hflat : flat m root va = some e := by
    rw [flat_eq_slotAt, hslot, Option.bind_some, if_pos hpresent]
  refine ⟨_, hspace.copied hva hflat ?_, ?_⟩
  · rw [List.length_take]
    have hmod := Nat.mod_lt va (show 0 < pgsize by decide)
    unfold roundLen
    omega
  · rw [copyoutLoop_succ hbuf, hslot]
    dsimp only
    rw [if_pos ⟨hpresent, huser⟩]
    by_cases hmore : buf.drop (roundLen va buf.length) = []
    · rw [hmore, copyoutLoop_nil, copyoutLoop_nil]
    · rw [next_round hva hmore]

/-- Where there is an entry up to the first address that is not accessible, the bytes before
that one are copied. -/
theorem copyoutLoop_safe (h : Space 4 m root) (hfuel : buf.length ≤ fuel)
    (hsafe : CopySafe m root va buf.length) :
    ∃ r m', copyoutLoop root fuel va buf m = .ok (r, m') ∧
      ((r = 0 ∧ (∀ k < buf.length, Accessible m root (va + k)) ∧ Copied m m' root va buf) ∨
        (r = -1 ∧ ∃ k < buf.length, ¬Accessible m root (va + k) ∧
          Copied m m' root va (buf.take k))) := by
  induction fuel generalizing m va buf with
  | zero =>
    have hnil : buf = [] := List.eq_nil_of_length_eq_zero (Nat.le_zero.mp hfuel)
    subst hnil
    exact ⟨0, m, rfl, Or.inl ⟨rfl, nofun, Copied.nil h⟩⟩
  | succ fuel ih =>
    by_cases hbuf : buf = []
    · subst hbuf
      exact ⟨0, m, copyoutLoop_nil, Or.inl ⟨rfl, nofun, Copied.nil h⟩⟩
    have hlen : 0 < buf.length := List.length_pos_iff.mpr hbuf
    by_cases hacc : Accessible m root va
    · obtain ⟨m₁, hcopied, hstep⟩ := hacc.copyoutLoop fuel h hbuf
      have hpos := roundLen_pos va hlen
      have hle := roundLen_le va buf.length
      have htake : (buf.take (roundLen va buf.length)).length = roundLen va buf.length := by
        rw [List.length_take]
        omega
      -- what is left is as safe, since the entries are the same
      have hrest : CopySafe m₁ root (va + roundLen va buf.length)
          (buf.drop (roundLen va buf.length)).length := by
        intro k hk hbefore
        rw [List.length_drop] at hk
        have hall : ∀ j < roundLen va buf.length + k, Accessible m root (va + j) := by
          intro j hj
          by_cases hin : j < roundLen va buf.length
          · exact hacc.round hin
          · have hj' := hcopied.accessible_iff.mp
              (hbefore (j - roundLen va buf.length) (by omega))
            rwa [show va + roundLen va buf.length + (j - roundLen va buf.length) = va + j by
              omega] at hj'
        obtain ⟨e, he, hplace⟩ := hsafe _ (by omega) hall
        have huser : va + (roundLen va buf.length + k) < 2 ^ 47 := by
          rcases hplace with huser | ⟨hzero, _⟩
          · exact huser
          · omega
        rw [← Nat.add_assoc] at he huser
        exact ⟨e, (hcopied.slots _ huser).trans he, Or.inl huser⟩
      obtain ⟨r, m', hrun, hresult⟩ := ih hcopied.space
        (by rw [List.length_drop]; omega) hrest
      refine ⟨r, m', hstep.trans hrun, ?_⟩
      have hfirst : ∀ k < (buf.take (roundLen va buf.length)).length,
          Accessible m root (va + k) := by
        intro k hk
        rw [htake] at hk
        exact hacc.round hk
      rcases hresult with ⟨hr, hall, hcopied'⟩ | ⟨hr, k, hk, hbad, hcopied'⟩
      · refine Or.inl ⟨hr, ?_, ?_⟩
        · intro k hk
          by_cases hin : k < roundLen va buf.length
          · exact hacc.round hin
          · have hk' := hcopied.accessible_iff.mp
              (hall (k - roundLen va buf.length) (by rw [List.length_drop]; omega))
            rwa [show va + roundLen va buf.length + (k - roundLen va buf.length) = va + k by
              omega] at hk'
        · rw [← htake] at hcopied'
          have hboth := hcopied.trans hcopied' hfirst
          rwa [htake, List.take_append_drop] at hboth
      · rw [List.length_drop] at hk
        refine Or.inr ⟨hr, roundLen va buf.length + k, by omega, ?_, ?_⟩
        · rw [← Nat.add_assoc]
          intro hgood
          exact hbad (hcopied.accessible_iff.mpr hgood)
        · rw [← htake] at hcopied'
          have hboth := hcopied.trans hcopied' hfirst
          rwa [htake, ← List.take_add] at hboth
    · -- the entry for the first address does not admit the user
      obtain ⟨e, he, hplace⟩ := hsafe 0 hlen nofun
      rw [Nat.add_zero] at he hplace
      have hdenied : ¬(present e = true ∧ e &&& pteU ≠ 0) := by
        intro hgood
        rcases hplace with huser | ⟨_, hno⟩
        · exact hacc (accessible_iff.mpr ⟨huser, e, he, hgood⟩)
        · exact hno hgood
      refine ⟨-1, m, ?_, Or.inr ⟨rfl, 0, hlen, ?_, ?_⟩⟩
      · rw [copyoutLoop_succ hbuf, he]
        exact if_neg hdenied
      · exact hacc
      · exact Copied.nil h

/-- Where an entry is missing behind accessible addresses, it is read all the same. -/
theorem copyoutLoop_stops (h : Space 4 m root) (hfuel : buf.length ≤ fuel) {k : Nat}
    (hk : k < buf.length) (hbefore : ∀ j < k, Accessible m root (va + j))
    (huser : va + k < 2 ^ 47) (hnone : slotAt m root (va + k) = none) :
    copyoutLoop root fuel va buf m = .error .nullPointer := by
  induction fuel generalizing m va buf k with
  | zero => omega
  | succ fuel ih =>
    have hbuf : buf ≠ [] := List.length_pos_iff.mp (by omega)
    by_cases hround : k < roundLen va buf.length
    · rw [copyoutLoop_succ hbuf, ← slotAt_congr (roundLen_page hround), hnone]
    · have hpos := roundLen_pos va (List.length_pos_iff.mpr hbuf)
      have hacc : Accessible m root va := hbefore 0 (by omega)
      obtain ⟨m₁, hcopied, hstep⟩ := hacc.copyoutLoop fuel h hbuf
      have hsum : va + roundLen va buf.length + (k - roundLen va buf.length) = va + k := by
        omega
      rw [hstep]
      refine ih (k := k - roundLen va buf.length) hcopied.space ?_ ?_ ?_ ?_ ?_
      · rw [List.length_drop]
        omega
      · rw [List.length_drop]
        omega
      · intro j hj
        refine hcopied.accessible_iff.mpr ?_
        rw [Nat.add_assoc]
        exact hbefore _ (by omega)
      · rw [hsum]
        exact huser
      · rw [hcopied.slots _ (by rw [hsum]; exact huser), hsum]
        exact hnone

end Loop

/-! ## Exactness -/

/-- `copyout` is exact if there is an entry for each address up to the first that is not
accessible, and for ranges of user addresses only then. -/
theorem copyout_exact (m : Machine) (root va : Nat) (buf : List UInt8) (h : Space 4 m root) :
    (CopySafe m root va buf.length → CopiesExactly m root va buf) ∧
      (va + buf.length ≤ 2 ^ 47 → CopiesExactly m root va buf →
        CopySafe m root va buf.length) := by
  constructor
  · intro hsafe
    obtain ⟨r, m', hrun, hresult⟩ := copyoutLoop_safe h (Nat.le_refl _) hsafe
    refine wp_never.mpr ⟨r, m', hrun, ?_⟩
    rcases hresult with ⟨hr, hall, hcopied⟩ | ⟨hr, k, hk, hbad, hcopied⟩
    · refine ⟨Or.inl hr, fun _ k hk => ⟨hall k hk, hcopied.stored k hk⟩, ?_, hcopied.outside,
        hcopied.rest⟩
      intro hfail
      omega
    · refine ⟨Or.inr hr, ?_, fun _ => ⟨k, hk, hbad⟩, ?_, hcopied.rest⟩
      · intro hok
        omega
      · intro f i hout
        refine hcopied.outside f i ?_
        intro j hj
        rw [List.length_take] at hj
        exact hout j (by omega)
  · intro htop hexact k hk hbefore
    cases hslot : slotAt m root (va + k) with
    | some e => exact ⟨e, rfl, Or.inl (by omega)⟩
    | none =>
      have hstop := copyoutLoop_stops h (Nat.le_refl _) hk hbefore (by omega) hslot
      obtain ⟨r, m', hrun, -⟩ := wp_never.mp hexact
      have hrun' : copyoutLoop root buf.length va buf m = .ok (r, m') := hrun
      rw [hstop] at hrun'
      cases hrun'

/-! ### A small page table -/

section TwoPages

-- the statements below mention it, and must not be evaluated
attribute [local irreducible] copyout

/-- Two bytes may be stored across the boundary between two pages. -/
theorem copyout_exact_pages : ∃ m, Space 4 m 1 ∧
    CopiesExactly m 1 (2 * pgsize - 1) [65, 66] := by
  obtain ⟨-, m, -, h⟩ := exists_pages (show pgsize ≤ 3 * pgsize by decide) (by decide)
    (by decide +kernel)
  have hspace : Space 4 m 1 := h.forest.space
  refine ⟨m, hspace, (copyout_exact m 1 (2 * pgsize - 1) [65, 66] hspace).1 ?_⟩
  intro k hk _
  have hk' : k < 2 := hk
  have hround : pgroundup (3 * pgsize) = 3 * pgsize := by decide
  have hpage : flat m 1 (2 * pgsize - 1 + k) ≠ none := by
    refine (h.pages _ ?_).mpr ⟨?_, show _ < pgroundup (3 * pgsize) from ?_⟩
    all_goals
      unfold pgsize at *
      omega
  obtain ⟨e, he⟩ := Option.ne_none_iff_exists'.mp hpage
  rw [flat_eq_slotAt] at he
  obtain ⟨e', he', -⟩ := Option.bind_eq_some_iff.mp he
  refine ⟨e', he', Or.inl ?_⟩
  unfold pgsize
  omega

end TwoPages

/-- Why a run stops. -/
def stopOf {σ ε α : Type} (x : Exec σ ε α) (s : σ) : Option ε :=
  match x s with
  | .ok _ => none
  | .error e => some e

/-- The address that `exec` computes for an argument which is longer than the new image is not
mapped at any level, and `copyout` does not return. -/
theorem copyout_not_exact : ∃ m, UserProcess (oneProcess m (2 * pgsize)) Ftable.initproc 1 ∧
    ¬CopiesExactly m 1 (2 ^ 64 - 8) [65, 0] := by
  obtain ⟨r, m, hrun, h⟩ := exists_pages (show pgsize ≤ 2 * pgsize by decide) (by decide)
    (by decide +kernel)
  have hstop : stopOf (allocuvm 1 pgsize (2 * pgsize) >>= fun _ => copyout 1 (2 ^ 64 - 8) [65, 0])
      emptySpace = some .nullPointer := by decide +kernel
  unfold stopOf at hstop
  rw [bind_ok hrun] at hstop
  refine ⟨m, h, ?_⟩
  intro hexact
  obtain ⟨r', m', hreturns, -⟩ := wp_never.mp hexact
  rw [hreturns] at hstop
  cases hstop

end Xv6.Vm
