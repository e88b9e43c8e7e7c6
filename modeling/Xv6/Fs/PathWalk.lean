import Xv6.Fs.DirectoryMap
import Xv6.Fs.PathNames

/-!
# File system - Resolving a path in the kernel

`namex` walks over the directories of a path with one reference in its hand: it locks the inode it
holds, looks the next element up, which gives a reference to the next inode, and drops the one it
had.  It changes nothing but the inode cache, and there it has, in the end, one more reference to
the inode it returns.

Main results:

- Theorem {lit}`Holding.got` and {lit}`Holding.dropped`: references that are taken and dropped.
- Theorem {lit}`namexLoop_walks`: the loop of {lit}`namex` follows the path.
- Theorem {lit}`path_resolution`: {lit}`namei` and {lit}`nameiparent` are folds of lookups.
-/

namespace Xv6.Fs

open Foundations

/-! ## Following a path -/

/-- The inode `i` on disk. -/
def FsState.inode (s : FsState) (i : Nat) : Dinode :=
  inodeTable s.sb s.disk i

/-- Look up a name in the inode `i`, which has to be a directory. -/
def lookIn (s : FsState) (i : Nat) (c : List UInt8) : Option Nat :=
  if (s.inode i).type = tDir then inumOf (entries (contents s.disk (s.inode i))) c else none

/-- Look up names in turn, from the inode `i` on. -/
def follow (s : FsState) (i : Nat) (cs : List (List UInt8)) : Option Nat :=
  cs.foldlM (lookIn s) i

/-- The directory of the last name, and this name. -/
def followParent (s : FsState) (i : Nat) (cs : List (List UInt8)) :
    Option (Nat × List UInt8) := do
  let c ← cs.getLast?
  let d ← follow s i cs.dropLast
  if (s.inode d).type = tDir then some (d, c) else none

section Follow

variable (s : FsState) (i : Nat) (c : List UInt8) (cs : List (List UInt8))

theorem follow_cons : follow s i (c :: cs) = (lookIn s i c).bind fun j => follow s j cs :=
  rfl

theorem followParent_single :
    followParent s i [c] = if (s.inode i).type = tDir then some (i, c) else none :=
  rfl

theorem followParent_cons (h : cs ≠ []) :
    followParent s i (c :: cs) = (lookIn s i c).bind fun j => followParent s j cs := by
  unfold followParent
  rw [List.dropLast_cons_of_ne_nil h, follow_cons]
  cases hlast : cs.getLast? with
  | none => exact absurd (List.getLast?_eq_none_iff.mp hlast) h
  | some e =>
    rw [List.getLast?_cons, hlast]
    cases lookIn s i c with
    | none => rfl
    | some j => rfl

end Follow

/-! ## Consistent states -/

/-- An inode that a walk can reach: it is allocated, and without links only while it is in use. -/
structure Usable (s : FsState) (i : Nat) : Prop where
  lt : i < s.sb.ninodes
  type : (s.inode i).type ≠ 0
  links : (s.inode i).nlink = 0 → ∃ k, 0 < (s.icache k).ref ∧ (s.icache k).inum = i

/-- A state in which no inode is locked, the inode cache agrees with the disk and directories
consist of entries that name usable inodes. -/
structure Consistent (s : FsState) (p : Fin nproc) : Prop where
  image : Image s.sb s.disk
  refs : ∀ k, 0 ≤ (s.icache k).ref
  unlocked : ∀ k, (s.icache k).lock = none
  unique : ∀ k l, 0 < (s.icache k).ref → 0 < (s.icache l).ref →
    (s.icache k).inum = (s.icache l).inum → k = l
  coherent : ∀ k, 0 < (s.icache k).ref → (s.icache k).valid = true →
    (s.icache k).copy = s.inode (s.icache k).inum
  whole : ∀ i, (s.inode i).type = tDir → (s.inode i).size.toNat % 16 = 0
  names : ∀ i, (s.inode i).type = tDir →
    ∀ de ∈ entries (contents s.disk (s.inode i)), de.inum ≠ 0 → Usable s de.inum.toNat
  root : Usable s rootino
  cwd : ∃ k, (s.proc p).cwd = some k ∧ 0 < (s.icache k).ref ∧ Usable s (s.icache k).inum

/-- The inode at which a path starts. -/
def startOf (s : FsState) (p : Fin nproc) (path : Path) : Option Nat :=
  if path.head? = some slash then some rootino
  else (s.proc p).cwd.map fun k => (s.icache k).inum

/-! ## References in hand -/

/-- The state `t` is `s` with the references `ps` that process `p` took; it holds the lock of
`locked`. -/
structure Holding (p : Fin nproc) (s t : FsState) (ps : Multiset (Fin ninode × Nat))
    (locked : Option (Fin ninode)) : Prop where
  frame : t = { s with icache := t.icache }
  ref : ∀ k, (t.icache k).ref = (s.icache k).ref + (ps.map Prod.fst).count k
  inum : ∀ k, 0 < (s.icache k).ref → (t.icache k).inum = (s.icache k).inum
  pins : ∀ q ∈ ps, (t.icache q.1).inum = q.2
  unique : ∀ k l, 0 < (t.icache k).ref → 0 < (t.icache l).ref →
    (t.icache k).inum = (t.icache l).inum → k = l
  coherent : ∀ k, 0 < (t.icache k).ref → (t.icache k).valid = true →
    (t.icache k).copy = s.inode (t.icache k).inum
  lock : ∀ k, (t.icache k).lock = if locked = some k then some p else none

/-- At most one entry of the inode cache is free. -/
def CacheFull (s : FsState) : Prop :=
  ∀ k l, (s.icache k).ref = 0 → (s.icache l).ref = 0 → k = l

section Holding

variable {p : Fin nproc} {s t : FsState} {ps : Multiset (Fin ninode × Nat)} {k : Fin ninode}
  {i : Nat} {locked : Option (Fin ninode)}

theorem Consistent.holding (h : Consistent s p) : Holding p s s 0 none where
  frame := rfl
  ref k := by simp
  inum _ _ := rfl
  pins q hq := absurd hq (Multiset.notMem_zero q)
  unique := h.unique
  coherent := h.coherent
  lock k := by
    rw [h.unlocked k]
    rfl

namespace Holding

variable (h : Holding p s t ps locked)

include h

theorem disk_eq : t.disk = s.disk := by
  rw [h.frame]

theorem sb_eq : t.sb = s.sb := by
  rw [h.frame]

theorem ref_pos (hrefs : ∀ k, 0 ≤ (s.icache k).ref) (hq : (k, i) ∈ ps) :
    0 < (t.icache k).ref := by
  have hcount : 0 < (ps.map Prod.fst).count k :=
    Multiset.count_pos.mpr (Multiset.mem_map.mpr ⟨(k, i), hq, rfl⟩)
  have hs := hrefs k
  rw [h.ref k]
  omega

/-- Taking a reference. -/
theorem got (hrefs : ∀ k, 0 ≤ (s.icache k).ref) (hslot : slotFor t i = some k) :
    Holding p s (t.setEntry k (gotInode (t.icache k) i)) ((k, i) ::ₘ ps) locked := by
  have hnonneg : ∀ l, 0 ≤ (t.icache l).ref := by
    intro l
    have hs := hrefs l
    rw [h.ref l]
    omega
  have hcases := igetSlot_some hslot
  generalize hx : gotInode (t.icache k) i = x
  have hxref : x.ref = (t.icache k).ref + 1 := by
    rw [← hx, gotInode]
    rcases hcases with ⟨hpos, -⟩ | ⟨hzero, -⟩
    · rw [if_pos hpos]
    · rw [if_neg (by omega)]
      show (1 : Int) = (t.icache k).ref + 1
      omega
  have hxinum : x.inum = i := by
    rw [← hx, gotInode]
    rcases hcases with ⟨hpos, hinum⟩ | ⟨hzero, -⟩
    · rw [if_pos hpos]
      exact hinum
    · rw [if_neg (by omega)]
  have hxlock : x.lock = (t.icache k).lock := by
    rw [← hx, gotInode]
    split <;> rfl
  have hkeep : 0 < (t.icache k).ref → (t.icache k).inum = i := by
    intro hpos
    rcases hcases with ⟨-, hinum⟩ | ⟨hzero, -⟩
    · exact hinum
    · omega
  have hentry : ∀ l, l ≠ k → (t.setEntry k x).icache l = t.icache l := fun l hl =>
    setEntry_ne t k l x hl
  have hnew : ∀ l, l ≠ k → 0 < (t.icache l).ref → (t.icache l).inum ≠ i := by
    intro l hl hpos hsame
    rcases hcases with ⟨hkpos, hinum⟩ | ⟨-, hother⟩
    · exact hl (h.unique l k hpos hkpos (hsame.trans hinum.symm))
    · exact hother l hpos hsame
  refine ⟨?_, ?_, ?_, ?_, ?_, ?_, ?_⟩
  · show ({ t with icache := _ } : FsState) = { s with icache := _ }
    rw [h.frame]
    rfl
  · intro l
    rw [Multiset.map_cons, Multiset.count_cons]
    by_cases hl : l = k
    · subst hl
      have hold := h.ref l
      rw [setEntry_self, hxref, if_pos rfl]
      omega
    · rw [hentry l hl, if_neg hl, h.ref l]
      rfl
  · intro l hpos
    by_cases hl : l = k
    · subst hl
      have hold := h.ref l
      rw [setEntry_self, hxinum, ← hkeep (by omega)]
      exact h.inum l hpos
    · rw [hentry l hl]
      exact h.inum l hpos
  · intro q hq
    rcases Multiset.mem_cons.mp hq with rfl | hq
    · rw [setEntry_self]
      exact hxinum
    · by_cases hl : q.1 = k
      · have hpos := h.ref_pos hrefs (k := q.1) (i := q.2) hq
        rw [hl] at hpos
        rw [hl, setEntry_self, hxinum, ← hkeep hpos, ← hl]
        exact h.pins q hq
      · rw [hentry q.1 hl]
        exact h.pins q hq
  · intro l m hposl hposm hsame
    by_cases hl : l = k
    · by_cases hm : m = k
      · rw [hl, hm]
      · rw [hl, setEntry_self, hentry m hm, hxinum] at hsame
        rw [hentry m hm] at hposm
        exact absurd hsame.symm (hnew m hm hposm)
    · rw [hentry l hl] at hposl hsame
      by_cases hm : m = k
      · rw [hm, setEntry_self, hxinum] at hsame
        exact absurd hsame (hnew l hl hposl)
      · rw [hentry m hm] at hposm hsame
        exact h.unique l m hposl hposm hsame
  · intro l hpos hvalid
    by_cases hl : l = k
    · subst hl
      rw [setEntry_self] at hvalid ⊢
      rw [hxinum]
      rw [← hx, gotInode] at hvalid ⊢
      rcases hcases with ⟨hpos, hinum⟩ | ⟨hzero, -⟩
      · rw [if_pos hpos] at hvalid ⊢
        have hcopy := h.coherent l hpos hvalid
        rwa [hinum] at hcopy
      · rw [if_neg (by omega)] at hvalid
        exact absurd hvalid Bool.false_ne_true
    · rw [hentry l hl] at hpos hvalid ⊢
      exact h.coherent l hpos hvalid
  · intro l
    by_cases hl : l = k
    · subst hl
      rw [setEntry_self, hxlock]
      exact h.lock l
    · rw [hentry l hl]
      exact h.lock l

/-- When no entry is left, all entries that were free are in hand. -/
theorem full (hslot : slotFor t i = none) (hk : (s.icache k).ref = 0) : ∃ j, (k, j) ∈ ps := by
  have hne := (slotFor_none hslot k).1
  rw [h.ref k, hk] at hne
  have hcount : (ps.map Prod.fst).count k ≠ 0 := by
    intro hzero
    rw [hzero] at hne
    exact hne rfl
  obtain ⟨q, hq, rfl⟩ := Multiset.mem_map.mp (Multiset.count_ne_zero.mp hcount)
  exact ⟨q.2, hq⟩

end Holding

/-- Changing an entry without its reference count and its inode. -/
theorem Holding.setEntry {locked' : Option (Fin ninode)} (h : Holding p s t ps locked)
    {x : Inode} (href : x.ref = (t.icache k).ref) (hinum : x.inum = (t.icache k).inum)
    (hcopy : x.valid = true → x.copy = s.inode x.inum)
    (hlock : x.lock = if locked' = some k then some p else none)
    (hother : ∀ l, l ≠ k → (locked' = some l ↔ locked = some l)) :
    Holding p s (t.setEntry k x) ps locked' := by
  have hall : ∀ l, ((t.setEntry k x).icache l).ref = (t.icache l).ref ∧
      ((t.setEntry k x).icache l).inum = (t.icache l).inum := by
    intro l
    by_cases hl : l = k
    · subst hl
      rw [setEntry_self]
      exact ⟨href, hinum⟩
    · rw [setEntry_ne t k l x hl]
      exact ⟨rfl, rfl⟩
  refine ⟨?_, ?_, ?_, ?_, ?_, ?_, ?_⟩
  · show ({ t with icache := _ } : FsState) = { s with icache := _ }
    rw [h.frame]
    rfl
  · intro l
    rw [(hall l).1]
    exact h.ref l
  · intro l hpos
    rw [(hall l).2]
    exact h.inum l hpos
  · intro q hq
    rw [(hall q.1).2]
    exact h.pins q hq
  · intro l m hposl hposm hsame
    rw [(hall l).1] at hposl
    rw [(hall m).1] at hposm
    rw [(hall l).2, (hall m).2] at hsame
    exact h.unique l m hposl hposm hsame
  · intro l hpos hvalid
    by_cases hl : l = k
    · subst hl
      rw [setEntry_self] at hvalid ⊢
      exact hcopy hvalid
    · rw [setEntry_ne t k l x hl] at hpos hvalid ⊢
      exact h.coherent l hpos hvalid
  · intro l
    by_cases hl : l = k
    · subst hl
      rw [setEntry_self]
      exact hlock
    · rw [setEntry_ne t k l x hl, h.lock l]
      simp only [hother l hl]

/-- `ilock` loads the inode. -/
theorem Holding.ilock (h : Holding p s t ps none) (hrefs : ∀ k, 0 ≤ (s.icache k).ref)
    (hq : (k, i) ∈ ps) (hi : Usable s i) :
    ∃ u, Fs.ilock p k t = .ok ((), u) ∧ Holding p s u ps (some k) ∧
      (u.icache k).copy = s.inode i := by
  have hpos := h.ref_pos hrefs hq
  have hinum : (t.icache k).inum = i := h.pins (k, i) hq
  have hfree : (t.icache k).lock = none := h.lock k
  have hdisk : dinodeAt t.sb t.disk (t.icache k).inum = s.inode i := by
    rw [h.sb_eq, h.disk_eq, hinum]
    exact (if_pos hi.lt).symm
  have hlocked : ∀ l, l ≠ k → (some k = some l ↔ (none : Option (Fin ninode)) = some l) := by
    intro l hl
    simp [Ne.symm hl]
  unfold Fs.ilock
  rw [bind_ok (a := t) (t := t) rfl, if_neg (by omega), if_neg (not_not.mpr hfree),
    bind_ok (setInode_ok ..)]
  by_cases hvalid : (t.icache k).valid = true
  · have hcopy := h.coherent k hpos hvalid
    rw [if_pos hvalid]
    refine ⟨_, rfl, h.setEntry rfl rfl (fun _ => hcopy) (by rw [if_pos rfl]) hlocked, ?_⟩
    rw [setEntry_self]
    show (t.icache k).copy = _
    rw [hcopy, hinum]
  · rw [if_neg hvalid, bind_ok (setInode_ok ..), hdisk, if_neg hi.type]
    refine ⟨_, rfl, ?_, ?_⟩
    · rw [setEntry_setEntry, setEntry_self]
      refine h.setEntry rfl rfl (fun _ => ?_) (by rw [if_pos rfl]) hlocked
      show dinodeAt t.sb t.disk (t.icache k).inum = s.inode (t.icache k).inum
      rw [hdisk, hinum]
    · rw [setEntry_self, setEntry_self]
      exact hdisk

/-- `iunlock` by the process that holds the lock. -/
theorem Holding.iunlock (h : Holding p s t ps (some k)) (hrefs : ∀ k, 0 ≤ (s.icache k).ref)
    (hq : (k, i) ∈ ps) :
    ∃ u, Fs.iunlock p k t = .ok ((), u) ∧ Holding p s u ps none := by
  have hpos := h.ref_pos hrefs hq
  have hlock : (t.icache k).lock = some p := by
    rw [h.lock k, if_pos rfl]
  unfold Fs.iunlock
  rw [bind_ok (a := t) (t := t) rfl, if_neg (by rw [hlock]; simp; omega)]
  refine ⟨_, setInode_ok .., h.setEntry rfl rfl ?_ rfl ?_⟩
  · exact h.coherent k hpos
  · intro l hl
    simp [Ne.symm hl]

/-- Dropping a reference to a usable inode. -/
theorem Holding.iput (h : Holding p s t ((k, i) ::ₘ ps) locked)
    (hrefs : ∀ k, 0 ≤ (s.icache k).ref) (hi : Usable s i) :
    ∃ u, Fs.iput k t = .ok ((), u) ∧ Holding p s u ps locked := by
  have hmem : (k, i) ∈ (k, i) ::ₘ ps := Multiset.mem_cons_self ..
  have hpos := h.ref_pos hrefs hmem
  have hinum : (t.icache k).inum = i := h.pins (k, i) hmem
  have href : ∀ l, (t.icache l).ref = (s.icache l).ref +
      ((ps.map Prod.fst).count l + if l = k then 1 else 0 : Nat) := by
    intro l
    rw [h.ref l, Multiset.map_cons, Multiset.count_cons]
  -- an inode without links is pinned in `s`, so that this is not the last reference
  have hstays : ¬((t.icache k).ref = 1 ∧ (t.icache k).valid = true ∧
      (t.icache k).copy.nlink = 0) := by
    rintro ⟨hone, hvalid, hlinks⟩
    rw [h.coherent k hpos hvalid, hinum] at hlinks
    obtain ⟨l, hlpos, hlinum⟩ := hi.links hlinks
    have hltpos : 0 < (t.icache l).ref := by
      rw [href l]
      omega
    have hlk := h.unique l k hltpos hpos (by rw [h.inum l hlpos, hlinum, hinum])
    subst hlk
    have hsum := href l
    rw [if_pos rfl] at hsum
    omega
  refine ⟨_, iput_ok hstays, ?_⟩
  have hinums : ∀ l, ((t.dropRef k).icache l).inum = (t.icache l).inum ∧
      ((t.dropRef k).icache l).valid = (t.icache l).valid ∧
      ((t.dropRef k).icache l).copy = (t.icache l).copy ∧
      ((t.dropRef k).icache l).lock = (t.icache l).lock ∧
      ((t.dropRef k).icache l).ref = (t.icache l).ref - if l = k then 1 else 0 := by
    intro l
    unfold FsState.dropRef
    by_cases hl : l = k
    · subst hl
      rw [setEntry_self, if_pos rfl]
      exact ⟨rfl, rfl, rfl, rfl, rfl⟩
    · rw [setEntry_ne _ _ _ _ hl, if_neg hl]
      exact ⟨rfl, rfl, rfl, rfl, (sub_zero _).symm⟩
  have hle : ∀ l, 0 < ((t.dropRef k).icache l).ref → 0 < (t.icache l).ref := by
    intro l hl
    rw [(hinums l).2.2.2.2] at hl
    split at hl <;> omega
  refine ⟨?_, ?_, ?_, ?_, ?_, ?_, ?_⟩
  · show ({ t with icache := _ } : FsState) = { s with icache := _ }
    rw [h.frame]
    rfl
  · intro l
    rw [(hinums l).2.2.2.2, href l]
    split <;> omega
  · intro l hl
    rw [(hinums l).1]
    exact h.inum l hl
  · intro q hq
    rw [(hinums q.1).1]
    exact h.pins q (Multiset.mem_cons_of_mem hq)
  · intro l m hl hm hsame
    rw [(hinums l).1, (hinums m).1] at hsame
    exact h.unique l m (hle l hl) (hle m hm) hsame
  · intro l hl hvalid
    rw [(hinums l).2.1] at hvalid
    rw [(hinums l).2.2.1, (hinums l).1]
    exact h.coherent l (hle l hl) hvalid
  · intro l
    rw [(hinums l).2.2.2.1]
    exact h.lock l

/-- An entry in use is the one that `iget` of its inode finds. -/
theorem Holding.slotFor_self (h : Holding p s t ps locked) (hk : 0 < (t.icache k).ref) :
    slotFor t (t.icache k).inum = some k := by
  cases hslot : slotFor t (t.icache k).inum with
  | none =>
    have hno := (slotFor_none hslot k).2 rfl
    omega
  | some l =>
    rcases igetSlot_some hslot with ⟨hpos, hinum⟩ | ⟨-, hnone⟩
    · rw [h.unique l k hpos hk hinum]
    · exact absurd rfl (hnone k hk)

/-- `idup` of an entry that is in use takes a reference, as `iget` of its inode would. -/
theorem Holding.idup (h : Holding p s t ps locked) (hrefs : ∀ k, 0 ≤ (s.icache k).ref)
    (hk : 0 < (s.icache k).ref) :
    ∃ u, Fs.idup k t = .ok ((), u) ∧ Holding p s u ((k, (s.icache k).inum) ::ₘ ps) locked := by
  have hold := h.ref k
  have hpos : 0 < (t.icache k).ref := by omega
  have hgot := h.got hrefs (h.slotFor_self hpos)
  rw [gotInode, if_pos hpos] at hgot
  refine ⟨_, rfl, ?_⟩
  rw [← h.inum k hk]
  exact hgot

end Holding

/-! ## The loop -/

/-- What the walk leaves: one reference to the inode it found, or none. -/
def Reached (p : Fin nproc) (s : FsState) (found : Option (Nat × List UInt8))
    (r : Option (Fin ninode × List UInt8)) (t : FsState) : Prop :=
  match r, found with
  | some (k, name), some (i, c) => name = c ∧ Holding p s t {(k, i)} none
  | none, none => Holding p s t 0 none
  | _, _ => False

/-- Where a walk from the inode `i` ends. -/
def target (s : FsState) (parent : Bool) (i : Nat) (cs : List (List UInt8)) (last : List UInt8) :
    Option (Nat × List UInt8) :=
  if parent then followParent s i cs
  else (follow s i cs).map fun j => (j, cs.getLast?.getD last)

section Walk

variable {p : Fin nproc} {s t : FsState} {k : Fin ninode} {i : Nat}

theorem Consistent.usable_of_lookIn (h : Consistent s p) {c : List UInt8} {j : Nat}
    (hlook : lookIn s i c = some j) : Usable s j := by
  unfold lookIn at hlook
  split at hlook
  · rename_i hdir
    unfold inumOf at hlook
    obtain ⟨⟨m, j'⟩, hfound, rfl⟩ := Option.map_eq_some_iff.mp hlook
    obtain ⟨hm, hne, hinum, -⟩ := lookup_some hfound
    have husable := h.names i hdir _ (List.getElem_mem hm) hne
    rwa [hinum] at husable
  · exact absurd hlook (by simp)

/-- The inode in hand, locked, as a directory. -/
theorem Holding.cachedDir {ps : Multiset (Fin ninode × Nat)} (h : Holding p s t ps (some k))
    (hs : Consistent s p) (hq : (k, i) ∈ ps) (hi : Usable s i)
    (hcopy : (t.icache k).copy = s.inode i) (hdir : (s.inode i).type = tDir) :
    CachedDir t k ∧ slots t k = entries (contents s.disk (s.inode i)) := by
  have hinum : (t.icache k).inum = i := h.pins (k, i) hq
  refine ⟨⟨⟨?_, ?_, ?_, ?_⟩, ?_, ?_⟩, ?_⟩
  · rw [h.sb_eq, h.disk_eq]
    exact hs.image
  · rw [hinum, h.sb_eq]
    exact hi.lt
  · rw [hcopy, hinum, h.sb_eq, h.disk_eq]
    rfl
  · rw [hcopy]
    exact hi.type
  · rw [hcopy]
    exact hdir
  · rw [hcopy]
    exact hs.whole i hdir
  · unfold slots
    rw [hcopy, h.disk_eq]

/-- `iunlockput` of the inode in hand. -/
theorem Holding.iunlockput {ps : Multiset (Fin ninode × Nat)}
    (h : Holding p s t ((k, i) ::ₘ ps) (some k)) (hs : Consistent s p) (hi : Usable s i)
    {E : Stop → Prop} :
    wp ((Fs.iunlockput k).run (handle p)) (fun _ u => Holding p s u ps none) E t := by
  obtain ⟨u, hunlock, hu⟩ := h.iunlock hs.refs (Multiset.mem_cons_self ..)
  obtain ⟨v, hput, hv⟩ := hu.iput hs.refs hi
  unfold Fs.iunlockput
  refine Prog.wp_call_bind_of (P := fun _ w => w = u) ((wp_of_ok hunlock).mpr rfl) ?_
  rintro _ w rfl
  rw [Prog.run_call]
  exact (wp_of_ok hput).mpr hv

/-- The loop of `namex` follows the path. -/
theorem namexLoop_walks (hs : Consistent s p) (parent : Bool) (fuel : Nat) :
    ∀ {t : FsState} {k : Fin ninode} {i : Nat} {path : Path} {last : List UInt8},
      path.length < fuel → Holding p s t {(k, i)} none → Usable s i →
      wp ((namexLoop parent fuel k path last).run (handle p))
        (Reached p s (target s parent i (elements path) last))
        (fun e => e = .igetNoInodes ∧ CacheFull s) t := by
  induction fuel with
  | zero =>
    intro t k i path last hfuel
    omega
  | succ fuel ih =>
    intro t k i path last hfuel h hi
    have hmem : (k, i) ∈ ({(k, i)} : Multiset (Fin ninode × Nat)) :=
      Multiset.mem_singleton_self _
    unfold namexLoop
    cases hskip : skipelem path with
    | none =>
      have hnil : elements path = [] := by
        rw [elements, skipelem_none hskip]
        rfl
      rw [hnil]
      cases parent with
      | true =>
        have hone : Holding p s t ((k, i) ::ₘ 0) none := h
        obtain ⟨u, hput, hu⟩ := hone.iput hs.refs hi
        simp only [if_true]
        refine Prog.wp_call_bind_of (P := fun _ w => w = u) ((wp_of_ok hput).mpr rfl) ?_
        rintro _ w rfl
        exact hu
      | false =>
        exact ⟨rfl, h⟩
    | some q =>
      obtain ⟨rest, name⟩ := q
      obtain ⟨hparts, hname⟩ := skipelem_some hskip
      have hshort := skipelem_length hskip
      have helements : elements path = name :: elements rest := by
        rw [elements, hparts, List.map_cons, ← hname]
        rfl
      have hrest : rest = [] ↔ elements rest = [] := by
        rw [rest_nil_iff hskip, elements, List.map_eq_nil_iff]
      rw [helements]
      obtain ⟨u, hlock, hu, hcopy⟩ := h.ilock hs.refs hmem hi
      have hone : Holding p s u ((k, i) ::ₘ 0) (some k) := hu
      simp only
      refine Prog.wp_call_bind_of (P := fun _ w => w = u) ((wp_of_ok hlock).mpr rfl) ?_
      rintro _ w rfl
      refine Prog.wp_call_bind_of (P := fun x v => x.type = (s.inode i).type ∧ v = w)
        ⟨by rw [hcopy], rfl⟩ ?_
      rintro x v ⟨hx, rfl⟩
      rw [hx]
      by_cases hdir : (s.inode i).type = tDir
      · rw [if_neg (not_not.mpr hdir)]
        by_cases hlast : parent = true ∧ rest = []
        · rw [if_pos hlast]
          obtain ⟨u', hunlock, hu'⟩ := hu.iunlock hs.refs hmem
          refine Prog.wp_call_bind_of (P := fun _ w => w = u')
            ((wp_of_ok hunlock).mpr rfl) ?_
          rintro _ w rfl
          rw [hlast.1, hrest.mp hlast.2, target, if_pos rfl, followParent_single, if_pos hdir]
          exact ⟨rfl, hu'⟩
        · rw [if_neg hlast]
          obtain ⟨hcached, hslots⟩ := hu.cachedDir hs hmem hi hcopy hdir
          have hlookIn : lookIn s i name = (lookup (slots v k) name).map Prod.snd := by
            rw [lookIn, if_pos hdir, hslots]
            rfl
          -- what the walk is to find, from the next inode on
          have htarget : target s parent i (name :: elements rest) last =
              (lookIn s i name).bind fun j => target s parent j (elements rest) name := by
            unfold target
            cases parent with
            | true =>
              have hne : elements rest ≠ [] := fun hnil => hlast ⟨rfl, hrest.mpr hnil⟩
              exact followParent_cons s i name _ hne
            | false =>
              simp only [Bool.false_eq_true, if_false]
              rw [follow_cons, List.getLast?_cons, Option.getD_some]
              cases lookIn s i name with
              | none => rfl
              | some j => rfl
          rw [htarget, hlookIn]
          refine Prog.wp_run_bind_of (wp_mono (dirlookup_kernel hcached name)
            (fun _ _ hpost => hpost) ?_) ?_
          · rintro e ⟨he, -, j, -, hnone⟩
            refine ⟨he, ?_⟩
            intro l m hl hm
            obtain ⟨a, ha⟩ := hu.full hnone hl
            obtain ⟨b, hb⟩ := hu.full hnone hm
            rw [Multiset.mem_singleton, Prod.mk.injEq] at ha hb
            rw [ha.1, hb.1]
          · rintro r w (⟨hnone, rfl, rfl⟩ | ⟨m, j, l, off, hfound, rfl, -, hslot, rfl⟩)
            · simp only
              refine Prog.wp_run_bind_of (hone.iunlockput hs hi) ?_
              intro _ x hx
              rw [hnone]
              exact hx
            · have hj : Usable s j := hs.usable_of_lookIn (by rw [hlookIn, hfound]; rfl)
              have hgot := hu.got hs.refs hslot
              have hswap : ((l, j) ::ₘ {(k, i)} : Multiset (Fin ninode × Nat)) =
                  (k, i) ::ₘ {(l, j)} := Multiset.cons_swap (l, j) (k, i) 0
              rw [hswap] at hgot
              simp only
              refine Prog.wp_run_bind_of (hgot.iunlockput hs hi) ?_
              intro _ x hx
              rw [hfound]
              exact ih (by omega) hx hj
      · rw [if_pos hdir]
        have hfail : target s parent i (name :: elements rest) last = none := by
          have hlookIn : lookIn s i name = none := if_neg hdir
          unfold target
          cases parent with
          | true =>
            by_cases hnil : elements rest = []
            · rw [hnil]
              exact (followParent_single s i name).trans (if_neg hdir)
            · have hcons := followParent_cons s i name _ hnil
              rw [hlookIn] at hcons
              exact hcons
          | false =>
            simp only [Bool.false_eq_true, if_false]
            rw [follow_cons, hlookIn]
            rfl
        rw [hfail]
        refine Prog.wp_run_bind_of (hone.iunlockput hs hi) ?_
        intro _ x hx
        exact hx

/-- `namex` follows the path from where it starts. -/
theorem namex_walks (hs : Consistent s p) (parent : Bool) (path : Path)
    (hi : startOf s p path = some i) :
    wp ((namex path parent).run (handle p))
      (Reached p s (target s parent i (elements path) []))
      (fun e => e = .igetNoInodes ∧ CacheFull s) s := by
  have hstart := hs.holding
  have hfuel : path.length < path.length + 1 := Nat.lt_succ_self _
  unfold namex
  unfold startOf at hi
  by_cases hroot : path.head? = some slash
  · rw [if_pos hroot, Option.some.injEq] at hi
    subst hi
    rw [if_pos hroot]
    refine Prog.wp_call_bind_of (iget_spec fun hnone => ⟨rfl, ?_⟩) ?_
    · intro k l hk
      obtain ⟨j, hj⟩ := hstart.full hnone hk
      exact absurd hj (Multiset.notMem_zero _)
    · rintro k t ⟨hslot, rfl⟩
      exact namexLoop_walks hs parent _ hfuel (hstart.got hs.refs hslot) hs.root
  · obtain ⟨k, hcwd, hpos, husable⟩ := hs.cwd
    rw [if_neg hroot, hcwd, Option.map_some, Option.some.injEq] at hi
    subst hi
    rw [if_neg hroot]
    have hget : handle p .cwd s = .ok (k, s) := by
      unfold handle
      simp only
      rw [bind_ok (a := s) (t := s) rfl, hcwd]
      rfl
    obtain ⟨u, hdup, hu⟩ := hstart.idup hs.refs hpos
    refine Prog.wp_call_bind_of (P := fun r t => r = k ∧ t = s)
      ((wp_of_ok hget).mpr ⟨rfl, rfl⟩) ?_
    rintro r t ⟨rfl, rfl⟩
    refine Prog.wp_call_bind_of (P := fun _ w => w = u) ((wp_of_ok hdup).mpr rfl) ?_
    rintro _ w rfl
    exact namexLoop_walks hs parent _ hfuel hu husable

end Walk

/-! ## namei and nameiparent -/

/-- `nameiparent` with an array does what `nameiparent` does. -/
theorem nameiparentInto_eq (path : Path) (name : Bytes dirsiz) :
    nameiparentInto path name = (do
      let r ← nameiparent path
      return r.map fun q => (q.1, (parts path).foldl copyName name)) := by
  unfold nameiparentInto nameiparent namex
  split
  · rw [bind_assoc]
    congr 1
    funext ip
    exact namexInto_eq true _ ip path name []
  · rw [bind_assoc]
    congr 1
    funext cwd
    rw [bind_assoc]
    congr 1
    funext _
    exact namexInto_eq true _ cwd path name []

/-- The call returns the inode `found`, with one more reference to it, or 0; it changes nothing
but the inode cache. -/
def Returns (p : Fin nproc) (s : FsState) (found : Option Nat) (r : Option (Fin ninode))
    (t : FsState) : Prop :=
  match r, found with
  | some k, some i => Holding p s t {(k, i)} none
  | none, none => Holding p s t 0 none
  | _, _ => False

/-- The call returns the directory of `found` and leaves the name in the array, or returns 0. -/
def ReturnsParent (p : Fin nproc) (s : FsState) (found : Option (Nat × List UInt8))
    (r : Option (Fin ninode × Bytes dirsiz)) (t : FsState) : Prop :=
  match r, found with
  | some (k, name), some (i, c) => HoldsName name c ∧ Holding p s t {(k, i)} none
  | none, none => Holding p s t 0 none
  | _, _ => False

theorem followParent_last {s : FsState} {i j : Nat} {cs : List (List UInt8)} {c : List UInt8}
    (h : followParent s i cs = some (j, c)) : cs.getLast? = some c := by
  unfold followParent at h
  obtain ⟨c', hc', h⟩ := Option.bind_eq_some_iff.mp h
  obtain ⟨d, -, h⟩ := Option.bind_eq_some_iff.mp h
  split at h
  · rw [Option.some.injEq, Prod.mk.injEq] at h
    rw [hc', h.2]
  · exact absurd h (by simp)

/-- Resolving a path is a fold of directory lookups over its elements: `namei` looks all of them
up in turn, from the root or the current directory on, and `nameiparent` all but the last, whose
name it leaves in the array of its caller.  Both panic only when the inode cache is full. -/
theorem path_resolution {s : FsState} {p : Fin nproc} (h : Consistent s p) (path : Path)
    (name : Bytes dirsiz) :
    ∃ i, startOf s p path = some i ∧
      wp ((namei path).run (handle p)) (Returns p s (follow s i (elements path)))
        (fun e => e = .igetNoInodes ∧ CacheFull s) s ∧
      wp ((nameiparentInto path name).run (handle p))
        (ReturnsParent p s (followParent s i (elements path)))
        (fun e => e = .igetNoInodes ∧ CacheFull s) s := by
  obtain ⟨k, hcwd, -⟩ := h.cwd
  have hstart : ∃ i, startOf s p path = some i := by
    unfold startOf
    split
    · exact ⟨_, rfl⟩
    · exact ⟨_, by rw [hcwd]; rfl⟩
  obtain ⟨i, hi⟩ := hstart
  refine ⟨i, hi, ?_, ?_⟩
  · unfold namei
    refine Prog.wp_run_bind_of (namex_walks h false path hi) ?_
    intro r t hr
    unfold target at hr
    simp only [Bool.false_eq_true, if_false] at hr
    show Returns p s (follow s i (elements path)) (r.map Prod.fst) t
    cases hfound : follow s i (elements path) with
    | none =>
      rw [hfound] at hr
      cases r with
      | none => exact hr
      | some q => exact hr.elim
    | some j =>
      rw [hfound] at hr
      cases r with
      | none => exact hr.elim
      | some q => exact hr.2
  · rw [nameiparentInto_eq]
    refine Prog.wp_run_bind_of (namex_walks h true path hi) ?_
    intro r t hr
    unfold target at hr
    simp only [if_true] at hr
    show ReturnsParent p s (followParent s i (elements path)) (r.map _) t
    cases hfound : followParent s i (elements path) with
    | none =>
      rw [hfound] at hr
      cases r with
      | none => exact hr
      | some q => exact hr.elim
    | some q =>
      obtain ⟨j, c⟩ := q
      rw [hfound] at hr
      cases r with
      | none => exact hr.elim
      | some q => exact ⟨foldl_copyName_holds (followParent_last hfound) name, hr.2⟩

/-! ## Paths in the small file system -/

section Small

variable {s : FsState} {p : Fin nproc} {n : Nat}

/-- The inodes of the small file system, from the root directory on, are usable. -/
theorem smallDisk_usable (hn : n ≤ 62) (hdisk : s.disk = smallDisk n) (hsb : s.sb = smallSb)
    {i : Nat} (hpos : 1 ≤ i) (hlt : i < n + 2) : Usable s i := by
  have hsmall := smallDisk_image hn
  have hinode : s.inode i = smallRoot ∨ s.inode i = emptyFile := by
    rw [FsState.inode, hsb, hdisk]
    by_cases hroot : i = 1
    · exact Or.inl (hroot ▸ hsmall.root)
    · exact Or.inr (hsmall.files i (by omega) hlt)
  refine ⟨?_, ?_, ?_⟩
  · rw [hsb]
    exact (by omega : i < 64)
  · rcases hinode with h | h <;> rw [h] <;> decide
  · intro hzero
    rcases hinode with h | h <;> rw [h] at hzero <;> exact absurd hzero (by decide)

/-- The root directory is the only one. -/
theorem smallDisk_dir (hn : n ≤ 62) (hdisk : s.disk = smallDisk n) (hsb : s.sb = smallSb) {i : Nat}
    (h : (s.inode i).type = tDir) : i = 1 := by
  have hsmall := smallDisk_image hn
  rw [FsState.inode, hsb, hdisk] at h
  by_contra hne
  by_cases hfile : 2 ≤ i ∧ i < n + 2
  · rw [hsmall.files i hfile.1 hfile.2] at h
    exact absurd h (by decide)
  · rw [hsmall.free i hne (by omega)] at h
    exact absurd h (by decide)

theorem smallDisk_consistent (hn : n ≤ 62) (hfiles : 1 ≤ n) (hdisk : s.disk = smallDisk n)
    (hsb : s.sb = smallSb) (hrefs : ∀ k, 0 ≤ (s.icache k).ref)
    (hunlocked : ∀ k, (s.icache k).lock = none)
    (hunique : ∀ k l, 0 < (s.icache k).ref → 0 < (s.icache l).ref →
      (s.icache k).inum = (s.icache l).inum → k = l)
    (hcopy : ∀ k, 0 < (s.icache k).ref →
      (s.icache k).inum = 1 ∧ (s.icache k).copy = smallRoot ∨
      2 ≤ (s.icache k).inum ∧ (s.icache k).inum < n + 2 ∧ (s.icache k).copy = emptyFile)
    (hcwd : ∃ k, (s.proc p).cwd = some k ∧ 0 < (s.icache k).ref ∧ (s.icache k).inum = 1) :
    Consistent s p := by
  have hsmall := smallDisk_image hn
  have hroot : s.inode 1 = smallRoot := by
    rw [FsState.inode, hsb, hdisk]
    exact hsmall.root
  have husable : ∀ i, 1 ≤ i → i < n + 2 → Usable s i := fun _ =>
    smallDisk_usable hn hdisk hsb
  refine ⟨by rw [hsb, hdisk]; exact hsmall.image, hrefs, hunlocked, hunique, ?_, ?_, ?_,
    husable 1 (le_refl 1) (by omega), ?_⟩
  · intro k hk _
    rcases hcopy k hk with ⟨hi, hc⟩ | ⟨hlo, hhi, hc⟩
    · rw [hc, hi, hroot]
    · rw [hc, FsState.inode, hsb, hdisk, hsmall.files _ hlo hhi]
  · intro i hi
    rw [smallDisk_dir hn hdisk hsb hi, hroot]
    decide
  · intro i hi de hde _
    rw [smallDisk_dir hn hdisk hsb hi, hroot, hdisk, hsmall.data] at hde
    have hinums : (entries (contents (smallDisk 0) smallRoot)).map (fun de => de.inum.toNat) =
        [1, 1, 2] := by
      decide +kernel
    have hmem := List.mem_map_of_mem (f := fun de : Dirent => de.inum.toNat) hde
    rw [hinums] at hmem
    simp only [List.mem_cons, List.not_mem_nil, or_false] at hmem
    exact husable _ (by omega) (by omega)
  · obtain ⟨k, hk, href, hinum⟩ := hcwd
    refine ⟨k, hk, href, ?_⟩
    rw [hinum]
    exact husable 1 (le_refl 1) (by omega)

end Small

theorem smallOp_consistent : Consistent smallOp ⟨0, by decide⟩ := by
  refine smallDisk_consistent (n := 1) (by decide) (le_refl 1) rfl rfl (by decide) (by decide)
    (by decide) ?_ ⟨⟨1, by decide⟩, rfl, by decide, rfl⟩
  intro k hk
  by_cases hzero : k.val = 0
  · have hentry : smallOp.icache k = ⟨2, 1, none, true, emptyFile⟩ := if_pos hzero
    rw [hentry]
    exact Or.inr ⟨le_refl 2, by decide, rfl⟩
  · by_cases hone : k.val = 1
    · have hentry : smallOp.icache k = ⟨1, 2, none, true, smallRoot⟩ :=
        (if_neg hzero).trans (if_pos hone)
      rw [hentry]
      exact Or.inl ⟨rfl, rfl⟩
    · have hentry : smallOp.icache k = ⟨0, 0, none, false, Dinode.fresh 0⟩ :=
        (if_neg hzero).trans (if_neg hone)
      rw [hentry] at hk
      exact absurd hk (by decide)

theorem smallOp_not_cacheFull : ¬ CacheFull smallOp := fun h =>
  absurd (h ⟨2, by decide⟩ ⟨3, by decide⟩ rfl rfl) (by decide)

section Sample

-- the statement below mentions them, and must not be evaluated
attribute [local irreducible] namei nameiparentInto

/-- The path `/./a` leads to inode 2, and its parent is the root directory. -/
theorem path_resolution_smallOp :
    (∃ k t, (namei [slash, dot, slash, 97]).run (handle ⟨0, by decide⟩) smallOp =
        .ok (some k, t) ∧ Holding ⟨0, by decide⟩ smallOp t {(k, 2)} none) ∧
    ∃ k name t, (nameiparentInto [slash, dot, slash, 97] (Bytes.zero dirsiz)).run
        (handle ⟨0, by decide⟩) smallOp = .ok (some (k, name), t) ∧
      HoldsName name [97] ∧ Holding ⟨0, by decide⟩ smallOp t {(k, 1)} none := by
  obtain ⟨i, hi, hnamei, hparent⟩ := path_resolution smallOp_consistent [slash, dot, slash, 97]
    (Bytes.zero dirsiz)
  have hone : i = 1 := (Option.some.inj hi).symm
  have hfollow : follow smallOp 1 (elements [slash, dot, slash, 97]) = some 2 := by
    decide +kernel
  have hfollowParent : followParent smallOp 1 (elements [slash, dot, slash, 97]) =
      some (1, [97]) := by
    decide +kernel
  rw [hone, hfollow] at hnamei
  rw [hone, hfollowParent] at hparent
  constructor
  · obtain ⟨r, t, hrun, hr⟩ := wp_never.mp
      (wp_mono hnamei (fun _ _ h => h) fun _ he => smallOp_not_cacheFull he.2)
    cases r with
    | none => exact hr.elim
    | some k => exact ⟨k, t, hrun, hr⟩
  · obtain ⟨r, t, hrun, hr⟩ := wp_never.mp
      (wp_mono hparent (fun _ _ h => h) fun _ he => smallOp_not_cacheFull he.2)
    cases r with
    | none => exact hr.elim
    | some q => exact ⟨q.1, q.2, t, hrun, hr.1, hr.2⟩

end Sample

theorem fullFs_consistent : Consistent fullFs ⟨0, by decide⟩ := by
  refine smallDisk_consistent (n := 50) (by decide) (by decide) rfl rfl (by decide) (by decide)
    ?_ ?_ ⟨⟨0, by decide⟩, rfl, by decide, rfl⟩
  · intro k l _ _ hinum
    have hinums : ∀ k : Fin ninode,
        (fullFs.icache k).inum = if k.val = 0 then 1 else k.val + 2 := by
      decide
    rw [hinums, hinums] at hinum
    refine Fin.ext ?_
    split_ifs at hinum <;> omega
  · intro k _
    by_cases hzero : k.val = 0
    · have hentry : fullFs.icache k = ⟨1, 4, none, true, smallRoot⟩ := if_pos hzero
      rw [hentry]
      exact Or.inl ⟨rfl, rfl⟩
    · have hentry : fullFs.icache k = ⟨k.val + 2, 1, none, true, emptyFile⟩ := if_neg hzero
      have hlt : k.val < 50 := k.isLt
      rw [hentry]
      exact Or.inr ⟨(by omega : 2 ≤ k.val + 2), (by omega : k.val + 2 < 50 + 2), rfl⟩

/-- The stop of a call that does not return. -/
def stopOf {α : Type} : Except Stop α → Option Stop
  | .ok _ => none
  | .error e => some e

theorem stopOf_some {α : Type} {r : Except Stop α} {e : Stop} (h : stopOf r = some e) :
    r = .error e := by
  cases r with
  | ok a => exact absurd h (by simp [stopOf])
  | error e' => exact congrArg Except.error (Option.some.inj h)

/-- The path `/a` leads to inode 2, but `namei` does not return it: it panics, because every entry
of the inode cache is in use. -/
theorem namei_cacheFull :
    Consistent fullFs ⟨0, by decide⟩ ∧ startOf fullFs ⟨0, by decide⟩ [slash, 97] = some 1 ∧
    follow fullFs 1 (elements [slash, 97]) = some 2 ∧
    (namei [slash, 97]).run (handle ⟨0, by decide⟩) fullFs = .error .igetNoInodes := by
  refine ⟨fullFs_consistent, rfl, by decide +kernel, stopOf_some ?_⟩
  decide +kernel

end Xv6.Fs
