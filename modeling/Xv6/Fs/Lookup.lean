import Xv6.Fs.Directory
import Xv6.Fs.Files

/-!
# File system - Searching a directory in the kernel

`iget` and `iput` on the kernel's inode cache, and `dirlookup` on a directory whose inode is
cached: it reads the entries one after the other and changes nothing but the cache, where it
takes a reference to the inode it found.

Main results:

- Theorem {lit}`iget_spec`: the entry that {lit}`iget` returns.
- Theorem {lit}`iput_ok`: {lit}`iput` of an inode that is not freed.
- Theorem {lit}`dirlookup_kernel`: {lit}`dirlookup` finds the first entry with the name.
-/

namespace Xv6.Fs

open Foundations

/-! ## The inode cache -/

/-- The entry of the inode cache for inode `i`. -/
def slotFor (s : FsState) (i : Nat) : Option (Fin ninode) :=
  igetSlot (fun k => (s.icache k).inum) (fun k => (s.icache k).ref) i

/-- What the inode cache holds behind `iget`. -/
def gotInode (x : Inode) (i : Nat) : Inode :=
  if 0 < x.ref then { x with ref := x.ref + 1 } else { x with inum := i, ref := 1, valid := false }

theorem iget_ok {s : FsState} {i : Nat} {ip : Fin ninode} (h : slotFor s i = some ip) :
    iget i s = .ok (ip, { s with
      icache := Function.update s.icache ip (gotInode (s.icache ip) i) }) := by
  unfold iget
  rw [bind_ok (a := s) (t := s) rfl]
  unfold slotFor at h
  simp only [h]
  rfl

theorem iget_full {s : FsState} {i : Nat} (h : slotFor s i = none) :
    iget i s = .error .igetNoInodes := by
  unfold iget
  rw [bind_ok (a := s) (t := s) rfl]
  unfold slotFor at h
  simp only [h]
  rfl

/-- No entry is left when `iget` finds none. -/
theorem slotFor_none {s : FsState} {i : Nat} (h : slotFor s i = none) (k : Fin ninode) :
    (s.icache k).ref ≠ 0 ∧ ((s.icache k).inum = i → (s.icache k).ref ≤ 0) := by
  unfold slotFor igetSlot at h
  split at h
  · exact absurd h (by simp)
  · rename_i hnone
    have hkey := List.find?_eq_none.mp hnone k (List.mem_finRange k)
    have hfree := List.find?_eq_none.mp h k (List.mem_finRange k)
    rw [decide_eq_true_eq] at hkey hfree
    exact ⟨hfree, fun hi => not_lt.mp fun hpos => hkey ⟨hpos, hi⟩⟩

/-- The state with another inode cache entry. -/
def FsState.setEntry (s : FsState) (k : Fin ninode) (x : Inode) : FsState :=
  { s with icache := Function.update s.icache k x }

section Entry

variable (s : FsState) (k l : Fin ninode) (x y : Inode)

@[simp]
theorem setEntry_self : (s.setEntry k x).icache k = x :=
  Function.update_self ..

theorem setEntry_ne (h : l ≠ k) : (s.setEntry k x).icache l = s.icache l :=
  Function.update_of_ne h ..

@[simp]
theorem setEntry_setEntry : (s.setEntry k x).setEntry k y = s.setEntry k y := by
  simp [FsState.setEntry]

theorem setInode_ok (f : Inode → Inode) :
    setInode k f s = .ok ((), s.setEntry k (f (s.icache k))) :=
  rfl

end Entry

/-- `iget` takes a reference to the entry of the inode, or to an empty one. -/
theorem iget_spec {E : Stop → Prop} {s : FsState} {i : Nat}
    (hfull : slotFor s i = none → E .igetNoInodes) :
    wp (iget i) (fun k t => slotFor s i = some k ∧
      t = s.setEntry k (gotInode (s.icache k) i)) E s := by
  cases h : slotFor s i with
  | none =>
    rw [wp_of_error (iget_full h)]
    exact hfull h
  | some k =>
    rw [wp_of_ok (iget_ok h)]
    exact ⟨rfl, rfl⟩

/-- The state after `iput` of an inode that is not freed. -/
def FsState.dropRef (s : FsState) (k : Fin ninode) : FsState :=
  s.setEntry k { s.icache k with ref := (s.icache k).ref - 1 }

theorem iput_ok {s : FsState} {k : Fin ninode}
    (h : ¬((s.icache k).ref = 1 ∧ (s.icache k).valid = true ∧ (s.icache k).copy.nlink = 0)) :
    iput k s = .ok ((), s.dropRef k) := by
  unfold iput
  rw [bind_ok (a := s) (t := s) rfl, if_neg h]
  rfl

/-- An inode that `iget` has just returned is not freed by `iput`. -/
theorem gotInode_stays (x : Inode) (i : Nat) :
    ¬((gotInode x i).ref = 1 ∧ (gotInode x i).valid = true ∧ (gotInode x i).copy.nlink = 0) := by
  unfold gotInode
  split
  · rintro ⟨hone, -⟩
    have hone' : x.ref + 1 = 1 := hone
    omega
  · rintro ⟨-, hvalid, -⟩
    exact Bool.false_ne_true hvalid

/-! ## Reading a directory -/

/-- The entries of the cached directory `dp`. -/
def slots (s : FsState) (dp : Fin ninode) : List Dirent :=
  entries (contents s.disk (s.icache dp).copy)

/-- The inode of a directory is cached in `dp`; its size is a multiple of the size of an entry. -/
structure CachedDir (s : FsState) (dp : Fin ninode) : Prop where
  cached : Cached s dp
  dir : (s.icache dp).copy.type = tDir
  whole : (s.icache dp).copy.size.toNat % 16 = 0

section Search

variable {s : FsState} {dp : Fin ninode} {p : Fin nproc}

theorem CachedDir.size_le (h : CachedDir s dp) :
    (s.icache dp).copy.size.toNat ≤ 71680 :=
  h.cached.mapped.size_le

theorem CachedDir.slots_length (h : CachedDir s dp) :
    16 * (slots s dp).length = (s.icache dp).copy.size.toNat := by
  have hwhole := h.whole
  unfold slots
  rw [entries_length, contents_length]
  omega

/-- One round of a loop over the entries: the end was reached, or entry `j` is read. -/
theorem CachedDir.round (h : CachedDir s dp) {off : UInt32} {j : Nat} (hoff : off.toNat = 16 * j)
    {α : Type} {f : Option (List UInt8) → FsProg α} {done : FsProg α} {Q : α → FsState → Prop}
    {E : Stop → Prop}
    (hf : ∀ (hj : j < (slots s dp).length) bytes, bytes.length = direntSize →
      direntLayout.decode bytes = (slots s dp)[j] → wp ((f (some bytes)).run (handle p)) Q E s)
    (hdone : (slots s dp).length ≤ j → wp (done.run (handle p)) Q E s) :
    wp ((do
      let x ← perform (.attr dp)
      if off < x.size then perform (.readi dp off 16) >>= f else done).run (handle p)) Q E s := by
  have hsize := h.size_le
  have hlen := h.slots_length
  refine Prog.wp_call_bind_of (P := fun x t => x.size = (s.icache dp).copy.size ∧ t = s)
    ⟨rfl, rfl⟩ ?_
  rintro x t ⟨hx, rfl⟩
  rw [hx]
  split_ifs with hoffset <;> rw [UInt32.lt_iff_toNat_lt, hoff] at hoffset
  · have hj : j < (slots t dp).length := by omega
    obtain ⟨bytes, hread, hblen, hdecode⟩ :=
      readData_entry hoff hj (by rw [contents_length]; omega)
    refine Prog.wp_call_bind_of (P := fun r u => r = some bytes ∧ u = t)
      ((wp_of_ok ?_).mpr ⟨rfl, rfl⟩) ?_
    · rw [handle, h.cached.readi (by rw [h.dir]; decide), hread]
    · rintro r u ⟨rfl, rfl⟩
      exact hf hj bytes hblen hdecode
  · exact hdone (by omega)

/-- What `dirlookup` returns when `found` is the entry of the name. -/
def Found (s : FsState) (found : Option (Nat × Nat)) (r : Option (Fin ninode × UInt32))
    (t : FsState) : Prop :=
  found = none ∧ r = none ∧ t = s ∨
  ∃ j i k off, found = some (j, i) ∧ r = some (k, off) ∧ off.toNat = 16 * j ∧
    slotFor s i = some k ∧ t = s.setEntry k (gotInode (s.icache k) i)

/-- The inode of the entry of the name is not cached, and the cache is full. -/
def NoEntry (s : FsState) (found : Option (Nat × Nat)) (e : Stop) : Prop :=
  e = .igetNoInodes ∧ ∃ j i, found = some (j, i) ∧ slotFor s i = none

/-- The loop of `dirlookup` from entry `j` on. -/
theorem dirlookupLoop_kernel (h : CachedDir s dp) (name : List UInt8) {fuel : Nat} :
    ∀ {off : UInt32} {j : Nat}, off.toNat = 16 * j → j ≤ (slots s dp).length →
      (slots s dp).length < j + fuel →
      wp ((dirlookupLoop dp name fuel off).run (handle p))
        (Found s (lookupFrom name j ((slots s dp).drop j)))
        (NoEntry s (lookupFrom name j ((slots s dp).drop j))) s := by
  have hsize := h.size_le
  have hlen := h.slots_length
  induction fuel with
  | zero =>
    intro off j _ hj hfuel
    omega
  | succ fuel ih =>
    intro off j hoff hj hfuel
    unfold dirlookupLoop
    refine h.round hoff (fun hin bytes hblen hdecode => ?_) fun hout => ?_
    · simp only
      rw [if_neg (not_not.mpr hblen), hdecode, List.drop_eq_getElem_cons hin, lookupFrom]
      by_cases hmatch : (slots s dp)[j].inum ≠ 0 ∧ namecmp name (slots s dp)[j].bytes = 0
      · rw [if_pos hmatch, if_pos hmatch]
        refine Prog.wp_call_bind_of
          (iget_spec fun hnone => ⟨rfl, j, _, rfl, hnone⟩) ?_
        rintro k v ⟨hslot, rfl⟩
        exact Or.inr ⟨j, _, k, off, rfl, rfl, hoff, hslot, rfl⟩
      · rw [if_neg hmatch, if_neg hmatch]
        exact ih (toNat_add_sixteen hoff (by omega)) hin (by omega)
    · rw [List.drop_eq_nil_of_le hout]
      exact Or.inl ⟨rfl, rfl, rfl⟩

/-- `dirlookup` finds the first entry with the name. -/
theorem dirlookup_kernel (h : CachedDir s dp) (name : List UInt8) :
    wp ((dirlookup dp name).run (handle p)) (Found s (lookup (slots s dp) name))
      (NoEntry s (lookup (slots s dp) name)) s := by
  have hlen := h.slots_length
  unfold dirlookup
  refine Prog.wp_call_bind_of (P := fun x t => x.type = (s.icache dp).copy.type ∧
    x.size = (s.icache dp).copy.size ∧ t = s) ⟨rfl, rfl, rfl⟩ ?_
  rintro x t ⟨htype, hx, rfl⟩
  rw [htype, hx, if_neg (not_not.mpr h.dir)]
  refine dirlookupLoop_kernel h name (j := 0) rfl (Nat.zero_le _) ?_
  rw [direntSize_eq]
  omega

end Search

end Xv6.Fs
